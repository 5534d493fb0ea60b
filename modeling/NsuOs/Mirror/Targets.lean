import NsuOs.Mirror.Leftovers

/-!
# The targets that `run` passes on

For each argument `run` stores the part up to the last slash in one buffer, the reversed name in
another, and joins them. Neither `strncpy` stores a terminator, and both buffers keep their content
from one argument to the next, so what is passed on is right exactly when terminators already stood
behind both parts. Terminators come from the memory `malloc` returned or from an earlier target of
just that length; longer names and longer targets write over them. The buffers have as many bytes as
the longest argument, so the target of that argument does not fit into them with its terminator.
-/
namespace NsuOs.Mirror

open NsuOs.Block

section Paths

/-- The part of a path behind its last slash. -/
def nameOf (path : CString) : CString where
  bytes := (path.bytes.reverse.takeWhile (· != slash)).reverse
  nulFree inside := by
    rw [List.mem_reverse] at inside
    exact path.nulFree (List.mem_reverse.mp ((List.takeWhile_sublist _).subset inside))

/-- The part of a path up to and including its last slash. -/
def folderOf (path : CString) : CString where
  bytes := (path.bytes.reverse.dropWhile (· != slash)).reverse
  nulFree inside := by
    rw [List.mem_reverse] at inside
    exact path.nulFree (List.mem_reverse.mp ((List.dropWhile_sublist _).subset inside))

/-- The path in front of the reversed name: the part up to the last slash, or `./`. -/
def startOf (path : CString) : List UInt8 :=
  if slash ∈ path.bytes then (folderOf path).bytes else dot ++ [slash]

/-- The target of an argument: the part up to its last slash, or `./`, and the reverse of the
rest. -/
def targetOf (path : CString) : CString where
  bytes := startOf path ++ (nameOf path).bytes.reverse
  nulFree inside := by
    rcases List.mem_append.mp inside with front | back
    · unfold startOf at front
      split at front
      · exact (folderOf path).nulFree front
      · exact absurd front (by decide)
    · exact (nameOf path).nulFree (List.mem_reverse.mp back)

/-- The length of a target. -/
theorem strlen_targetOf (path : CString) :
    (targetOf path).strlen = (startOf path).length + (nameOf path).strlen := by
  unfold targetOf CString.strlen
  simp

/-- The two parts are the path. -/
theorem folderOf_append_nameOf (path : CString) :
    (folderOf path).bytes ++ (nameOf path).bytes = path.bytes := by
  unfold folderOf nameOf
  simp only
  rw [← List.reverse_append, List.takeWhile_append_dropWhile, List.reverse_reverse]

/-- Their lengths add up. -/
theorem strlen_parts (path : CString) :
    (folderOf path).strlen + (nameOf path).strlen = path.strlen := by
  have lengths := congrArg List.length (folderOf_append_nameOf path)
  rw [List.length_append] at lengths
  exact lengths

/-- A path with a slash has a last one. -/
theorem last_slash {bytes : List UInt8} (member : slash ∈ bytes) :
    ∃ front back, bytes = front ++ slash :: back ∧ slash ∉ back := by
  induction bytes with
  | nil => cases member
  | cons byte rest ih =>
    by_cases later : slash ∈ rest
    · obtain ⟨front, back, split, last⟩ := ih later
      exact ⟨byte :: front, back, by rw [split, List.cons_append], last⟩
    · have here : byte = slash := by
        rcases List.mem_cons.mp member with same | inside
        · exact same.symm
        · exact absurd inside later
      exact ⟨[], rest, by rw [here, List.nil_append], later⟩

/-- The first slash behind other bytes. -/
theorem idxOf_slash {front back : List UInt8} (before : slash ∉ front) :
    (front ++ slash :: back).idxOf? slash = some front.length := by
  induction front with
  | nil => simp [List.idxOf?_cons]
  | cons byte rest ih =>
    rw [List.mem_cons, not_or] at before
    have other : (byte == slash) = false := by
      rw [beq_eq_false_iff_ne]
      exact Ne.symm before.1
    rw [List.cons_append, List.idxOf?_cons, other, ih before.2]
    simp

/-- The parts of a path with its last slash. -/
theorem parts_of_split {path : CString} {front back : List UInt8}
    (split : path.bytes = front ++ slash :: back) (last : slash ∉ back) :
    strrchr path slash = some front.length ∧ (folderOf path).bytes = front ++ [slash] ∧
      (nameOf path).bytes = back := by
  have turned : path.bytes.reverse = back.reverse ++ slash :: front.reverse := by
    rw [split]
    simp
  have apart : ∀ byte ∈ back.reverse, (byte != slash) = true := by
    intro byte member
    rw [bne_iff_ne]
    rintro rfl
    exact last (List.mem_reverse.mp member)
  refine ⟨?_, ?_, ?_⟩
  · unfold strrchr
    have behind : slash ∉ back.reverse := by
      rw [List.mem_reverse]
      exact last
    rw [turned, idxOf_slash behind, split]
    simp
  · unfold folderOf
    simp only
    rw [turned, List.dropWhile_append_of_pos apart]
    simp
  · unfold nameOf
    simp only
    rw [turned, List.takeWhile_append_of_pos apart]
    simp

/-- A path without a slash is a name. -/
theorem nameOf_of_plain {path : CString} (plain : slash ∉ path.bytes) : nameOf path = path := by
  apply CString.ext
  unfold nameOf
  simp only
  rw [List.takeWhile_eq_self_iff.mpr, List.reverse_reverse]
  intro byte member
  rw [bne_iff_ne]
  rintro rfl
  exact plain (List.mem_reverse.mp member)

end Paths

section Step

variable (revFolder pathToFolder : Block) (arg : CString)

/-- `rev_folder` with the reversed name of an argument. -/
def nameBlock : Block := reverseText (revFolder.strncpy (nameOf arg) (nameOf arg).strlen)

/-- `path_to_folder` after `find_name_folder`. -/
def folderBlock : Block :=
  if slash ∈ arg.bytes then pathToFolder.strncpy (folderOf arg) (folderOf arg).strlen
  else pathToFolder.sprintf (dot ++ [slash])

/-- `path_to_folder` with the target of an argument. -/
def targetBlock : Block :=
  (folderBlock pathToFolder arg).strcat (nameBlock revFolder arg).text

/-- The bytes `find_name_folder` stores. -/
def storedBytes (arg : CString) : Nat := if slash ∈ arg.bytes then (folderOf arg).strlen else 3

/-- What `find_name_folder` returns. -/
theorem findNameFolder_eq (formats : Bool) :
    findNameFolder formats arg pathToFolder =
      if slash ∈ arg.bytes ∨ formats = true then
        some (folderBlock pathToFolder arg, nameOf arg, storedBytes arg)
      else none := by
  by_cases member : slash ∈ arg.bytes
  · obtain ⟨front, back, split, last⟩ := last_slash member
    obtain ⟨found, folder, name⟩ := parts_of_split split last
    have size : (folderOf arg).strlen = front.length + 1 := by
      unfold CString.strlen
      rw [folder]
      simp
    have stored : pathToFolder.strncpy arg (front.length + 1) =
        pathToFolder.strncpy (folderOf arg) (folderOf arg).strlen := by
      have first : arg.bytes.take (front.length + 1) = (folderOf arg).bytes := by
        rw [split, folder, List.append_cons]
        exact List.take_left' (by simp)
      have copied : strncpyBytes arg (front.length + 1) = (folderOf arg).bytes := by
        have fits : front.length + 1 - arg.bytes.length = 0 := by
          rw [split]
          simp
        unfold strncpyBytes
        rw [first, fits]
        simp
      have whole : strncpyBytes (folderOf arg) (folderOf arg).strlen = (folderOf arg).bytes := by
        unfold strncpyBytes CString.strlen
        simp
      unfold Block.strncpy
      rw [copied, whole]
    have rest : arg.drop (front.length + 1) = nameOf arg := by
      apply CString.ext
      unfold CString.drop
      simp only
      rw [name, split, List.append_cons]
      exact List.drop_left' (by simp)
    unfold findNameFolder folderBlock storedBytes
    rw [found]
    simp only [member, true_or, if_true]
    rw [stored, rest, size]
  · have absent : strrchr arg slash = none := by
      unfold strrchr
      rw [List.idxOf?_eq_none_iff.mpr (by rw [List.mem_reverse]; exact member)]
      rfl
    have untouched : pathToFolder.strncpy arg 0 = pathToFolder := by
      unfold Block.strncpy strncpyBytes store
      simp
    unfold findNameFolder folderBlock storedBytes
    rw [absent, nameOf_of_plain member, untouched]
    simp [member]

/-- What is behind the stored part of a path. -/
def behind (pathToFolder : Block) (arg : CString) : List UInt8 :=
  if slash ∈ arg.bytes then (leftover pathToFolder (folderOf arg).strlen).bytes else []

/-- The string `find_name_folder` leaves. -/
theorem text_folderBlock :
    (folderBlock pathToFolder arg).text.bytes = startOf arg ++ behind pathToFolder arg := by
  unfold folderBlock startOf behind
  split
  · exact text_stored pathToFolder (folderOf arg)
  · rw [List.append_nil]
    exact text_sprintf pathToFolder (by decide)

/-- The target as it is passed on. -/
theorem text_targetBlock :
    (targetBlock revFolder pathToFolder arg).text.bytes =
      startOf arg ++ behind pathToFolder arg ++ (nameBlock revFolder arg).text.bytes := by
  unfold targetBlock
  rw [text_strcat, text_folderBlock]

/-- Its length. -/
theorem strlen_targetBlock :
    (targetBlock revFolder pathToFolder arg).text.strlen = (targetOf arg).strlen +
      (behind pathToFolder arg).length + (leftover revFolder (nameOf arg).strlen).strlen := by
  have whole : (targetBlock revFolder pathToFolder arg).text.strlen = (startOf arg).length +
      (behind pathToFolder arg).length + (nameBlock revFolder arg).text.strlen := by
    have length := congrArg List.length (text_targetBlock revFolder pathToFolder arg)
    rw [List.length_append, List.length_append] at length
    exact length
  have name : (nameBlock revFolder arg).text.strlen =
      (nameOf arg).strlen + (leftover revFolder (nameOf arg).strlen).strlen :=
    strlen_turned revFolder (nameOf arg)
  have target := strlen_targetOf arg
  omega

/-- The target is right exactly when terminators stood behind both parts and the name turns. -/
theorem text_targetBlock_iff :
    (targetBlock revFolder pathToFolder arg).text = targetOf arg ↔
      (slash ∈ arg.bytes → ZeroAt pathToFolder.memory (folderOf arg).strlen) ∧
        ZeroAt revFolder.memory (nameOf arg).strlen ∧ Turns (nameOf arg).bytes := by
  have nothing : behind pathToFolder arg = [] ↔
      (slash ∈ arg.bytes → ZeroAt pathToFolder.memory (folderOf arg).strlen) := by
    rw [← leftover_eq_nil_iff]
    unfold behind
    split
    · rename_i member
      simp [member]
    · rename_i plain
      simp [plain]
  have name := text_turned_iff revFolder (nameOf arg)
  rw [← nothing, ← name]
  constructor
  · intro same
    have length := strlen_targetBlock revFolder pathToFolder arg
    rw [same] at length
    have empty : behind pathToFolder arg = [] := by
      rw [← List.length_eq_zero_iff]
      omega
    refine ⟨empty, CString.ext ?_⟩
    have bytes := congrArg CString.bytes same
    rw [text_targetBlock, empty, List.append_nil] at bytes
    exact List.append_cancel_left bytes
  · rintro ⟨empty, turned⟩
    apply CString.ext
    rw [text_targetBlock, empty, List.append_nil]
    unfold nameBlock
    rw [turned]
    rfl

/-- Where terminators stand in `path_to_folder` after an argument. -/
theorem zeroAt_targetBlock (offset : Nat) :
    ZeroAt (targetBlock revFolder pathToFolder arg).memory offset ↔
      offset = (targetBlock revFolder pathToFolder arg).text.strlen ∨
        (targetBlock revFolder pathToFolder arg).text.strlen < offset ∧
          ZeroAt pathToFolder.memory offset := by
  have length := strlen_targetBlock revFolder pathToFolder arg
  have kept : (targetBlock revFolder pathToFolder arg).text.strlen < offset →
      (ZeroAt (folderBlock pathToFolder arg).memory offset ↔
        ZeroAt pathToFolder.memory offset) := by
    intro late
    have target := strlen_targetOf arg
    unfold startOf at target
    unfold folderBlock
    split
    · rename_i member
      rw [if_pos member] at target
      rw [memory_strncpy_self]
      have folder : (folderOf arg).bytes.length ≤ (targetOf arg).strlen := by omega
      exact zeroAt_store pathToFolder (by omega)
    · rename_i plain
      rw [if_neg plain] at target
      apply zeroAt_store
      have three : (dot ++ [slash] ++ [0]).length = 3 := rfl
      have two : (dot ++ [slash]).length = 2 := rfl
      omega
  unfold targetBlock at kept ⊢
  rw [zeroAt_strcat]
  constructor
  · rintro (same | ⟨late, zero⟩)
    · exact .inl same
    · exact .inr ⟨late, (kept late).mp zero⟩
  · rintro (same | ⟨late, zero⟩)
    · exact .inl same
    · exact .inr ⟨late, (kept late).mpr zero⟩

end Step

section Notes

variable {σ η : Type} {sys : System σ η} {before middle after : Machine σ η}

/-- The target in a note. -/
def Note.target? : Note η → Option CString
  | .failed _ => none
  | .copied _ => none
  | .wrote _ _ => none
  | .built _ => none
  | .target path => some path

/-- The targets recorded, in order. -/
def targets (notes : List (Note η)) : List CString := notes.filterMap Note.target?

/-- Something was recorded, but no target. -/
def Adds (before after : Machine σ η) : Prop :=
  ∃ made, after.notes = before.notes ++ made ∧ targets made = []

/-- Nothing was recorded. -/
theorem adds_refl (machine : Machine σ η) : Adds machine machine := ⟨[], by simp, rfl⟩

/-- What is recorded after something else. -/
theorem Adds.trans (first : Adds before middle) (second : Adds middle after) :
    Adds before after := by
  obtain ⟨made, notes, none⟩ := first
  obtain ⟨more, notes', none'⟩ := second
  refine ⟨made ++ more, by rw [notes', notes, List.append_assoc], ?_⟩
  rw [targets, List.filterMap_append]
  exact List.append_eq_nil_iff.mpr ⟨none, none'⟩

/-- Notes without a target. -/
theorem adds_note (machine : Machine σ η) {notes : List (Note η)} (none : targets notes = []) :
    Adds machine (machine.note notes) := ⟨notes, rfl, none⟩

/-- An error. -/
theorem adds_fail (machine : Machine σ η) (call : Call) : Adds machine (machine.fail call).2 :=
  adds_note machine rfl

/-- The targets are those there were. -/
theorem Adds.targets_eq (adds : Adds before after) :
    targets after.notes = targets before.notes := by
  obtain ⟨made, notes, none⟩ := adds
  unfold targets at none ⊢
  rw [notes, List.filterMap_append, none, List.append_nil]

/-- A call of a folder records no target. -/
def Untargeted (folder : FolderCall σ η) : Prop :=
  ∀ entry origin reverse machine status after,
    folder entry origin reverse machine = some (status, after) → Adds machine after

/-- `create_reverse_file` records no target. -/
theorem createReverseFile_adds (sys : System σ η) (entry : η) (input output : CString)
    (machine : Machine σ η) :
    Adds machine (createReverseFile sys entry input output machine).2 := by
  unfold createReverseFile
  split
  · split
    · exact adds_fail machine _
    · split
      rename_i bytes status output' same
      split
      · exact adds_note _ rfl
      · exact adds_note _ rfl
  · exact adds_fail machine _

/-- The copy of an entry records no target. -/
theorem copyEntry_adds {folder : FolderCall σ η} (calls : Untargeted folder) {dirent : Dirent η}
    {ret status : Status} {buffers : Buffers} {machine after : Machine σ η}
    (copied : copyEntry sys folder dirent ret buffers machine = some (status, after)) :
    Adds machine after := by
  unfold copyEntry at copied
  split at copied
  · exact calls _ _ _ _ _ _ copied
  · split at copied
    · obtain rfl := (Prod.ext_iff.mp (Option.some.inj copied)).2
      exact createReverseFile_adds sys dirent.entry _ _ _
    · obtain rfl := (Prod.mk.inj (Option.some.inj copied)).2
      exact adds_refl _

/-- A step of the loop of `fill_folder` records no target. -/
theorem EntryStep.adds {folder : FolderCall σ η} (calls : Untargeted folder)
    {origin reverse : CString} {dirent : Dirent η} {ret : Status} {buffers : Buffers}
    {machine : Machine σ η} {onward : Onward σ η}
    (step : EntryStep sys folder origin reverse dirent ret buffers machine onward) :
    Adds machine onward.machine := by
  cases step with
  | refused long => exact adds_fail machine _
  | unbuilt changed fits fails =>
    have built : Adds machine (machine.note (changed.buildNotes origin reverse dirent.name)) :=
      adds_note machine rfl
    exact built.trans (adds_fail _ _)
  | uncopied changed status middle fits formats copy wrong =>
    have built : Adds machine (machine.note (changed.buildNotes origin reverse dirent.name)) :=
      adds_note machine rfl
    exact (built.trans (copyEntry_adds calls copy)).trans (adds_fail middle _)
  | copied changed middle fits formats copy known =>
    have built : Adds machine (machine.note (changed.buildNotes origin reverse dirent.name)) :=
      adds_note machine rfl
    exact (built.trans (copyEntry_adds calls copy)).trans (adds_note middle rfl)

/-- The loop of `fill_folder` records no target. -/
theorem fillEntries_adds {folder : FolderCall σ η} (calls : Untargeted folder)
    {origin reverse : CString} {entries : List (Dirent η)} {ret status : Status}
    {buffers : Buffers} {machine : Machine σ η}
    (filled : fillEntries sys folder origin reverse entries ret buffers machine =
      some (status, after)) : Adds machine after := by
  induction entries generalizing ret buffers machine with
  | nil =>
    obtain ⟨-, rfl⟩ := Prod.mk.inj (Option.some.inj filled)
    exact adds_refl machine
  | cons dirent rest ih =>
    obtain ⟨onward, step⟩ := entryStep_of_fillEntries filled
    have first := step.adds calls
    rw [step.fillEntries] at filled
    cases onward with
    | stop stopped =>
      obtain rfl := (Prod.mk.inj (Option.some.inj filled)).2
      exact first
    | next changed middle => exact first.trans (ih filled)

/-- `fill_folder` records no target. -/
theorem fillFolder_adds {folder : FolderCall σ η} (calls : Untargeted folder) :
    Untargeted (fillFolder sys folder) := by
  intro entry origin reverse machine status after filled
  rcases fillFolder_cases sys folder entry origin reverse machine with
    refused | ⟨_, _, _, _, -, -, started⟩
  · rw [refused] at filled
    obtain rfl := (Prod.ext_iff.mp (Option.some.inj filled)).2
    exact adds_fail machine _
  · rw [started] at filled
    exact fillEntries_adds calls filled

/-- `create_reverse_folder` records no target. -/
theorem createReverseFolder_adds (sys : System σ η) (depth : Nat) :
    Untargeted (createReverseFolder sys depth) := by
  induction depth with
  | zero =>
    intro entry origin reverse machine status after called
    cases called
  | succ depth ih =>
    intro entry origin reverse machine status after called
    unfold createReverseFolder at called
    split at called
    · obtain rfl := (Prod.mk.inj (Option.some.inj called)).2
      exact adds_fail machine _
    · rename_i system made
      obtain ⟨⟨inner, later⟩, filled, same⟩ := Option.map_eq_some_iff.mp called
      obtain rfl := (Prod.mk.inj same).2
      have copied : Adds machine ({ machine with system := system }.note [.copied entry]) :=
        ⟨[.copied entry], rfl, rfl⟩
      exact copied.trans (fillFolder_adds ih _ _ _ _ _ _ filled)

end Notes

section Runs

variable {σ η : Type} {sys : System σ η} {depth : Nat} {arg : CString} {entry : η}
  {rest : List (CString × η)} {revFolder pathToFolder : Block} {machine after : Machine σ η}
  {exit : Exit}

/-- What `run` records for an argument: its three stores and the target. -/
def stepNotes (revFolder pathToFolder : Block) (arg : CString) : List (Note η) :=
  [.wrote pathToFolder.size (storedBytes arg), .wrote revFolder.size (nameOf arg).strlen,
    .wrote pathToFolder.size ((targetBlock revFolder pathToFolder arg).text.strlen + 1),
    .target (targetBlock revFolder pathToFolder arg).text]

/-- The size of `path_to_folder` stays. -/
theorem size_folderBlock (pathToFolder : Block) (arg : CString) :
    (folderBlock pathToFolder arg).size = pathToFolder.size := by
  unfold folderBlock
  split
  · rfl
  · rfl

/-- One argument of `run`: the snprintf of a path without a slash fails, or `create_reverse_folder`
is called with the target, and `run` goes on if it succeeds. -/
theorem runArgs_inv
    (ran : runArgs sys depth ((arg, entry) :: rest) (some revFolder) (some pathToFolder) machine =
      some (exit, after)) :
    (¬(slash ∈ arg.bytes ∨ sys.formats entry = true) ∧ after = machine) ∨
    ∃ status middle, createReverseFolder sys depth entry arg
        (targetBlock revFolder pathToFolder arg).text
          (machine.note (stepNotes revFolder pathToFolder arg)) = some (status, middle) ∧
      (after = middle ∨ runArgs sys depth rest (some (nameBlock revFolder arg))
        (some (targetBlock revFolder pathToFolder arg)) middle = some (exit, after)) := by
  unfold runArgs at ran
  rw [findNameFolder_eq] at ran
  by_cases goes : slash ∈ arg.bytes ∨ sys.formats entry = true
  · rw [if_pos goes] at ran
    obtain ⟨⟨status, middle⟩, called, onward⟩ := Option.bind_eq_some_iff.mp ran
    have sizes : (targetBlock revFolder pathToFolder arg).size = pathToFolder.size :=
      size_folderBlock pathToFolder arg
    refine .inr ⟨status, middle, ?_, ?_⟩
    · unfold stepNotes
      rw [← sizes]
      exact called
    · cases status with
      | error => exact .inl (Prod.mk.inj (Option.some.inj onward)).2.symm
      | ok => exact .inr onward
  · rw [if_neg goes] at ran
    exact .inl ⟨goes, (Prod.mk.inj (Option.some.inj ran)).2.symm⟩

/-- `run` only adds to what was recorded. -/
theorem runArgs_grows {given : List (CString × η)}
    (ran : runArgs sys depth given (some revFolder) (some pathToFolder) machine =
      some (exit, after)) : ∃ made, after.notes = machine.notes ++ made := by
  induction given generalizing revFolder pathToFolder machine with
  | nil =>
    obtain rfl := (Prod.mk.inj (Option.some.inj ran)).2
    exact ⟨[], (List.append_nil _).symm⟩
  | cons head rest ih =>
    rcases runArgs_inv ran with ⟨-, rfl⟩ | ⟨status, middle, called, onward⟩
    · exact ⟨[], (List.append_nil _).symm⟩
    · obtain ⟨made, notes, -⟩ := createReverseFolder_adds sys depth _ _ _ _ _ _ called
      rcases onward with rfl | ran
      · exact ⟨_ ++ made, by rw [notes]; exact List.append_assoc _ _ _⟩
      · obtain ⟨more, notes'⟩ := ih ran
        refine ⟨stepNotes revFolder pathToFolder head.1 ++ made ++ more, ?_⟩
        rw [notes', notes, ← List.append_assoc, ← List.append_assoc]
        rfl

/-- What is recorded for an argument comes behind what was. -/
theorem runArgs_noted {status : Status} {middle : Machine σ η}
    (called : createReverseFolder sys depth entry arg
      (targetBlock revFolder pathToFolder arg).text
        (machine.note (stepNotes revFolder pathToFolder arg)) = some (status, middle))
    (onward : after = middle ∨ runArgs sys depth rest (some (nameBlock revFolder arg))
      (some (targetBlock revFolder pathToFolder arg)) middle = some (exit, after)) :
    ∃ later, after.notes = machine.notes ++ (stepNotes revFolder pathToFolder arg ++ later) := by
  obtain ⟨made, notes, -⟩ := createReverseFolder_adds sys depth _ _ _ _ _ _ called
  have grown : ∃ more, after.notes = middle.notes ++ more := by
    rcases onward with rfl | ran
    · exact ⟨[], (List.append_nil _).symm⟩
    · exact runArgs_grows ran
  obtain ⟨more, notes'⟩ := grown
  refine ⟨made ++ more, ?_⟩
  rw [notes', notes, ← List.append_assoc, ← List.append_assoc]
  rfl

/-- The target of an argument is recorded behind the others when it is passed on. -/
theorem targets_noted {status : Status} {middle : Machine σ η}
    (called : createReverseFolder sys depth entry arg
      (targetBlock revFolder pathToFolder arg).text
        (machine.note (stepNotes revFolder pathToFolder arg)) = some (status, middle)) :
    targets middle.notes =
      targets machine.notes ++ [(targetBlock revFolder pathToFolder arg).text] := by
  rw [(createReverseFolder_adds sys depth _ _ _ _ _ _ called).targets_eq]
  unfold targets Machine.note stepNotes
  rw [List.filterMap_append]
  rfl

/-- A terminator stands at an offset of `rev_folder` when these arguments were processed: it was
there, and no name was longer. -/
def NameEnds (rev : List UInt8) (earlier : List CString) (offset : Nat) : Prop :=
  ZeroAt rev offset ∧ ∀ arg ∈ earlier, (nameOf arg).strlen ≤ offset

/-- A terminator stands at an offset of `path_to_folder` when these arguments were processed, the
latest of them first: the last target that was not shorter ended there, or all were shorter and it
was there. -/
def PathEnds (path : List UInt8) : List CString → Nat → Prop
  | [], offset => ZeroAt path offset
  | arg :: earlier, offset =>
    offset = (targetOf arg).strlen ∨ (targetOf arg).strlen < offset ∧ PathEnds path earlier offset

/-- Terminators stand behind both parts of an argument when the earlier ones were processed, and its
name turns. -/
structure Settled (rev path : List UInt8) (earlier : List CString) (arg : CString) : Prop where
  /-- A terminator stands behind the folder of the argument, if it names one. -/
  folder : slash ∈ arg.bytes → PathEnds path earlier.reverse (folderOf arg).strlen
  /-- A terminator stands behind the name of the argument. -/
  name : NameEnds rev earlier (nameOf arg).strlen
  /-- The name turns into its reverse. -/
  turns : Turns (nameOf arg).bytes

/-- The terminators in the two buffers are where the arguments processed have left them. -/
structure Marked (rev path : List UInt8) (earlier : List CString)
    (revFolder pathToFolder : Block) : Prop where
  /-- The terminators in the buffer of the name. -/
  names : ∀ offset, ZeroAt revFolder.memory offset ↔ NameEnds rev earlier offset
  /-- The terminators in the buffer of the path. -/
  paths : ∀ offset, ZeroAt pathToFolder.memory offset ↔ PathEnds path earlier.reverse offset

variable {rev path : List UInt8} {earlier : List CString}

/-- The target of the next argument is right exactly when the argument is settled. -/
theorem Marked.right_iff (marked : Marked rev path earlier revFolder pathToFolder) (arg : CString) :
    (targetBlock revFolder pathToFolder arg).text = targetOf arg ↔
      Settled rev path earlier arg := by
  rw [text_targetBlock_iff, marked.names, marked.paths]
  constructor
  · rintro ⟨folder, name, turns⟩
    exact ⟨folder, name, turns⟩
  · rintro ⟨folder, name, turns⟩
    exact ⟨folder, name, turns⟩

/-- A right target leaves its terminators. -/
theorem Marked.next (marked : Marked rev path earlier revFolder pathToFolder)
    (right : (targetBlock revFolder pathToFolder arg).text = targetOf arg) :
    Marked rev path (earlier ++ [arg]) (nameBlock revFolder arg)
      (targetBlock revFolder pathToFolder arg) := by
  constructor
  · intro offset
    unfold nameBlock
    rw [zeroAt_turned, marked.names]
    unfold NameEnds
    rw [List.forall_mem_append, List.forall_mem_singleton, and_comm, and_assoc]
  · intro offset
    rw [zeroAt_targetBlock, marked.paths, right, List.reverse_append]
    rfl

/-- A condition on every place of a list, split at its first one. -/
theorem forall_split_cons {α : Type} {first : α} {rest : List α} {holds : List α → α → Prop} :
    (∀ front value back, first :: rest = front ++ value :: back → holds front value) ↔
      holds [] first ∧
        ∀ front value back, rest = front ++ value :: back → holds (first :: front) value := by
  constructor
  · intro every
    refine ⟨every [] first rest rfl, ?_⟩
    intro front value back split
    exact every (first :: front) value back (by rw [split, List.cons_append])
  · rintro ⟨here, later⟩ front value back split
    cases front with
    | nil =>
      obtain ⟨rfl, -⟩ := List.cons.inj split
      exact here
    | cons head front =>
      obtain ⟨rfl, tail⟩ := List.cons.inj split
      exact later front value back tail

/-- When every argument is settled, the targets passed on are those of the arguments. -/
theorem runArgs_alone {given : List (CString × η)}
    (marked : Marked rev path earlier revFolder pathToFolder)
    (settled : ∀ front arg back, given.map Prod.fst = front ++ arg :: back →
      Settled rev path (earlier ++ front) arg)
    (ran : runArgs sys depth given (some revFolder) (some pathToFolder) machine =
      some (exit, after)) :
    ∃ passed, passed <+: (given.map Prod.fst).map targetOf ∧
      targets after.notes = targets machine.notes ++ passed := by
  induction given generalizing earlier revFolder pathToFolder machine with
  | nil =>
    obtain rfl := (Prod.mk.inj (Option.some.inj ran)).2
    exact ⟨[], List.prefix_rfl, (List.append_nil _).symm⟩
  | cons head rest ih =>
    obtain ⟨arg, entry⟩ := head
    rw [List.map_cons, forall_split_cons, List.append_nil] at settled
    have right := (marked.right_iff arg).mpr settled.1
    rcases runArgs_inv ran with ⟨-, rfl⟩ | ⟨status, middle, called, onward⟩
    · exact ⟨[], List.nil_prefix, (List.append_nil _).symm⟩
    · have noted := targets_noted called
      rw [right] at noted
      rcases onward with rfl | ran
      · refine ⟨[targetOf arg], ?_, noted⟩
        exact List.prefix_append [targetOf arg] _
      · have later : ∀ front arg' back, rest.map Prod.fst = front ++ arg' :: back →
            Settled rev path (earlier ++ [arg] ++ front) arg' := by
          intro front arg' back split
          rw [List.append_assoc]
          exact settled.2 front arg' back split
        obtain ⟨passed, within, all⟩ := ih (marked.next right) later ran
        refine ⟨targetOf arg :: passed, ?_, ?_⟩
        · exact (List.cons_prefix_cons).mpr ⟨rfl, within⟩
        · rw [all, noted, List.append_assoc]
          rfl

/-- A system in which directories can be made but not read. -/
def easySystem : System Unit Unit where
  mkdir _ _ _ := some ()
  opendir _ _ _ := none
  malloc _ _ _ := none
  realloc _ _ := true
  formats _ := true
  openInput _ _ _ := false
  openOutput _ _ _ := none
  content _ _ _ := []
  stdio _ := smooth
  close _ _ _ := ()

/-- There `run` goes from each argument to the next. -/
theorem runArgs_easy (arg : CString) (rest : List (CString × Unit)) (revFolder pathToFolder : Block)
    (machine : Machine Unit Unit) :
    runArgs easySystem 1 ((arg, ()) :: rest) (some revFolder) (some pathToFolder) machine =
      runArgs easySystem 1 rest (some (nameBlock revFolder arg))
        (some (targetBlock revFolder pathToFolder arg))
        ⟨(), machine.notes ++ (stepNotes revFolder pathToFolder arg ++
          [.copied (), .failed .fillFolder])⟩ := by
  have sizes : (targetBlock revFolder pathToFolder arg).size = pathToFolder.size :=
    size_folderBlock pathToFolder arg
  have formats : slash ∈ arg.bytes ∨ easySystem.formats () = true := .inr rfl
  conv_lhs => unfold runArgs
  rw [findNameFolder_eq, if_pos formats]
  unfold stepNotes
  rw [← sizes]
  simp only [createReverseFolder, fillFolder, easySystem, Machine.note, Machine.fail,
    Option.map_some, Option.bind_some, List.append_assoc]
  rfl

/-- The target of an argument is recorded behind the others. -/
theorem targets_step (notes : List (Note Unit)) (revFolder pathToFolder : Block) (arg : CString) :
    targets (notes ++ (stepNotes revFolder pathToFolder arg ++
      [.copied (), .failed .fillFolder])) =
        targets notes ++ [(targetBlock revFolder pathToFolder arg).text] := by
  unfold targets
  rw [List.filterMap_append]
  rfl

/-- There the targets are right only if the arguments are settled. -/
theorem settled_of_easy {given : List (CString × Unit)} {machine after : Machine Unit Unit}
    {passed : List CString} (marked : Marked rev path earlier revFolder pathToFolder)
    (ran : runArgs easySystem 1 given (some revFolder) (some pathToFolder) machine =
      some (exit, after))
    (noted : targets after.notes = targets machine.notes ++ passed)
    (right : passed <+: (given.map Prod.fst).map targetOf) :
    ∀ front arg back, given.map Prod.fst = front ++ arg :: back →
      Settled rev path (earlier ++ front) arg := by
  induction given generalizing earlier revFolder pathToFolder machine passed with
  | nil =>
    intro front arg back split
    simp at split
  | cons head rest ih =>
    obtain ⟨arg, entry⟩ := head
    rw [runArgs_easy] at ran
    obtain ⟨made, notes⟩ := runArgs_grows ran
    have later : targets after.notes = targets (machine.notes ++
        (stepNotes revFolder pathToFolder arg ++ [.copied (), .failed .fillFolder])) ++
          targets made := by
      unfold targets
      rw [notes, List.filterMap_append]
    have first : targets after.notes = targets machine.notes ++
        (targetBlock revFolder pathToFolder arg).text :: targets made := by
      rw [later, targets_step, List.append_assoc]
      rfl
    have all : passed = (targetBlock revFolder pathToFolder arg).text :: targets made :=
      List.append_cancel_left (noted.symm.trans first)
    rw [all, List.map_cons, List.map_cons, List.cons_prefix_cons] at right
    rw [List.map_cons, forall_split_cons, List.append_nil]
    refine ⟨(marked.right_iff arg).mp right.1, ?_⟩
    intro front arg' back split
    have behind := ih (marked.next right.1) ran later right.2 front arg' back split
    rw [List.append_assoc] at behind
    exact behind

/-- There `run` returns `OK`. -/
theorem runArgs_easy_ok (given : List (CString × Unit)) (revFolder pathToFolder : Block)
    (machine : Machine Unit Unit) :
    ∃ after, runArgs easySystem 1 given (some revFolder) (some pathToFolder) machine =
      some (.returned .ok, after) ∧
        (targets after.notes).length = (targets machine.notes).length + given.length := by
  induction given generalizing revFolder pathToFolder machine with
  | nil => exact ⟨machine, rfl, rfl⟩
  | cons head rest ih =>
    obtain ⟨arg, entry⟩ := head
    obtain ⟨after, ran, count⟩ := ih (nameBlock revFolder arg)
      (targetBlock revFolder pathToFolder arg)
      ⟨(), machine.notes ++ (stepNotes revFolder pathToFolder arg ++
        [.copied (), .failed .fillFolder])⟩
    refine ⟨after, by rw [runArgs_easy]; exact ran, ?_⟩
    rw [count, targets_step, List.length_append, List.length_cons]
    simp only [List.length_cons, List.length_nil]
    omega

/-- In every run with these arguments and this memory the targets passed to `create_reverse_folder`
are, one after the other, those of the arguments. -/
def TargetsAlone (args : List CString) (rev path : List UInt8) : Prop :=
  ∀ (σ η : Type) (sys : System σ η) (depth : Nat) (given : List (CString × η)) (system : σ)
    (exit : Exit) (after : Machine σ η), given.map Prod.fst = args →
    run sys depth given (some rev) (some path) ⟨system, []⟩ = some (exit, after) →
      targets after.notes <+: args.map targetOf

/-- Nothing but the memory is in the buffers at the start. -/
theorem marked_start (rev path : List UInt8) (size : Nat) :
    Marked rev path [] ⟨size, rev⟩ ⟨size, path⟩ := by
  constructor
  · intro offset
    simp [NameEnds]
  · intro offset
    rfl

/-- For every argument vector and whatever is in the two buffers: the targets depend on their own
arguments alone exactly when at each argument terminators stand behind its two parts, which the
memory and the arguments before it decide, and its name turns. -/
theorem targets_alone_iff (args : List CString) (rev path : List UInt8) :
    TargetsAlone args rev path ↔
      ∀ front arg back, args = front ++ arg :: back → Settled rev path front arg := by
  constructor
  · intro alone
    cases args with
    | nil =>
      intro front arg back split
      simp at split
    | cons first others =>
      have given : ((first :: others).map fun arg => (arg, ())).map Prod.fst = first :: others := by
        rw [List.map_map]
        exact List.map_id _
      have marked := marked_start rev path (maximumSizePath (first :: others))
      obtain ⟨after, ran, -⟩ := runArgs_easy_ok ((first :: others).map fun arg => (arg, ()))
        ⟨maximumSizePath (first :: others), rev⟩ ⟨maximumSizePath (first :: others), path⟩
        ⟨(), []⟩
      have whole : run easySystem 1 ((first :: others).map fun arg => (arg, ())) (some rev)
          (some path) ⟨(), []⟩ = some (.returned .ok, after) := by
        unfold run
        rw [given]
        exact ran
      have right := alone Unit Unit easySystem 1 _ () _ after given whole
      have noted : targets after.notes =
          targets (⟨(), []⟩ : Machine Unit Unit).notes ++ targets after.notes := rfl
      have settled := settled_of_easy marked ran noted (by rw [given]; exact right)
      rw [given] at settled
      exact settled
  · rintro settled σ η sys depth given system exit after rfl ran
    unfold run at ran
    split at ran
    · obtain rfl := (Prod.mk.inj (Option.some.inj ran)).2
      exact List.nil_prefix
    · obtain ⟨passed, within, all⟩ := runArgs_alone (marked_start rev path _) settled ran
      rw [all]
      exact within

/-- The arguments `ab` and `c`. -/
def twoArgs : List CString := [CString.ofBytes [97, 98], CString.ofBytes [99]]

/-- Even in memory full of zeros the second target is `./ac`, since the longer name before it has
left a byte behind. -/
theorem targets_polluted : ¬TargetsAlone twoArgs [] [] := by
  have outcome : (run easySystem 1 (twoArgs.map fun arg => (arg, ())) (some []) (some [])
      ⟨(), []⟩).map (fun result => (targets result.2.notes).map CString.bytes) =
        some [[46, 47, 98, 97], [46, 47, 97, 99]] := by
    decide +kernel
  obtain ⟨⟨exit, after⟩, ran, noted⟩ := Option.map_eq_some_iff.mp outcome
  intro alone
  have within := alone Unit Unit easySystem 1 _ () exit after rfl ran
  have bytes := within.map CString.bytes
  rw [noted] at bytes
  revert bytes
  decide +kernel

/-- The three stores that `run` records before each target stay inside their buffers. -/
def RunInside (notes : List (Note η)) : Prop :=
  ∀ front back folderSize folderCount nameSize nameCount size count target,
    notes = front ++ [.wrote folderSize folderCount, .wrote nameSize nameCount, .wrote size count,
      .target target] ++ back →
    folderCount ≤ folderSize ∧ nameCount ≤ nameSize ∧ count ≤ size

/-- A target is at least as long as its argument. -/
theorem strlen_le_targetOf (arg : CString) : arg.strlen ≤ (targetOf arg).strlen := by
  have target := strlen_targetOf arg
  have parts := strlen_parts arg
  unfold startOf at target
  split at target
  · have folder : (folderOf arg).bytes.length = (folderOf arg).strlen := rfl
    omega
  · rename_i plain
    rw [nameOf_of_plain plain] at target
    omega

/-- Once the target of an argument as long as the buffer is passed on, a store has left it. -/
theorem runArgs_overruns {front back : List (CString × η)}
    (ran : runArgs sys depth (front ++ (arg, entry) :: back) (some revFolder) (some pathToFolder)
      machine = some (exit, after))
    (full : pathToFolder.size ≤ arg.strlen)
    (reached : (targets machine.notes).length + front.length < (targets after.notes).length) :
    ¬RunInside after.notes := by
  induction front generalizing revFolder pathToFolder machine with
  | nil =>
    rcases runArgs_inv ran with ⟨-, rfl⟩ | ⟨status, middle, called, onward⟩
    · exact absurd reached (Nat.lt_irrefl _)
    · obtain ⟨later, notes⟩ := runArgs_noted called onward
      intro inside
      have whole : after.notes =
          machine.notes ++ stepNotes revFolder pathToFolder arg ++ later := by
        rw [notes, List.append_assoc]
      have fits := (inside _ _ _ _ _ _ _ _ _ whole).2.2
      have length := strlen_targetBlock revFolder pathToFolder arg
      have longer := strlen_le_targetOf arg
      omega
  | cons head front ih =>
    rcases runArgs_inv ran with ⟨-, rfl⟩ | ⟨status, middle, called, onward⟩
    · omega
    · have noted := congrArg List.length (targets_noted called)
      rw [List.length_append, List.length_singleton] at noted
      have size : (targetBlock revFolder pathToFolder head.1).size = pathToFolder.size :=
        size_folderBlock pathToFolder head.1
      rw [List.length_cons] at reached
      rcases onward with rfl | ran
      · omega
      · exact ih ran (by omega) (by omega)

/-- No argument is longer than the buffers. -/
theorem maximumSizePath_le {args : List CString} {bound : Nat}
    (bounded : ∀ arg ∈ args, arg.strlen ≤ bound) : maximumSizePath args ≤ bound := by
  have follow : ∀ (list : List CString) (start : Nat), (∀ arg ∈ list, arg.strlen ≤ bound) →
      start ≤ bound → list.foldl (fun maxSize arg =>
        if maxSize < arg.strlen then arg.strlen else maxSize) start ≤ bound := by
    intro list
    induction list with
    | nil =>
      intro start _ below
      exact below
    | cons head rest ih =>
      intro start all below
      rw [List.forall_mem_cons] at all
      rw [List.foldl_cons]
      apply ih _ all.2
      split
      · exact all.1
      · exact below
  exact follow args 0 bounded (Nat.zero_le bound)

/-- Among some arguments there is a longest one. -/
theorem longest_argument {args : List CString} (nonempty : args ≠ []) :
    ∃ arg ∈ args, ∀ other ∈ args, other.strlen ≤ arg.strlen := by
  have some : args.toFinset.Nonempty := by
    rw [List.toFinset_nonempty_iff]
    exact nonempty
  obtain ⟨arg, member, longest⟩ := args.toFinset.exists_max_image CString.strlen some
  refine ⟨arg, List.mem_toFinset.mp member, fun other inside => ?_⟩
  exact longest other (List.mem_toFinset.mpr inside)

/-- In every run with these arguments and this memory all stores to the two buffers are inside. -/
def StaysInside (args : List CString) (rev path : List UInt8) : Prop :=
  ∀ (σ η : Type) (sys : System σ η) (depth : Nat) (given : List (CString × η)) (system : σ)
    (exit : Exit) (after : Machine σ η), given.map Prod.fst = args →
    run sys depth given (some rev) (some path) ⟨system, []⟩ = some (exit, after) →
      RunInside after.notes

/-- For every argument vector with an argument and whatever is in the two buffers: every run that
passes on the target of a longest argument stores bytes outside of them, and there is such a run. -/
theorem run_never_inside {args : List CString} (nonempty : args ≠ []) (rev path : List UInt8) :
    ¬StaysInside args rev path ∧
    ∀ {σ η : Type} (sys : System σ η) (depth : Nat) (front back : List (CString × η))
      (arg : CString) (entry : η) (system : σ) (exit : Exit) (after : Machine σ η),
      (front ++ (arg, entry) :: back).map Prod.fst = args →
      (∀ other ∈ args, other.strlen ≤ arg.strlen) →
      run sys depth (front ++ (arg, entry) :: back) (some rev) (some path) ⟨system, []⟩ =
        some (exit, after) →
      front.length < (targets after.notes).length → ¬RunInside after.notes := by
  have overruns : ∀ {σ η : Type} (sys : System σ η) (depth : Nat) (front back : List (CString × η))
      (arg : CString) (entry : η) (system : σ) (exit : Exit) (after : Machine σ η),
      (front ++ (arg, entry) :: back).map Prod.fst = args →
      (∀ other ∈ args, other.strlen ≤ arg.strlen) →
      run sys depth (front ++ (arg, entry) :: back) (some rev) (some path) ⟨system, []⟩ =
        some (exit, after) →
      front.length < (targets after.notes).length → ¬RunInside after.notes := by
    intro σ η sys depth front back arg entry system exit after given longest ran reached
    unfold run at ran
    split at ran
    · rename_i empty
      simp at empty
    · rw [given] at ran
      refine runArgs_overruns ran ?_ ?_
      · exact maximumSizePath_le longest
      · exact (Nat.zero_add _).symm ▸ reached
  refine ⟨?_, overruns⟩
  intro stays
  obtain ⟨arg, member, longest⟩ := longest_argument nonempty
  obtain ⟨front, back, split⟩ := List.append_of_mem member
  let pair : CString → CString × Unit := fun arg => (arg, ())
  have given : (front.map pair ++ (arg, ()) :: back.map pair).map Prod.fst = args := by
    have whole : front.map pair ++ (arg, ()) :: back.map pair = args.map pair := by
      rw [split, List.map_append, List.map_cons]
    rw [whole, List.map_map]
    exact List.map_id _
  obtain ⟨after, ran, count⟩ := runArgs_easy_ok (front.map pair ++ (arg, ()) :: back.map pair)
    ⟨maximumSizePath args, rev⟩ ⟨maximumSizePath args, path⟩ ⟨(), []⟩
  have whole : run easySystem 1 (front.map pair ++ (arg, ()) :: back.map pair) (some rev)
      (some path) ⟨(), []⟩ = some (.returned .ok, after) := by
    unfold run
    rw [given, if_neg (by simp)]
    exact ran
  refine overruns easySystem 1 _ _ arg () () _ after given longest whole ?_
    (stays Unit Unit easySystem 1 _ () _ after given whole)
  rw [count, List.length_append, List.length_map, List.length_cons]
  omega

/-- The two arguments overrun their buffers of two bytes. -/
theorem run_never_inside_two : twoArgs ≠ [] ∧ ¬StaysInside twoArgs [] [] :=
  ⟨by decide, (run_never_inside (by decide) [] []).1⟩

/-- The argument `a`. -/
def oneArg : CString := CString.ofBytes [97]

/-- For the argument `a` the path `./a` and its terminator are stored in a buffer of one byte. -/
theorem one_byte_overrun : ¬StaysInside [oneArg] [] [] := by
  obtain ⟨after, ran, count⟩ := runArgs_easy_ok [(oneArg, ())] ⟨1, []⟩ ⟨1, []⟩ ⟨(), []⟩
  intro stays
  have inside := stays Unit Unit easySystem 1 [(oneArg, ())] () _ after rfl ran
  have reached : (targets (⟨(), []⟩ : Machine Unit Unit).notes).length +
      ([] : List (CString × Unit)).length < (targets after.notes).length := by
    rw [count]
    decide
  have whole : runArgs easySystem 1 ([] ++ (oneArg, ()) :: []) (some ⟨1, []⟩) (some ⟨1, []⟩)
      ⟨(), []⟩ = some (.returned .ok, after) := ran
  exact runArgs_overruns whole (by decide) reached inside

end Runs

end NsuOs.Mirror
