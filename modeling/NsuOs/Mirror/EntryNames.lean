import NsuOs.Mirror.Targets

/-!
# The names under which `fill_folder` copies

`fill_folder` without the contents of its buffers is a loop that copies every entry under the
reverse of its name; only the sizes of the buffers are left of them. The loop of the program agrees
with it as long as a terminator stands behind the name of each entry. The memory from `malloc` has
to provide it for the first entry. Later ones find it where the clearing after an earlier entry of
the folder has reached, which is as far as the path of that entry was long.
-/
namespace NsuOs.Mirror

open NsuOs.Block

variable {σ η : Type}

/-- The sizes of the three buffers of `fill_folder`. -/
structure Sizes where
  /-- The buffer of the reversed name. -/
  nameRev : Nat
  /-- The buffer of the target path. -/
  pathNewRev : Nat
  /-- The buffer of the source path. -/
  pathNewOrigin : Nat

/-- The sizes of buffers. -/
def Buffers.sizes (buffers : Buffers) : Sizes :=
  ⟨buffers.nameRev.size, buffers.pathNewRev.size, buffers.pathNewOrigin.size⟩

/-- The sizes `is_correct_len_folder` leaves when it returns true. -/
def Sizes.changed (sys : System σ η) (sizes : Sizes) (dirent : Dirent η) : Option Sizes :=
  if dirent.name.strlen > maxLenNameFile then
    let size := dirent.name.strlen - maxLenNameFile + 1
    if sys.realloc dirent.entry 0 && sys.realloc dirent.entry 1 && sys.realloc dirent.entry 2 then
      some ⟨size, size, size⟩
    else none
  else some sizes

/-- The stores for an entry whose name is reversed. -/
def Sizes.buildNotes (sizes : Sizes) (origin reverse name : CString) : List (Note η) :=
  [.wrote sizes.nameRev name.strlen,
    .wrote sizes.pathNewRev (reverse.strlen + 1 + name.strlen + 1),
    .wrote sizes.pathNewOrigin (origin.strlen + 1 + name.strlen + 1),
    .built (joined reverse (reversed name))]

/-- The clearing after an entry. -/
def Sizes.clearNotes (sizes : Sizes) (origin name : CString) : List (Note η) :=
  [.wrote sizes.nameRev (joined origin name).strlen,
    .wrote sizes.pathNewRev (joined origin name).strlen,
    .wrote sizes.pathNewOrigin (joined origin name).strlen]

/-- The copy of one entry from one path to another. -/
def copyTo (sys : System σ η) (folder : FolderCall σ η) (dirent : Dirent η) (ret : Status)
    (origin reverse : CString) (machine : Machine σ η) : Option (Status × Machine σ η) :=
  if dirent.type = .dir ∧ ¬isCurrOrPrevDir dirent.name then
    folder dirent.entry origin reverse machine
  else if dirent.type = .reg then
    some (createReverseFile sys dirent.entry origin reverse machine)
  else some (ret, machine)

/-- The loop of `fill_folder` with every entry copied under the reverse of its name. -/
def fillNamed (sys : System σ η) (folder : FolderCall σ η) (origin reverse : CString) :
    List (Dirent η) → Status → Sizes → Machine σ η → Option (Status × Machine σ η)
  | [], _, _, machine => some (.ok, machine)
  | dirent :: rest, ret, sizes, machine =>
    (sizes.changed sys dirent).elim (some (machine.fail .fillFolder)) fun sizes =>
      let machine := machine.note (sizes.buildNotes origin reverse dirent.name)
      if sys.formats dirent.entry then
        (copyTo sys folder dirent ret (joined origin dirent.name)
          (joined reverse (reversed dirent.name)) machine).bind fun result =>
          if result.1 = .error ∨ ¬(dirent.type = .dir ∨ dirent.type = .reg) then
            some (result.2.fail .fillFolder)
          else
            fillNamed sys folder origin reverse rest result.1 sizes
              (result.2.note (sizes.clearNotes origin dirent.name))
      else some (machine.fail .fillFolder)

/-- `fill_folder` with every entry copied under the reverse of its name, whatever is in memory. -/
def fillFolderNamed (sys : System σ η) (folder : FolderCall σ η) : FolderCall σ η :=
  fun entry origin reverse machine =>
    (sys.opendir entry origin machine.system).elim (some (machine.fail .fillFolder)) fun dirents =>
      if (sys.malloc entry 0 maxLenNameFile).isSome = true ∧
          (sys.malloc entry 1 (maxLenNameFile + reverse.strlen)).isSome = true ∧
          (sys.malloc entry 2 (maxLenNameFile + origin.strlen)).isSome = true then
        fillNamed sys folder origin reverse dirents .ok
          ⟨maxLenNameFile, maxLenNameFile + reverse.strlen, maxLenNameFile + origin.strlen⟩ machine
      else some (machine.fail .fillFolder)

section Buffers

variable {sys : System σ η} {buffers changed : Buffers} {dirent : Dirent η}
  {origin reverse name : CString}

/-- The copy of an entry reads its two paths from the buffers. -/
theorem copyEntry_eq (sys : System σ η) (folder : FolderCall σ η) (dirent : Dirent η) (ret : Status)
    (buffers : Buffers) (machine : Machine σ η) :
    copyEntry sys folder dirent ret buffers machine =
      copyTo sys folder dirent ret buffers.pathNewOrigin.text buffers.pathNewRev.text machine := rfl

/-- `is_correct_len_folder` changes sizes only. -/
theorem isCorrectLenFolder_eq (sys : System σ η) (buffers : Buffers) (dirent : Dirent η) :
    (isCorrectLenFolder sys buffers dirent).map Buffers.sizes =
        buffers.sizes.changed sys dirent ∧
      ∀ changed, isCorrectLenFolder sys buffers dirent = some changed →
        changed.nameRev.memory = buffers.nameRev.memory := by
  unfold isCorrectLenFolder Sizes.changed
  split
  · split
    · refine ⟨rfl, fun changed same => ?_⟩
      obtain rfl := Option.some.inj same
      rfl
    · refine ⟨rfl, fun changed same => ?_⟩
      cases same
  · refine ⟨rfl, fun changed same => ?_⟩
    obtain rfl := Option.some.inj same
    rfl

/-- The name of an entry is in its buffer as it should be. -/
def Buffers.Names (buffers : Buffers) (name : CString) : Prop :=
  (reverseText (buffers.nameRev.strncpy name name.strlen)).text = reversed name

/-- Then the path of its copy is. -/
theorem Buffers.Names.path (names : buffers.Names name) (origin reverse : CString) :
    (buffers.build origin reverse name).pathNewRev.text = joined reverse (reversed name) := by
  apply CString.ext
  unfold Buffers.build
  rw [names]
  exact text_sprintf _ (joined reverse (reversed name)).nulFree

/-- And so are the stores. -/
theorem Buffers.Names.notes (names : buffers.Names name) (origin reverse : CString) :
    buffers.buildNotes (η := η) origin reverse name =
      buffers.sizes.buildNotes origin reverse name := by
  have length : (reversed name).strlen = name.strlen := by
    simp [reversed, CString.strlen]
  have path := names.path origin reverse
  unfold Buffers.buildNotes Sizes.buildNotes
  rw [path]
  simp only
  rw [names, length]
  rfl

/-- If the path of the copy is right, so is the name. -/
theorem names_of_path
    (path : (buffers.build origin reverse name).pathNewRev.text = joined reverse (reversed name)) :
    buffers.Names name := by
  have bytes := congrArg CString.bytes path
  have nulFree : 0 ∉ reverse.bytes ++ slash ::
      (reverseText (buffers.nameRev.strncpy name name.strlen)).text.bytes :=
    (joined reverse (reverseText (buffers.nameRev.strncpy name name.strlen)).text).nulFree
  unfold Buffers.build at bytes
  simp only at bytes
  rw [text_sprintf _ nulFree] at bytes
  apply CString.ext
  exact (List.cons.inj (List.append_cancel_left bytes)).2

/-- The clearing after an entry. -/
theorem clearNotes_eq (buffers : Buffers) (origin reverse name : CString) :
    (buffers.build origin reverse name).clearNotes (η := η) =
      buffers.sizes.clearNotes origin name := by
  unfold Buffers.clearNotes Sizes.clearNotes
  rw [Buffers.text_pathNewOrigin]
  rfl

/-- Where terminators stand in the name buffer when these entries were copied: where they stood, and
as far as the path of one of them reaches. -/
def Cleared (memory : List UInt8) (origin : CString) (earlier : List (Dirent η)) (offset : Nat) :
    Prop :=
  ZeroAt memory offset ∨ ∃ dirent ∈ earlier, offset ≤ origin.strlen + dirent.name.strlen

/-- Before any entry they stand where they stood. -/
theorem cleared_nil {memory : List UInt8} {offset : Nat} :
    ZeroAt memory offset ↔ Cleared memory origin ([] : List (Dirent η)) offset := by
  simp [Cleared]

/-- An entry leaves the terminators behind its path and puts them before. -/
theorem zeroAt_next (buffers : Buffers) (origin reverse name : CString) (offset : Nat) :
    ZeroAt (buffers.build origin reverse name).clear.nameRev.memory offset ↔
      ZeroAt buffers.nameRev.memory offset ∨ offset ≤ origin.strlen + name.strlen := by
  unfold Buffers.clear
  simp only
  rw [zeroAt_clear, Buffers.text_pathNewOrigin, strlen_joined]
  unfold Buffers.build
  simp only
  rw [zeroAt_turned]
  constructor
  · rintro (early | ⟨-, zero⟩)
    · exact .inr (by omega)
    · exact .inl zero
  · rintro (zero | early)
    · by_cases inside : offset < origin.strlen + 1 + name.strlen
      · exact .inl inside
      · exact .inr ⟨by omega, zero⟩
    · exact .inl (by omega)

/-- The terminators after one more entry. -/
theorem cleared_snoc {memory : List UInt8} {earlier : List (Dirent η)}
    (marked : ∀ offset, ZeroAt buffers.nameRev.memory offset ↔
      Cleared memory origin earlier offset) (dirent : Dirent η) (offset : Nat) :
    ZeroAt (buffers.build origin reverse dirent.name).clear.nameRev.memory offset ↔
      Cleared memory origin (earlier ++ [dirent]) offset := by
  rw [zeroAt_next, marked]
  unfold Cleared
  constructor
  · rintro ((zero | ⟨other, member, early⟩) | early)
    · exact .inl zero
    · exact .inr ⟨other, List.mem_append_left _ member, early⟩
    · exact .inr ⟨dirent, by simp, early⟩
  · rintro (zero | ⟨other, member, early⟩)
    · exact .inl (.inl zero)
    · rcases List.mem_append.mp member with before | last
      · exact .inl (.inr ⟨other, before, early⟩)
      · rw [List.mem_singleton.mp last] at early
        exact .inr early

end Buffers

section Loop

variable {sys : System σ η} {folder : FolderCall σ η} {origin reverse : CString}
  {memory : List UInt8} {earlier : List (Dirent η)} {buffers : Buffers}

/-- A terminator stands behind the name of an entry when the earlier ones were copied, and the name
turns. -/
def Ended (memory : List UInt8) (origin : CString) (earlier : List (Dirent η)) (dirent : Dirent η) :
    Prop :=
  Cleared memory origin earlier dirent.name.strlen ∧ Turns dirent.name.bytes

/-- Every entry that is reached is ended: those before it are directories or regular files. -/
def AllEnded (memory : List UInt8) (origin : CString) (earlier entries : List (Dirent η)) : Prop :=
  ∀ front dirent back, entries = front ++ dirent :: back →
    (∀ before ∈ front, before.type ≠ .other) → Ended memory origin (earlier ++ front) dirent

/-- The first entry is reached, and the others if it is not of another type. -/
theorem allEnded_cons (dirent : Dirent η) (rest : List (Dirent η)) :
    AllEnded memory origin earlier (dirent :: rest) ↔
      Ended memory origin earlier dirent ∧
        (dirent.type ≠ .other → AllEnded memory origin (earlier ++ [dirent]) rest) := by
  unfold AllEnded
  rw [forall_split_cons, List.append_nil]
  constructor
  · rintro ⟨here, later⟩
    refine ⟨here (by simp), ?_⟩
    intro known front next back split reached
    rw [List.append_assoc]
    apply later front next back split
    rw [List.forall_mem_cons]
    exact ⟨known, reached⟩
  · rintro ⟨here, later⟩
    refine ⟨fun _ => here, ?_⟩
    intro front next back split reached
    rw [List.forall_mem_cons] at reached
    have there := later reached.1 front next back split reached.2
    rw [List.append_assoc] at there
    exact there

/-- The name of an entry comes out right exactly when the entry is ended. -/
theorem names_iff (marked : ∀ offset, ZeroAt buffers.nameRev.memory offset ↔
      Cleared memory origin earlier offset) (dirent : Dirent η) :
    buffers.Names dirent.name ↔ Ended memory origin earlier dirent := by
  unfold Buffers.Names Ended
  rw [text_turned_iff, marked]

/-- When all entries are ended the loop copies every entry under the reverse of its name. -/
theorem fillEntries_named_eq {entries : List (Dirent η)}
    (marked : ∀ offset, ZeroAt buffers.nameRev.memory offset ↔
      Cleared memory origin earlier offset)
    (ended : AllEnded memory origin earlier entries) (ret : Status) (machine : Machine σ η) :
    fillEntries sys folder origin reverse entries ret buffers machine =
      fillNamed sys folder origin reverse entries ret buffers.sizes machine := by
  induction entries generalizing earlier buffers ret machine with
  | nil => rfl
  | cons dirent rest ih =>
    obtain ⟨here, later⟩ := (allEnded_cons dirent rest).mp ended
    obtain ⟨sizes, kept⟩ := isCorrectLenFolder_eq sys buffers dirent
    unfold fillEntries fillNamed
    rw [← sizes]
    cases changed : isCorrectLenFolder sys buffers dirent with
    | none => rfl
    | some changed' =>
      have marked' : ∀ offset, ZeroAt changed'.nameRev.memory offset ↔
          Cleared memory origin earlier offset := by
        intro offset
        rw [kept changed' changed]
        exact marked offset
      have names := (names_iff marked' dirent).mpr here
      simp only [Option.map_some, Option.elim_some, copyEntry_eq, Buffers.text_pathNewOrigin,
        names.path, names.notes, clearNotes_eq]
      split
      · congr 1
        funext result
        split
        · rfl
        · rename_i goes
          have known : dirent.type ≠ .other := by
            intro other
            apply goes
            rw [other]
            simp
          rw [ih (cleared_snoc marked' dirent) (later known)]
          rfl
      · rfl

end Loop

section Plain

variable {origin reverse : CString} {memory : List UInt8} {earlier listed : List (Dirent η)}
  {buffers : Buffers}

/-- A system in which nothing fails, with this listing and this memory. -/
def plainSystem (listed : List (Dirent η)) (memory : List UInt8) : System Unit η where
  mkdir _ _ _ := some ()
  opendir _ _ _ := some listed
  malloc _ _ _ := some memory
  realloc _ _ := true
  formats _ := true
  openInput _ _ _ := true
  openOutput _ _ _ := some ()
  content _ _ _ := []
  stdio _ := smooth
  close _ _ _ := ()

/-- A call of a folder that does nothing. -/
def skipFolder : FolderCall Unit η := fun _ _ _ machine => some (.ok, machine)

/-- What is recorded for the copy of an entry. -/
def copiedNotes (dirent : Dirent η) : List (Note η) :=
  if dirent.type = .reg then [.copied dirent.entry] else []

/-- There every entry is copied. -/
theorem copyTo_plain (dirent : Dirent η) (source target : CString)
    (machine : Machine Unit η) :
    copyTo (plainSystem listed memory) skipFolder dirent .ok source target machine =
      some (.ok, machine.note (copiedNotes dirent)) := by
  have nothing : machine.note [] = machine := by
    unfold Machine.note
    rw [List.append_nil]
  have reverses : (reverseContent smooth []).1 = .ok :=
    (reverseContent_reverse ⟨rfl, rfl, fun _ => rfl, fun _ => rfl, fun _ => Nat.le_refl _⟩ []).1
  unfold copyTo copiedNotes
  cases type : dirent.type with
  | dir =>
    simp only [reduceCtorEq, if_false, nothing]
    split
    · rfl
    · rfl
  | reg => simp [createReverseFile, plainSystem, reverses, Machine.note]
  | other => simp [nothing]

/-- There the loop stops at an entry of another type and goes on at the others. -/
theorem fillEntries_plain (listed : List (Dirent η)) (memory : List UInt8)
    (origin reverse : CString) (dirent : Dirent η) (rest : List (Dirent η)) (buffers : Buffers)
    (machine : Machine Unit η) :
    ∃ changed, isCorrectLenFolder (plainSystem listed memory) buffers dirent = some changed ∧
      fillEntries (plainSystem listed memory) skipFolder origin reverse (dirent :: rest) .ok buffers
          machine =
        if dirent.type = .other then
          some (.error, machine.note (changed.buildNotes origin reverse dirent.name ++
            (copiedNotes dirent ++ [.failed .fillFolder])))
        else
          fillEntries (plainSystem listed memory) skipFolder origin reverse rest .ok
            (changed.build origin reverse dirent.name).clear
            (machine.note (changed.buildNotes origin reverse dirent.name ++ (copiedNotes dirent ++
              (changed.build origin reverse dirent.name).clearNotes))) := by
  have found : ∃ changed,
      isCorrectLenFolder (plainSystem listed memory) buffers dirent = some changed := by
    unfold isCorrectLenFolder
    split
    · exact ⟨_, rfl⟩
    · exact ⟨_, rfl⟩
  obtain ⟨changed, same⟩ := found
  refine ⟨changed, same, ?_⟩
  have formats : (plainSystem listed memory).formats dirent.entry = true := rfl
  conv_lhs => unfold fillEntries
  rw [same]
  simp only [copyEntry_eq, copyTo_plain, formats, if_true, Option.bind_some]
  cases dirent.type with
  | dir | reg => simp [Machine.note, List.append_assoc]
  | other => simp [Machine.note, Machine.fail, List.append_assoc]

/-- So does the loop with the right names. -/
theorem fillNamed_plain (listed : List (Dirent η)) (memory : List UInt8)
    (origin reverse : CString) (dirent : Dirent η) (rest : List (Dirent η)) (sizes : Sizes)
    (machine : Machine Unit η) :
    ∃ changed, sizes.changed (plainSystem listed memory) dirent = some changed ∧
      fillNamed (plainSystem listed memory) skipFolder origin reverse (dirent :: rest) .ok sizes
          machine =
        if dirent.type = .other then
          some (.error, machine.note (changed.buildNotes origin reverse dirent.name ++
            (copiedNotes dirent ++ [.failed .fillFolder])))
        else
          fillNamed (plainSystem listed memory) skipFolder origin reverse rest .ok changed
            (machine.note (changed.buildNotes origin reverse dirent.name ++ (copiedNotes dirent ++
              changed.clearNotes origin dirent.name))) := by
  have found : ∃ changed, sizes.changed (plainSystem listed memory) dirent = some changed := by
    unfold Sizes.changed
    split
    · exact ⟨_, rfl⟩
    · exact ⟨_, rfl⟩
  obtain ⟨changed, same⟩ := found
  refine ⟨changed, same, ?_⟩
  have formats : (plainSystem listed memory).formats dirent.entry = true := rfl
  conv_lhs => unfold fillNamed
  rw [same]
  simp only [copyTo_plain, formats, if_true, Option.bind_some, Option.elim_some]
  cases dirent.type with
  | dir | reg => simp [Machine.note, List.append_assoc]
  | other => simp [Machine.note, Machine.fail, List.append_assoc]

/-- Notes after notes. -/
theorem note_note (machine : Machine σ η) (first second : List (Note η)) :
    (machine.note first).note second = machine.note (first ++ second) := by
  unfold Machine.note
  simp only [List.append_assoc]

/-- There the loop ends and only adds to what was recorded. -/
theorem fillEntries_plain_grows (entries : List (Dirent η)) (buffers : Buffers)
    (machine : Machine Unit η) :
    ∃ status made, fillEntries (plainSystem listed memory) skipFolder origin reverse entries .ok
      buffers machine = some (status, machine.note made) := by
  induction entries generalizing buffers machine with
  | nil =>
    refine ⟨.ok, [], ?_⟩
    unfold fillEntries Machine.note
    rw [List.append_nil]
  | cons dirent rest ih =>
    obtain ⟨changed, -, filled⟩ := fillEntries_plain listed memory origin reverse dirent rest
      buffers machine
    rw [filled]
    split
    · exact ⟨_, _, rfl⟩
    · obtain ⟨status, made, done⟩ := ih (changed.build origin reverse dirent.name).clear
        (machine.note (changed.buildNotes origin reverse dirent.name ++ (copiedNotes dirent ++
          (changed.build origin reverse dirent.name).clearNotes)))
      rw [done, note_note]
      exact ⟨_, _, rfl⟩

/-- So does the loop with the right names. -/
theorem fillNamed_plain_grows (entries : List (Dirent η)) (sizes : Sizes)
    (machine : Machine Unit η) :
    ∃ status made, fillNamed (plainSystem listed memory) skipFolder origin reverse entries .ok
      sizes machine = some (status, machine.note made) := by
  induction entries generalizing sizes machine with
  | nil =>
    refine ⟨.ok, [], ?_⟩
    unfold fillNamed Machine.note
    rw [List.append_nil]
  | cons dirent rest ih =>
    obtain ⟨changed, -, filled⟩ := fillNamed_plain listed memory origin reverse dirent rest sizes
      machine
    rw [filled]
    split
    · exact ⟨_, _, rfl⟩
    · obtain ⟨status, made, done⟩ := ih changed
        (machine.note (changed.buildNotes origin reverse dirent.name ++ (copiedNotes dirent ++
          changed.clearNotes origin dirent.name)))
      rw [done, note_note]
      exact ⟨_, _, rfl⟩

/-- Where both loops record the same, the path of the entry is right. -/
theorem built_of_note {changed : Buffers} {name : CString} (machine : Machine σ η)
    (same : ∃ more more', machine.note (changed.buildNotes origin reverse name ++ more) =
      machine.note (changed.sizes.buildNotes origin reverse name ++ more')) :
    (changed.build origin reverse name).pathNewRev.text = joined reverse (reversed name) := by
  obtain ⟨more, more', same⟩ := same
  have notes : machine.notes ++ (changed.buildNotes origin reverse name ++ more) =
      machine.notes ++ (changed.sizes.buildNotes origin reverse name ++ more') :=
    congrArg Machine.notes same
  have entry := (List.append_inj (List.append_cancel_left notes) rfl).1
  have last := (List.cons.inj (List.cons.inj (List.cons.inj (List.cons.inj entry).2).2).2).1
  exact Note.built.inj last

/-- If both loops do the same there, every entry that is reached is ended. -/
theorem allEnded_of_plain {entries : List (Dirent η)}
    (marked : ∀ offset, ZeroAt buffers.nameRev.memory offset ↔
      Cleared memory origin earlier offset) (machine : Machine Unit η)
    (same : fillEntries (plainSystem listed memory) skipFolder origin reverse entries .ok buffers
        machine =
      fillNamed (plainSystem listed memory) skipFolder origin reverse entries .ok buffers.sizes
        machine) : AllEnded memory origin earlier entries := by
  induction entries generalizing earlier buffers machine with
  | nil =>
    intro front dirent back split
    simp at split
  | cons dirent rest ih =>
    obtain ⟨changed, fits, filled⟩ := fillEntries_plain listed memory origin reverse dirent rest
      buffers machine
    obtain ⟨sizes, resized, named⟩ := fillNamed_plain listed memory origin reverse dirent rest
      buffers.sizes machine
    obtain ⟨agree, kept⟩ := isCorrectLenFolder_eq (plainSystem listed memory) buffers dirent
    have sizes_eq : sizes = changed.sizes := by
      rw [fits, resized] at agree
      exact (Option.some.inj agree).symm
    have marked' : ∀ offset, ZeroAt changed.nameRev.memory offset ↔
        Cleared memory origin earlier offset := by
      intro offset
      rw [kept changed fits]
      exact marked offset
    rw [filled, named, sizes_eq] at same
    have names : changed.Names dirent.name := by
      -- the first notes of both loops are those of this entry
      apply names_of_path
      apply built_of_note machine
      split at same
      · exact ⟨_, _, (Prod.mk.inj (Option.some.inj same)).2⟩
      · obtain ⟨status, made, done⟩ := fillEntries_plain_grows rest
          (changed.build origin reverse dirent.name).clear
          (machine.note (changed.buildNotes origin reverse dirent.name ++ (copiedNotes dirent ++
            (changed.build origin reverse dirent.name).clearNotes)))
        obtain ⟨status', made', done'⟩ := fillNamed_plain_grows rest changed.sizes
          (machine.note (changed.sizes.buildNotes origin reverse dirent.name ++
            (copiedNotes dirent ++ changed.sizes.clearNotes origin dirent.name)))
        rw [done, done', note_note, note_note, List.append_assoc, List.append_assoc] at same
        exact ⟨_, _, (Prod.mk.inj (Option.some.inj same)).2⟩
    rw [allEnded_cons]
    refine ⟨(names_iff marked' dirent).mp names, fun known => ?_⟩
    rw [if_neg known, if_neg known, names.notes, clearNotes_eq] at same
    exact ih (cleared_snoc marked' dirent) _ same

end Plain

section Law

variable {memory memory' : List UInt8} {origin : CString} {entries : List (Dirent η)}

/-- With this memory in its name buffer `fill_folder` copies these entries, at this origin, under
their reversed names, whatever the rest of the system does. -/
def NamesExact (memory : List UInt8) (origin : CString) (entries : List (Dirent η)) : Prop :=
  ∀ (σ : Type) (sys : System σ η) (folder : FolderCall σ η) (entry : η) (reverse : CString)
    (machine : Machine σ η), sys.opendir entry origin machine.system = some entries →
    sys.malloc entry 0 maxLenNameFile = some memory →
    fillFolder sys folder entry origin reverse machine =
      fillFolderNamed sys folder entry origin reverse machine

/-- Two calls of `fill_folder` that differ in the memory of the name buffer only do the same. -/
def RunsAgree (memory memory' : List UInt8) (origin : CString) (entries : List (Dirent η)) : Prop :=
  ∀ (σ : Type) (sys : System σ η) (malloc : η → Nat → Nat → Option (List UInt8))
    (folder : FolderCall σ η) (entry : η) (reverse : CString) (machine : Machine σ η),
    sys.opendir entry origin machine.system = some entries →
    sys.malloc entry 0 maxLenNameFile = some memory →
    malloc entry 0 maxLenNameFile = some memory' →
    (∀ call size, call ≠ 0 → malloc entry call size = sys.malloc entry call size) →
    fillFolder sys folder entry origin reverse machine =
      fillFolder { sys with malloc := malloc } folder entry origin reverse machine

/-- The loop with the right names does not look at memory. -/
theorem fillNamed_malloc (sys : System σ η) (malloc : η → Nat → Nat → Option (List UInt8))
    (folder : FolderCall σ η) (origin reverse : CString) (entries : List (Dirent η)) (ret : Status)
    (sizes : Sizes) (machine : Machine σ η) :
    fillNamed { sys with malloc := malloc } folder origin reverse entries ret sizes machine =
      fillNamed sys folder origin reverse entries ret sizes machine := by
  induction entries generalizing ret sizes machine with
  | nil => rfl
  | cons dirent rest ih =>
    unfold fillNamed
    simp only [ih]
    rfl

/-- When all entries are ended `fill_folder` copies them under their reversed names. -/
theorem AllEnded.names (ended : AllEnded memory origin [] entries) :
    NamesExact memory origin entries := by
  intro σ sys folder entry reverse machine listing nameRev
  unfold fillFolder fillFolderNamed
  rw [listing, nameRev]
  cases pathNewRev : sys.malloc entry 1 (maxLenNameFile + reverse.strlen) with
  | none => simp
  | some pathNewRev =>
    cases pathNewOrigin : sys.malloc entry 2 (maxLenNameFile + origin.strlen) with
    | none => simp
    | some pathNewOrigin =>
      simp only [Option.isSome_some, and_self, if_true, Option.elim_some]
      exact fillEntries_named_eq (fun offset => cleared_nil) ended .ok machine

/-- If the names are right with two memories, calls with one and the other do the same. -/
theorem NamesExact.agree (exact : NamesExact memory origin entries)
    (exact' : NamesExact memory' origin entries) : RunsAgree memory memory' origin entries := by
  intro σ sys malloc folder entry reverse machine listing nameRev nameRev' others
  rw [exact σ sys folder entry reverse machine listing nameRev,
    exact' σ { sys with malloc := malloc } folder entry reverse machine listing nameRev']
  unfold fillFolderNamed
  simp only [fillNamed_malloc, others 1 _ (by decide), others 2 _ (by decide), nameRev, nameRev']
  rfl

/-- If the names are right, the entries are ended. -/
theorem NamesExact.ended (exact : NamesExact memory origin entries) :
    AllEnded memory origin [] entries := by
  cases entries with
  | nil =>
    intro front dirent back split
    simp at split
  | cons dirent rest =>
    have same := exact Unit (plainSystem (dirent :: rest) memory) skipFolder dirent.entry origin
      ⟨(), []⟩ rfl rfl
    have loops : fillEntries (plainSystem (dirent :: rest) memory) skipFolder origin origin
        (dirent :: rest) .ok ⟨⟨maxLenNameFile, memory⟩, ⟨maxLenNameFile + origin.strlen, memory⟩,
          ⟨maxLenNameFile + origin.strlen, memory⟩⟩ ⟨(), []⟩ =
        fillNamed (plainSystem (dirent :: rest) memory) skipFolder origin origin (dirent :: rest)
          .ok ⟨maxLenNameFile, maxLenNameFile + origin.strlen, maxLenNameFile + origin.strlen⟩
          ⟨(), []⟩ := same
    exact allEnded_of_plain (fun offset => cleared_nil) ⟨(), []⟩ loops

/-- Every entry is copied under its reversed name, whatever else the system does, exactly when a
terminator stands behind the name of every entry that can be reached. Then the call does the same
with any other memory with which the names are right. -/
theorem names_exact_iff (memory : List UInt8) (origin : CString) (entries : List (Dirent η)) :
    (NamesExact memory origin entries ∧
        ∀ memory', NamesExact memory' origin entries → RunsAgree memory memory' origin entries) ↔
      AllEnded memory origin [] entries := by
  constructor
  · rintro ⟨exact, -⟩
    exact exact.ended
  · intro ended
    exact ⟨ended.names, fun memory' exact' => ended.names.agree exact'⟩

/-- A folder with one file, of the name `a`. -/
def loneFile : List (Dirent Unit) := [⟨CString.ofBytes [97], .reg, ()⟩]

/-- The paths that were built. -/
def builtPaths (notes : List (Note η)) : List (List UInt8) :=
  notes.filterMap fun note => if let .built path := note then some path.bytes else none

/-- A system with that folder and this memory in the name buffer. -/
def loneSystem (memory : List UInt8) : System Unit Unit :=
  { plainSystem loneFile [] with malloc := fun _ call _ => some (if call = 0 then memory else []) }

/-- What a call of `fill_folder` builds there. -/
def lonePaths (call : FolderCall Unit Unit) : Option (List (List UInt8)) :=
  (call () (CString.ofBytes dot) (CString.ofBytes dot) ⟨(), []⟩).map fun result =>
    builtPaths result.2.notes

/-- With a `b` behind the first byte of the memory the copy of `a` is called `ba`, and with zeros
it is not. -/
theorem name_polluted :
    ¬NamesExact [0, 98] (CString.ofBytes dot) loneFile ∧
      ¬RunsAgree [0, 98] [] (CString.ofBytes dot) loneFile := by
  have polluted : lonePaths (fillFolder (loneSystem [0, 98]) skipFolder) =
      some [[46, 47, 98, 97]] := by
    decide +kernel
  constructor
  · intro exact
    have same := exact Unit (loneSystem [0, 98]) skipFolder () (CString.ofBytes dot) ⟨(), []⟩ rfl
      rfl
    have named : lonePaths (fillFolderNamed (loneSystem [0, 98]) skipFolder) =
        some [[46, 47, 97]] := by
      decide +kernel
    unfold lonePaths at polluted named
    rw [same, named] at polluted
    revert polluted
    decide
  · intro agree
    have same := agree Unit (loneSystem [0, 98]) (loneSystem []).malloc skipFolder ()
      (CString.ofBytes dot) ⟨(), []⟩ rfl rfl rfl fun call size later => by simp [loneSystem, later]
    have clean : lonePaths (fillFolder (loneSystem []) skipFolder) = some [[46, 47, 97]] := by
      decide +kernel
    unfold lonePaths at polluted clean
    rw [same] at polluted
    have clash := clean.symm.trans polluted
    revert clash
    decide

end Law

end NsuOs.Mirror
