import NsuOs.Mirror.Mirroring

/-!
# What a failing copy leaves behind

On a file system on which any call may fail, at any depth and as often as it likes,
`create_reverse_folder` still changes nothing outside its target and writes over no file. What it
leaves at the target is part of the mirror: every folder there is the mirror of a folder, and every
file holds what `create_reverse_file` wrote for the file it mirrors, which is its reverse when the
two streams work. The proof follows that of the copies; an entry that fails leaves the ones behind
it uncopied.
-/
namespace NsuOs.Mirror

variable {η : Type} {sys : System Disk η} {cwd : Location}

/-- A file system on which any call may fail. A call that succeeds does what it says; memory comes
full of zeros, and a folder is listed without repetitions, with types that may be unknown. -/
structure Faulty (cwd : Location) (sys : System Disk η) : Prop where
  /-- `mkdir` makes the folder or fails. -/
  mkdir : ∀ entry path disk after, sys.mkdir entry path disk = some after →
    (diskSystem cwd listing []).mkdir () path disk = some after
  /-- `opendir` and `readdir` give entries of the folder, or `opendir` fails. -/
  opendir : ∀ entry path disk dirents, sys.opendir entry path disk = some dirents →
    ∃ loc, disk.fs.resolve cwd path = some loc ∧ disk.fs.node loc = some .folder ∧
      (dirents.map Dirent.name).Nodup ∧ ∀ dirent ∈ dirents,
        dirent.name ∈ listing disk.fs loc ∧
          (dirent.type = entryType disk.fs loc dirent.name ∨ dirent.type = .other)
  /-- `malloc` gives zeros, or no memory. -/
  malloc : ∀ entry call size memory, sys.malloc entry call size = some memory →
    ∃ behind, memory = List.replicate size 0 ++ behind
  /-- Only a regular file can be opened for reading. -/
  openInput : ∀ entry path disk, sys.openInput entry path disk = true →
    (diskSystem cwd listing []).openInput () path disk = true
  /-- `fopen` for writing makes an empty file or fails. -/
  openOutput : ∀ entry path disk after, sys.openOutput entry path disk = some after →
    (diskSystem cwd listing []).openOutput () path disk = some after
  /-- The content of a file is what is in it. -/
  content : ∀ entry path disk, sys.content entry path disk =
    (diskSystem cwd listing []).content () path disk
  /-- A file that is closed has the bytes written to it. -/
  close : ∀ path bytes disk, sys.close path bytes disk =
    (diskSystem cwd listing []).close path bytes disk

/-- What may be found at a location of a copy: nothing, the mirror of a folder, or what
`create_reverse_file` wrote for a file. -/
def Partly (sys : System Disk η) (tree : Tree) (rest : Location) : Option Node → Prop
  | none => True
  | some .folder => tree.look (rest.map Name.reverse) = some .folder
  | some (.file bytes) => ∃ entry content,
      tree.look (rest.map Name.reverse) = some (.file content) ∧
        bytes = (reverseContent (sys.stdio entry) content).2.bytes

/-- What a copy that may fail does: part of the mirror is at its place, everything outside is as it
was and nothing was written over. -/
structure Part (sys : System Disk η) (before after : Disk) (place : Location) (tree : Tree) :
    Prop where
  /-- What is at the place is part of the mirror. -/
  partly : ∀ rest, Partly sys tree rest (after.fs.node (place ++ rest))
  /-- Everything outside is as it was. -/
  kept : ∀ loc, ¬place <+: loc → after.fs.node loc = before.fs.node loc
  /-- No file was written over. -/
  overwritten : after.overwritten = before.overwritten

variable {disk after : Disk} {place : Location} {tree below : Tree} {name : Name}

/-- Nothing is part of every mirror. -/
theorem partly_fresh (fresh : disk.fs.node place = none) (tree : Tree) (rest : Location) :
    Partly sys tree rest (disk.fs.node (place ++ rest)) := by
  rw [FileSystem.node_below fresh rest]
  trivial

/-- A copy that fails at once leaves nothing. -/
theorem Part.nothing (fresh : disk.fs.node place = none) (tree : Tree) :
    Part sys disk disk place tree :=
  ⟨partly_fresh fresh tree, fun _ _ => rfl, rfl⟩

/-- Below a name that is an entry, a copy of the entry is a copy of the folder. -/
theorem Partly.child {rest : Location} {found : Option Node}
    (known : tree.child name = some below) (partly : Partly sys below rest found) :
    Partly sys tree (name.reverse :: rest) found := by
  have look : tree.look ((name.reverse :: rest).map Name.reverse) =
      below.look (rest.map Name.reverse) := by
    simp [Tree.look, known]
  unfold Partly at partly ⊢
  rw [look]
  exact partly

/-- `create_reverse_file` leaves nothing, or what it wrote of the reverse of the file. -/
theorem createReverseFile_part (faulty : Faulty cwd sys) (entry : η) {machine : Machine Disk η}
    {input output : CString} {src folder : Location} {bytes : List UInt8}
    (source : machine.system.fs.resolve cwd input = some src)
    (file : machine.system.fs.node src = some (.file bytes))
    (target : machine.system.fs.resolve cwd output = some (folder ++ [name]))
    (inside : machine.system.fs.node folder = some .folder)
    (fresh : machine.system.fs.node (folder ++ [name]) = none) :
    Part sys machine.system (createReverseFile sys entry input output machine).2.system
      (folder ++ [name]) (.file bytes) := by
  have absent : machine.system.fs.node (folder ++ [name]) ≠ some .folder := by simp [fresh]
  have elsewhere : src ≠ folder ++ [name] := by
    rintro rfl
    rw [fresh] at file
    cases file
  unfold createReverseFile
  split
  · split
    · exact .nothing fresh _
    · rename_i opened opens
      obtain ⟨other, opening, during, first⟩ := putFile_eq_some target inside absent []
      obtain rfl : other = opened :=
        Option.some.inj (opening.symm.trans (faulty.openOutput _ _ _ _ opens))
      have folders : ∀ loc, machine.system.fs.node loc = some .folder →
          other.fs.node loc = some .folder :=
        fun _ => FileSystem.folders_of_put during absent
      have reading : other.fs.resolve cwd input = some src :=
        FileSystem.resolve_mono folders source
      have there : other.fs.node src = some (.file bytes) := by
        rw [during src, if_neg elsewhere]
        exact file
      have content : sys.content entry input other = bytes := by
        rw [faulty.content]
        simp [diskSystem, reading, there]
      have again : other.fs.resolve cwd output = some (folder ++ [name]) :=
        FileSystem.resolve_mono folders target
      have placed : other.fs.node (folder ++ [name]) ≠ some .folder := by
        rw [during, if_pos rfl]
        simp
      obtain ⟨closed, closing, nodes, -⟩ := putFile_eq_some again (folders folder inside) placed
        (reverseContent (sys.stdio entry) bytes).2.bytes
      have done : sys.close output (reverseContent (sys.stdio entry) bytes).2.bytes other =
          { closed with overwritten := other.overwritten } := by
        rw [faulty.close]
        simp [diskSystem, closing]
      have part : Part sys machine.system { closed with overwritten := other.overwritten }
          (folder ++ [name]) (.file bytes) := by
        refine ⟨?_, ?_, first fresh⟩
        · intro rest
          cases rest with
          | nil =>
            have here : closed.fs.node (folder ++ [name] ++ []) =
                some (.file (reverseContent (sys.stdio entry) bytes).2.bytes) := by
              rw [List.append_nil]
              exact (nodes _).trans (if_pos rfl)
            change Partly sys _ [] (closed.fs.node _)
            rw [here]
            exact ⟨entry, bytes, rfl, rfl⟩
          | cons next rest =>
            have whole := has_file ((nodes _).trans (if_pos rfl)) (next :: rest)
            change Partly sys _ _ (closed.fs.node _)
            rw [whole]
            trivial
        · intro loc outside
          have apart : loc ≠ folder ++ [name] := by
            rintro rfl
            exact outside List.prefix_rfl
          exact ((nodes loc).trans (if_neg apart)).trans ((during loc).trans (if_neg apart))
      simp only [content, done]
      split
      · exact part
      · exact part
  · exact .nothing fresh _

/-- What a copy of a folder that may fail does by its status. -/
structure Tried (sys : System Disk η) (before : Disk) (status : Status) (after : Disk)
    (place : Location) (tree : Tree) : Prop extends Part sys before after place tree where
  /-- With `ERROR` nothing was done. -/
  refused : status = .error → after = before
  /-- With `OK` the folder is there. -/
  made : status = .ok → after.fs.node place = some .folder

/-- A call leaves part of a copy whenever there is a place for it. -/
def Tries (cwd : Location) (sys : System Disk η) (call : FolderCall Disk η) (tree : Tree) : Prop :=
  ∀ entry (machine : Machine Disk η) origin reverse src folder name,
    Ready cwd ⟨machine.system, []⟩ origin reverse src folder name tree →
    ∃ status after, call entry origin reverse machine = some (status, after) ∧
      Tried sys machine.system status after.system (folder ++ [name]) tree

variable {machine : Machine Disk η} {origin reverse : CString} {src : Location}

/-- One entry is copied, or part of it. -/
theorem copyEntry_part (faulty : Faulty cwd sys) {call : FolderCall Disk η} {buffers : Buffers}
    {dirent : Dirent η} (ret : Status) (machine : Machine Disk η)
    (calls : below.node = .folder → Tries cwd sys call below)
    (filling : Filling cwd ⟨machine.system, []⟩ origin reverse src place tree)
    (named : dirent.name = nameText name)
    (typed : dirent.type = listedType tree dirent.name ∨ dirent.type = .other)
    (found : tree.child name = some below)
    (fresh : machine.system.fs.node (place ++ [name.reverse]) = none)
    (input : buffers.pathNewOrigin.text = joined origin (nameText name))
    (output : buffers.pathNewRev.text = joined reverse (nameText name.reverse)) :
    ∃ status after, copyEntry sys call dirent ret buffers machine = some (status, after) ∧
      Part sys machine.system after.system (place ++ [name.reverse]) below := by
  have ready := filling.ready found fresh
  have proper : isCurrOrPrevDir (nameText name) = false := by
    simp [isCurrOrPrevDir, nameText, name.notDot, name.notDots]
  have parsed : Name.parse (nameText name).bytes = some name := Name.parse_bytes name
  unfold copyEntry
  rw [input, output, named]
  rcases typed with known | unknown
  · rw [named] at known
    cases below with
    | folder entries =>
      have type : dirent.type = .dir := by
        rw [known]
        simp [listedType, parsed, found]
      rw [if_pos ⟨type, by simp [proper]⟩]
      obtain ⟨status, after, done, tried⟩ := calls rfl dirent.entry machine _ _ _ _ _ ready
      exact ⟨status, after, done, tried.toPart⟩
    | file bytes =>
      have type : dirent.type = .reg := by
        rw [known]
        simp [listedType, parsed, found]
      have file : machine.system.fs.node (src ++ [name]) = some (.file bytes) := ready.has.root
      rw [if_neg (by simp [type]), if_pos type]
      exact ⟨_, _, rfl, createReverseFile_part faulty _ ready.source file ready.target ready.inside
        ready.fresh⟩
  · rw [if_neg (by simp [unknown]), if_neg (by simp [unknown])]
    exact ⟨ret, machine, rfl, .nothing fresh below⟩

/-- What the copies of some entries of a folder leave when they may fail. -/
structure PartFilled (sys : System Disk η) (before after : Disk) (place : Location) (tree : Tree)
    (todo : List CString) : Prop where
  /-- What is at the places of the entries is part of their mirrors. -/
  partly : ∀ name below, nameText name ∈ todo → tree.child name = some below →
    ∀ rest, Partly sys below rest (after.fs.node (place ++ [name.reverse] ++ rest))
  /-- Everything outside these places is as it was. -/
  kept : ∀ loc, (∀ name, nameText name ∈ todo → ¬place ++ [name.reverse] <+: loc) →
    after.fs.node loc = before.fs.node loc
  /-- No file was written over. -/
  overwritten : after.overwritten = before.overwritten

variable {todo : List CString}

/-- The loop stops, and the entries left are not copied. -/
theorem PartFilled.stop (free : Free place todo disk.fs) :
    PartFilled sys disk disk place tree todo :=
  ⟨fun name below member _ => partly_fresh (free name member) below, fun _ _ => rfl, rfl⟩

/-- The copy of one entry. -/
theorem PartFilled.single (part : Part sys disk after (place ++ [name.reverse]) below)
    (found : tree.child name = some below) :
    PartFilled sys disk after place tree [nameText name] where
  partly := by
    intro other child member known
    obtain rfl : other = name := nameText_injective (List.mem_singleton.mp member)
    obtain rfl : below = child := Option.some.inj (found.symm.trans known)
    exact part.partly
  kept loc outside := part.kept loc (outside name List.mem_cons_self)
  overwritten := part.overwritten

/-- The copy of an entry and the copies of the others. -/
theorem PartFilled.cons {middle : Disk} {text : CString}
    (first : PartFilled sys disk middle place tree [text])
    (filled : PartFilled sys middle after place tree todo) (once : text ∉ todo) :
    PartFilled sys disk after place tree (text :: todo) where
  partly := by
    intro name below member known rest
    rcases List.mem_cons.mp member with rfl | later
    · rw [Aside.beside filled.kept once rest]
      exact first.partly name below List.mem_cons_self known rest
    · exact filled.partly name below later known rest
  kept := Aside.cons first.kept filled.kept
  overwritten := filled.overwritten.trans first.overwritten

/-- What `readdir` may return for a folder of a tree. -/
structure Returns (tree : Tree) (dirents : List (Dirent η)) : Prop where
  /-- Every name is listed for the folder. -/
  listed : ∀ dirent ∈ dirents, Listed tree dirent.name
  /-- Its type is that of the entry, or is unknown. -/
  typed : ∀ dirent ∈ dirents,
    dirent.type = listedType tree dirent.name ∨ dirent.type = .other
  /-- No name is returned twice. -/
  nodup : (dirents.map Dirent.name).Nodup

/-- The entries behind the first one. -/
theorem Returns.tail {dirent : Dirent η} {dirents : List (Dirent η)}
    (returns : Returns tree (dirent :: dirents)) : Returns tree dirents where
  listed other later := returns.listed other (List.mem_cons_of_mem _ later)
  typed other later := returns.typed other (List.mem_cons_of_mem _ later)
  nodup := (List.nodup_cons.mp returns.nodup).2

/-- The folder itself and the folder above are not copied. -/
theorem copyEntry_passes {call : FolderCall Disk η} {buffers : Buffers} {dirent : Dirent η}
    (ret : Status) (special : dirent.name = dotText ∨ dirent.name = dotsText)
    (typed : dirent.type = listedType tree dirent.name ∨ dirent.type = .other) :
    copyEntry sys call dirent ret buffers machine = some (ret, machine) := by
  have proper : isCurrOrPrevDir dirent.name = true := by
    rcases special with same | same
    · rw [same]
      rfl
    · rw [same]
      rfl
  have folder : listedType tree dirent.name = .dir := by
    rcases special with same | same
    · rw [same]
      rfl
    · rw [same]
      rfl
  have irregular : dirent.type ≠ .reg := by
    rcases typed with known | unknown
    · simp [known, folder]
    · simp [unknown]
  unfold copyEntry
  rw [if_neg (by simp [proper]), if_neg irregular]

/-- Every entry of a folder is passed over, or is copied, or part of it. -/
theorem copyEntry_partFilled (faulty : Faulty cwd sys) {call : FolderCall Disk η}
    {buffers : Buffers} {dirent : Dirent η} (ret : Status)
    (calls : ∀ name below, tree.child name = some below → below.node = .folder →
      Tries cwd sys call below)
    (filling : Filling cwd ⟨machine.system, []⟩ origin reverse src place tree)
    (listed : Listed tree dirent.name)
    (typed : dirent.type = listedType tree dirent.name ∨ dirent.type = .other)
    (free : Free place [dirent.name] machine.system.fs) (blank : buffers.nameRev.Blank)
    (fit : buffers.Fits origin reverse dirent.name) :
    ∃ status after, copyEntry sys call dirent ret (buffers.build origin reverse dirent.name)
        (machine.note (buffers.buildNotes origin reverse dirent.name)) = some (status, after) ∧
      PartFilled sys machine.system after.system place tree [dirent.name] := by
  have untouched : PartFilled sys machine.system machine.system place tree [dirent.name] :=
    .stop free
  rcases listed with same | same | ⟨name, below, same, found⟩
  · exact ⟨ret, _, copyEntry_passes ret (.inl same) typed, untouched⟩
  · exact ⟨ret, _, copyEntry_passes ret (.inr same) typed, untouched⟩
  · have output : (buffers.build origin reverse dirent.name).pathNewRev.text =
        joined reverse (nameText name.reverse) := by
      rw [Buffers.text_pathNewRev blank fit, same]
      rfl
    have input : (buffers.build origin reverse dirent.name).pathNewOrigin.text =
        joined origin (nameText name) := by
      rw [Buffers.text_pathNewOrigin, same]
    obtain ⟨status, after, copied, part⟩ :=
      copyEntry_part faulty ret (machine.note (buffers.buildNotes origin reverse dirent.name))
        (calls name below found) filling same typed found
        (free name (List.mem_singleton.mpr same.symm)) input output
    exact ⟨status, after, copied, same ▸ .single part found⟩

/-- A step of the loop copies its entry, or part of it, and nothing else. -/
theorem EntryStep.partFilled {call : FolderCall Disk η} {buffers : Buffers} {dirent : Dirent η}
    {ret : Status} {onward : Onward Disk η}
    (step : EntryStep sys call origin reverse dirent ret buffers machine onward)
    (fit : buffers.Fits origin reverse dirent.name)
    (free : Free place [dirent.name] machine.system.fs)
    (copies : ∃ status after, copyEntry sys call dirent ret
        (buffers.build origin reverse dirent.name)
        (machine.note (buffers.buildNotes origin reverse dirent.name)) = some (status, after) ∧
      PartFilled sys machine.system after.system place tree [dirent.name]) :
    PartFilled sys machine.system onward.machine.system place tree [dirent.name] := by
  have kept := fit.correct sys rfl
  obtain ⟨status', after, copied, filled⟩ := copies
  cases step with
  | refused | unbuilt => exact .stop free
  | uncopied changed status middle fits formats copy wrong =>
    obtain rfl := Option.some.inj (kept.symm.trans fits)
    obtain ⟨rfl, rfl⟩ := Prod.mk.inj (Option.some.inj (copied.symm.trans copy))
    exact filled
  | copied changed middle fits formats copy known =>
    obtain rfl := Option.some.inj (kept.symm.trans fits)
    obtain ⟨rfl, rfl⟩ := Prod.mk.inj (Option.some.inj (copied.symm.trans copy))
    exact filled

/-- The loop of `fill_folder` copies entries in their order until one fails. -/
theorem fillEntries_part (faulty : Faulty cwd sys) {call : FolderCall Disk η}
    (calls : ∀ name below, tree.child name = some below → below.node = .folder →
      Tries cwd sys call below) {dirents : List (Dirent η)} {ret : Status} {buffers : Buffers}
    (filling : Filling cwd ⟨machine.system, []⟩ origin reverse src place tree)
    (returns : Returns tree dirents)
    (free : Free place (dirents.map Dirent.name) machine.system.fs)
    (blank : buffers.nameRev.Blank)
    (fits : ∀ text, Listed tree text → buffers.Fits origin reverse text) :
    ∃ status after, fillEntries sys call origin reverse dirents ret buffers machine =
        some (status, after) ∧
      PartFilled sys machine.system after.system place tree (dirents.map Dirent.name) := by
  induction dirents generalizing machine buffers ret with
  | nil => exact ⟨.ok, machine, rfl, .stop free⟩
  | cons dirent dirents ih =>
    have here := returns.listed dirent List.mem_cons_self
    have fit := fits dirent.name here
    have once := (List.nodup_cons.mp returns.nodup).1
    have only : Free place [dirent.name] machine.system.fs :=
      fun name same => free name (List.mem_singleton.mp same ▸ List.mem_cons_self)
    have copies := copyEntry_partFilled faulty ret calls filling here
      (returns.typed dirent List.mem_cons_self) only blank fit
    obtain ⟨onward, step⟩ :
        ∃ onward, EntryStep sys call origin reverse dirent ret buffers machine onward := by
      apply exists_entryStep
      intro changed changes _
      obtain rfl := Option.some.inj ((fit.correct sys rfl).symm.trans changes)
      obtain ⟨status, after, copied, -⟩ := copies
      exact ⟨_, copied⟩
    have filled := step.partFilled fit only copies
    have still := Aside.free filled.kept free once
    rw [step.fillEntries]
    cases onward with
    | stop after => exact ⟨.error, after, rfl, filled.cons (.stop still) once⟩
    | next changed middle =>
      obtain rfl := step.buffers_eq (fit.correct sys rfl)
      obtain ⟨status, after, done, later⟩ := ih (filling.of_aside filled.kept only) returns.tail
        still (Buffers.blank_next blank fit) fun next known => fit.next (filling.listed_short known)
      exact ⟨status, after, done, filled.cons later once⟩

/-- What `opendir` and `readdir` return for the folder of a tree is from the tree. -/
theorem Faulty.returns (faulty : Faulty cwd sys) {fs : FileSystem} {entry : η}
    {overwritten : List Location} {dirents : List (Dirent η)}
    (source : fs.resolve cwd origin = some src) (has : fs.Has src tree)
    (folder : fs.node src = some .folder)
    (opened : sys.opendir entry origin ⟨fs, overwritten⟩ = some dirents) :
    Returns tree dirents := by
  obtain ⟨loc, resolved, -, nodup, members⟩ := faulty.opendir _ _ _ _ opened
  obtain rfl : src = loc := Option.some.inj (source.symm.trans resolved)
  refine ⟨?_, ?_, nodup⟩
  · intro dirent member
    exact (listing_lists.listed has folder _).mp (members dirent member).1
  · intro dirent member
    rw [← entryType_eq has]
    exact (members dirent member).2

/-- `fill_folder` copies entries into a folder that is empty until one fails. -/
theorem fillFolder_part (faulty : Faulty cwd sys) {call : FolderCall Disk η}
    (calls : ∀ name below, tree.child name = some below → below.node = .folder →
      Tries cwd sys call below) (entry : η) (machine : Machine Disk η)
    (filling : Filling cwd ⟨machine.system, []⟩ origin reverse src place tree)
    (fresh : ∀ name rest, machine.system.fs.node (place ++ name :: rest) = none) :
    ∃ status after todo, fillFolder sys call entry origin reverse machine = some (status, after) ∧
      (∀ text ∈ todo, Listed tree text) ∧
      PartFilled sys machine.system after.system place tree todo := by
  rcases fillFolder_cases sys call entry origin reverse machine with
    refused | ⟨dirents, nameRev, pathNewRev, pathNewOrigin, opened, first, started⟩
  · exact ⟨_, _, [], refused, by simp, .stop (by simp [Free])⟩
  · have returns := faulty.returns filling.source filling.has filling.source_folder opened
    obtain ⟨behind, rfl⟩ := faulty.malloc _ _ _ _ first
    have nonempty := strlen_pos filling.source
    obtain ⟨status, after, done, filled⟩ : ∃ status after,
        fillEntries sys call origin reverse dirents .ok
            ⟨⟨maxLenNameFile, List.replicate maxLenNameFile 0 ++ behind⟩,
              ⟨maxLenNameFile + reverse.strlen, pathNewRev⟩,
              ⟨maxLenNameFile + origin.strlen, pathNewOrigin⟩⟩ machine =
          some (status, after) ∧
        PartFilled sys machine.system after.system place tree (dirents.map Dirent.name) :=
      fillEntries_part faulty calls filling returns (fun name _ => fresh name.reverse [])
        (newBuffers_blank behind origin reverse)
        fun text known => ⟨rfl, rfl, rfl, filling.listed_short known, nonempty⟩
    refine ⟨status, after, dirents.map Dirent.name, started.trans done, ?_, filled⟩
    intro text member
    obtain ⟨dirent, inside, rfl⟩ := List.mem_map.mp member
    exact returns.listed dirent inside

/-- A folder does not lie below an entry of its own. -/
theorem not_below_self (name : Name) : ¬place ++ [name] <+: place := by
  intro below
  have lengths := below.length_le
  simp at lengths

/-- Copies of entries of an empty folder leave part of the copy of the folder. -/
theorem PartFilled.part {made : Disk} (filled : PartFilled sys made after place tree todo)
    (folder : tree.node = .folder) (listed : ∀ text ∈ todo, Listed tree text)
    (inside : made.fs.node place = some .folder)
    (fresh : ∀ name rest, made.fs.node (place ++ name :: rest) = none)
    (kept : ∀ loc, ¬place <+: loc → made.fs.node loc = disk.fs.node loc)
    (overwritten : made.overwritten = disk.overwritten) :
    Part sys disk after place tree where
  partly := by
    intro rest
    cases rest with
    | nil =>
      rw [List.append_nil, filled.kept place fun name _ => not_below_self name.reverse, inside]
      exact congrArg some folder
    | cons first rest =>
      by_cases member : nameText first.reverse ∈ todo
      · rcases listed _ member with same | same | ⟨name, below, same, found⟩
        · exact absurd same (nameText_ne _).1
        · exact absurd same (nameText_ne _).2
        · obtain rfl := nameText_injective same
          have partly := filled.partly first.reverse below member found rest
          rw [Name.reverse_reverse, List.append_assoc] at partly
          have whole := partly.child found
          rw [Name.reverse_reverse] at whole
          exact whole
      · have outside : ∀ name, nameText name ∈ todo →
            ¬place ++ [name.reverse] <+: place ++ first :: rest := by
          intro name other
          apply not_below_sibling
          rintro rfl
          rw [Name.reverse_reverse] at member
          exact member other
        rw [filled.kept _ outside, fresh first rest]
        trivial
  kept := by
    intro loc outside
    have beyond : ∀ name, nameText name ∈ todo → ¬place ++ [name.reverse] <+: loc := by
      intro name _ below
      exact outside ((List.prefix_append place _).trans below)
    exact (filled.kept loc beyond).trans (kept loc outside)
  overwritten := filled.overwritten.trans overwritten

/-- `create_reverse_folder` copies a folder that is not deeper than its recursion, or part of
it. -/
theorem createReverseFolder_part (faulty : Faulty cwd sys) {limit : Nat} {tree : Tree}
    (folder : tree.node = .folder) (shallow : depth tree ≤ limit) :
    Tries cwd sys (createReverseFolder sys limit) tree := by
  induction limit generalizing tree with
  | zero =>
    cases tree with
    | file bytes => cases folder
    | folder entries =>
      unfold depth at shallow
      omega
  | succ limit ih =>
    intro entry machine origin reverse src parent name ready
    simp only [createReverseFolder]
    split
    · refine ⟨_, _, rfl, ⟨.nothing ready.fresh tree, fun _ => rfl, fun wrong => ?_⟩⟩
      cases wrong
    · rename_i system made
      have fresh : machine.system.fs.node (parent ++ [name]) = none := ready.fresh
      have target : machine.system.fs.resolve cwd reverse = some (parent ++ [name]) := ready.target
      obtain ⟨fs, put, empty, kept, fills⟩ := ready.make folder
      obtain rfl : (⟨fs, machine.system.overwritten⟩ : Disk) = system := by
        have done := faulty.mkdir _ _ _ _ made
        simpa [diskSystem, target, fresh, put] using done
      have filling := fills ⟨⟨fs, machine.system.overwritten⟩, []⟩ rfl
      have calls : ∀ first below, tree.child first = some below → below.node = .folder →
          Tries cwd sys (createReverseFolder sys limit) below := by
        intro first below found inner
        have less := depth_child found
        exact ih inner (by omega)
      obtain ⟨status, after, todo, done, listed, filled⟩ := fillFolder_part faulty calls entry
        (Machine.note { machine with system := ⟨fs, machine.system.overwritten⟩ }
          [.copied entry]) filling empty
      rw [done]
      refine ⟨_, _, rfl, ⟨filled.part folder listed filling.inside empty kept rfl, ?_, ?_⟩⟩
      · intro wrong
        cases wrong
      · intro _
        rw [filled.kept _ (fun name _ => not_below_self name.reverse)]
        exact filling.inside

/-- The node with the bytes of a file reversed. -/
def mirrorNode : Node → Node
  | .folder => .folder
  | .file bytes => .file bytes.reverse

/-- A mirror has at a location the mirror of what the tree has at the reversed names. -/
theorem look_mirror (tree : Tree) (rest : Location) :
    (mirror tree).look rest = (tree.look (rest.map Name.reverse)).map mirrorNode := by
  induction rest generalizing tree with
  | nil => cases tree <;> rfl
  | cons name rest ih =>
    have child := child_mirror tree name.reverse
    rw [Name.reverse_reverse] at child
    simp only [List.map_cons, Tree.look, child]
    cases tree.child name.reverse with
    | none => rfl
    | some below => exact ih below

/-- What is at a location of a copy is what the mirror has there, where the streams work. -/
theorem Partly.eq_look (complete : ∀ entry, (sys.stdio entry).Complete) {rest : Location}
    {found : Node} (partly : Partly sys tree rest (some found)) :
    (mirror tree).look rest = some found := by
  rw [look_mirror]
  cases found with
  | folder =>
    have folder : tree.look (rest.map Name.reverse) = some .folder := partly
    rw [folder]
    rfl
  | file bytes =>
    obtain ⟨entry, content, file, rfl⟩ := partly
    rw [file, (reverseContent_reverse (complete entry) content).2]
    rfl

/-- The target of a call that made its folder was new. -/
theorem Faulty.fresh (faulty : Faulty cwd sys) {entry : η} {path : CString}
    (made : sys.mkdir entry path disk = some after) :
    ∃ loc, disk.fs.resolve cwd path = some loc ∧ disk.fs.node loc = none := by
  have done := faulty.mkdir _ _ _ _ made
  simp only [diskSystem, Option.bind_eq_bind, Option.bind_eq_some_iff] at done
  obtain ⟨loc, resolved, putting⟩ := done
  split at putting
  · exact ⟨loc, resolved, ‹_›⟩
  · cases putting

/-- Where memory comes full of zeros and the target is not below the source: however its calls fail,
`create_reverse_folder` returns; it leaves the source and everything outside its target as they were
and writes over no file. When it returns `ERROR` it has done nothing, and otherwise its target is
new and holds part of the mirror: folders for folders, and for files what was written of their
reverse, which is all of it when the streams work. -/
theorem create_reverse_folder_fails_safe (entry : η) {limit : Nat} {fs : FileSystem}
    {source target : CString} (faulty : Faulty cwd sys) (folder : tree.node = .folder)
    (shallow : depth tree ≤ limit) (home : fs.node cwd = some .folder)
    (reading : fs.resolve cwd source = some src) (has : fs.Has src tree)
    (outside : ∀ place, fs.resolve cwd target = some place → ¬src <+: place)
    (short : Short source tree) :
    ∃ status after, createReverseFolder sys limit entry source target ⟨⟨fs, []⟩, []⟩ =
        some (status, after) ∧
      after.system.fs.Has src tree ∧ after.system.overwritten = [] ∧
      (status = .error → after.system.fs = fs) ∧
      (status = .ok → ∃ place, fs.resolve cwd target = some place ∧ fs.node place = none ∧
        after.system.fs.node place = some .folder ∧
        (∀ loc, ¬place <+: loc → after.system.fs.node loc = fs.node loc) ∧
        ∀ rest, Partly sys tree rest (after.system.fs.node (place ++ rest)) ∧
          ((∀ entry, (sys.stdio entry).Complete) →
            ∀ found, after.system.fs.node (place ++ rest) = some found →
              (mirror tree).look rest = some found)) := by
  cases made : sys.mkdir entry target ⟨fs, []⟩ with
  | none =>
    obtain ⟨limit, rfl⟩ : ∃ lower, limit = lower + 1 := by
      apply Nat.exists_eq_succ_of_ne_zero
      rintro rfl
      cases tree with
      | file bytes => cases folder
      | folder entries => simp [depth] at shallow
    have refused : createReverseFolder sys (limit + 1) entry source target ⟨⟨fs, []⟩, []⟩ =
        some (Machine.fail ⟨⟨fs, []⟩, []⟩ .createReverseFolder) := by
      simp [createReverseFolder, made]
    refine ⟨_, _, refused, has, rfl, fun _ => rfl, fun wrong => ?_⟩
    cases wrong
  | some system =>
    obtain ⟨place, writing, fresh⟩ := faulty.fresh made
    obtain ⟨parent, name, rfl, inside⟩ := FileSystem.resolve_fresh home writing fresh
    have apart : Apart src (parent ++ [name]) :=
      apart_of_not_below (outside _ writing) (has.not_below fresh)
    have ready : Ready cwd ⟨⟨fs, []⟩, []⟩ source target src parent name tree :=
      ⟨reading, has, writing, inside, fresh, apart, short⟩
    obtain ⟨status, after, done, tried⟩ := createReverseFolder_part faulty folder shallow entry
      ⟨⟨fs, []⟩, []⟩ source target src parent name ready
    refine ⟨status, after, done, ?_, tried.overwritten, ?_, ?_⟩
    · intro rest
      rw [tried.kept _ (apart.not_below rest)]
      exact has rest
    · intro failed
      exact congrArg Disk.fs (tried.refused failed)
    · intro succeeded
      refine ⟨parent ++ [name], writing, fresh, tried.made succeeded, tried.kept, ?_⟩
      intro rest
      refine ⟨tried.partly rest, ?_⟩
      intro complete found here
      have partly := tried.partly rest
      rw [here] at partly
      exact partly.eq_look complete

/-- The disk on which no input file can be read: its first `fseek` fails. -/
def unseekable : System Disk Unit :=
  { diskSystem [] listing [] with stdio := fun _ => ⟨true, false, fun _ => ⟨false, false, 0⟩⟩ }

/-- That is such a file system. -/
theorem unseekable_faulty : Faulty [] unseekable where
  mkdir _ _ _ _ made := made
  opendir _ path disk dirents opened := by
    simp only [unseekable, diskSystem, Option.bind_eq_bind, Option.bind_eq_some_iff] at opened
    obtain ⟨loc, resolved, listed⟩ := opened
    split at listed
    · rename_i folder
      obtain rfl := Option.some.inj listed
      refine ⟨loc, resolved, folder, ?_, ?_⟩
      · rw [List.map_map]
        exact (List.map_id _).symm ▸ listing_lists.nodup disk.fs loc
      · intro dirent member
        obtain ⟨text, inside, rfl⟩ := List.mem_map.mp member
        exact ⟨inside, .inl rfl⟩
    · cases listed
  malloc _ _ size memory given := by
    obtain rfl := Option.some.inj given
    exact ⟨[], rfl⟩
  openInput _ _ _ opened := opened
  openOutput _ _ _ _ opened := opened
  content _ _ _ := rfl
  close _ _ _ := rfl

/-- The folder `a` is copied to `d` with its file left empty, and `OK` is returned. -/
theorem create_reverse_folder_fails_safe_unseekable :
    ∃ after, createReverseFolder unseekable 1 () pathA pathD ⟨⟨smallFs, []⟩, []⟩ =
        some (.ok, after) ∧
      after.system.fs.Has [nameA] smallTree ∧ after.system.overwritten = [] ∧
      after.system.fs.node [nameD, nameBC.reverse] = some (.file []) := by
  have outcome : (createReverseFolder unseekable 1 () pathA pathD ⟨⟨smallFs, []⟩, []⟩).map
      (fun result => (result.1, result.2.system.fs.node [nameD, nameBC.reverse])) =
        some (.ok, some (.file [])) := by
    decide +kernel
  obtain ⟨status, after, done, source, kept, -⟩ :=
    create_reverse_folder_fails_safe () unseekable_faulty (rfl : smallTree.node = .folder)
      (Nat.le_refl 1) smallFs.root (by decide : smallFs.resolve [] pathA = some [nameA]) smallFs_has
      (by decide : ∀ place, smallFs.resolve [] pathD = some place → ¬[nameA] <+: place)
      (short_single (by decide) (by decide) (by decide))
  rw [done, Option.map_some, Option.some.injEq, Prod.mk.injEq] at outcome
  obtain ⟨rfl, file⟩ := outcome
  exact ⟨after, done, source, kept, file⟩

end NsuOs.Mirror
