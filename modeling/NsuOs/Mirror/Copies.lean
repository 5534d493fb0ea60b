import NsuOs.Mirror.Trees

/-!
# The copies of the entries of a folder

A copy puts the mirror of a tree at a free place and changes nothing else. Inside a folder the
entries still to be copied are taken in whatever order they are listed; each copy is one subtree
beside the others, so it neither changes the source nor takes the place of a later one. The proof
of `create_reverse_folder` goes over the depth of the tree, that of `fill_folder` over the list.
-/
namespace NsuOs.Mirror

/-- What a copy of a tree does: the tree is at its place, everything outside is as it was, nothing
was written over and nothing went wrong. -/
structure Copy (before after : Machine Disk Unit) (place : Location) (tree : Tree) : Prop where
  /-- The tree is at its place. -/
  placed : after.system.fs.Has place tree
  /-- Everything outside is as it was. -/
  kept : ∀ loc, ¬place <+: loc → after.system.fs.node loc = before.system.fs.node loc
  /-- No file was written over. -/
  overwritten : after.system.overwritten = before.system.overwritten
  /-- Nothing went wrong. -/
  notes : ∃ made, after.notes = before.notes ++ made ∧ ∀ note ∈ made, note.Fine

section Disk

variable {cwd : Location} {order : FileSystem → Location → List CString} {behind : List UInt8}

/-- A file is put into a folder where no folder is. -/
theorem putFile_eq_some {disk : Disk} {path : CString} {folder : Location} {name : Name}
    (target : disk.fs.resolve cwd path = some (folder ++ [name]))
    (inside : disk.fs.node folder = some .folder)
    (other : disk.fs.node (folder ++ [name]) ≠ some .folder) (bytes : List UInt8) :
    ∃ after, disk.putFile cwd path bytes = some after ∧
      (∀ loc, after.fs.node loc =
        if loc = folder ++ [name] then some (.file bytes) else disk.fs.node loc) ∧
      (disk.fs.node (folder ++ [name]) = none → after.overwritten = disk.overwritten) := by
  have kept : disk.fs.node (folder ++ [name]) ≠ some .folder ∨ Node.file bytes = .folder :=
    .inl other
  obtain ⟨fs, put, nodes⟩ := FileSystem.put_eq_some inside kept
  refine ⟨⟨fs, if disk.fs.node (folder ++ [name]) = none then disk.overwritten
    else disk.overwritten ++ [folder ++ [name]]⟩, ?_, nodes, fun fresh => if_pos fresh⟩
  simp [Disk.putFile, target, put]

/-- Where a file was put, the file is all there is. -/
theorem has_file {fs : FileSystem} {loc : Location} {bytes : List UInt8}
    (here : fs.node loc = some (.file bytes)) : fs.Has loc (.file bytes) := by
  intro rest
  cases rest with
  | nil =>
    rw [List.append_nil]
    exact here
  | cons name rest =>
    have nothing : fs.node (loc ++ [name]) = none := by
      by_contra present
      rw [fs.closed loc name present] at here
      cases here
    rw [List.append_cons, FileSystem.node_below nothing]
    rfl

/-- The library without failures is complete. -/
theorem smooth_complete : smooth.Complete :=
  ⟨rfl, rfl, fun _ => rfl, fun _ => rfl, fun _ => Nat.le_refl _⟩

/-- `create_reverse_file` puts the reverse of a file where nothing was. -/
theorem createReverseFile_copies (order : FileSystem → Location → List CString)
    (behind : List UInt8) {machine : Machine Disk Unit} {input output : CString}
    {src folder : Location} {name : Name} {bytes : List UInt8}
    (source : machine.system.fs.resolve cwd input = some src)
    (file : machine.system.fs.node src = some (.file bytes))
    (target : machine.system.fs.resolve cwd output = some (folder ++ [name]))
    (inside : machine.system.fs.node folder = some .folder)
    (fresh : machine.system.fs.node (folder ++ [name]) = none) :
    ∃ after, createReverseFile (diskSystem cwd order behind) () input output machine =
        (.ok, after) ∧ Copy machine after (folder ++ [name]) (.file bytes.reverse) := by
  have absent : machine.system.fs.node (folder ++ [name]) ≠ some .folder := by simp [fresh]
  obtain ⟨opened, opening, during, first⟩ := putFile_eq_some target inside absent []
  have elsewhere : src ≠ folder ++ [name] := by
    rintro rfl
    rw [fresh] at file
    cases file
  have folders : ∀ loc, machine.system.fs.node loc = some .folder →
      opened.fs.node loc = some .folder :=
    fun _ => FileSystem.folders_of_put during absent
  have again : opened.fs.resolve cwd output = some (folder ++ [name]) :=
    FileSystem.resolve_mono folders target
  have reading : opened.fs.resolve cwd input = some src := FileSystem.resolve_mono folders source
  have content : opened.fs.node src = some (.file bytes) := by
    rw [during src, if_neg elsewhere]
    exact file
  have placed : opened.fs.node (folder ++ [name]) ≠ some .folder := by
    rw [during, if_pos rfl]
    simp
  obtain ⟨closed, closing, nodes, -⟩ :=
    putFile_eq_some again (folders folder inside) placed bytes.reverse
  have reverse := reverseContent_reverse smooth_complete bytes
  refine ⟨⟨⟨closed.fs, opened.overwritten⟩, machine.notes ++ [.copied ()]⟩, ?_, ?_, ?_, ?_, ?_⟩
  · simp only [createReverseFile, diskSystem, source, file, if_true, opening, reading, content,
      reverse.1, reverse.2, closing, Machine.note]
  · apply has_file
    exact (nodes _).trans (if_pos rfl)
  · intro loc outside
    have other : loc ≠ folder ++ [name] := by
      rintro rfl
      exact outside List.prefix_rfl
    exact ((nodes loc).trans (if_neg other)).trans ((during loc).trans (if_neg other))
  · exact first fresh
  · refine ⟨[.copied ()], rfl, fun note member => ?_⟩
    rw [List.mem_singleton.mp member]
    trivial

/-- A source and a free place for its copy, apart from each other. -/
structure Ready (cwd : Location) (machine : Machine Disk Unit) (origin reverse : CString)
    (src folder : Location) (name : Name) (tree : Tree) : Prop where
  /-- The path of the source leads to the source. -/
  source : machine.system.fs.resolve cwd origin = some src
  /-- The tree is there. -/
  has : machine.system.fs.Has src tree
  /-- The path of the target leads to a place inside a folder. -/
  target : machine.system.fs.resolve cwd reverse = some (folder ++ [name])
  /-- That folder is there. -/
  inside : machine.system.fs.node folder = some .folder
  /-- Nothing is at the place. -/
  fresh : machine.system.fs.node (folder ++ [name]) = none
  /-- Neither of the two is below the other. -/
  apart : Apart src (folder ++ [name])
  /-- The paths below the source fit the buffers. -/
  short : Short origin tree

/-- A call copies a tree whenever there is a place for the copy. -/
def Copies (cwd : Location) (call : FolderCall Disk Unit) (tree : Tree) : Prop :=
  ∀ machine origin reverse src folder name, Ready cwd machine origin reverse src folder name tree →
    ∃ after, call () origin reverse machine = some (.ok, after) ∧
      Copy machine after (folder ++ [name]) (mirror tree)

/-- The type of an entry in the listing of a tree. -/
def listedType (tree : Tree) (text : CString) : EntryType :=
  match Name.parse text.bytes with
  | none => .dir
  | some name =>
    match tree.child name with
    | some (.folder _) => .dir
    | some (.file _) => .reg
    | none => .other

/-- The types in a listing are those of the tree that is there. -/
theorem entryType_eq {fs : FileSystem} {src : Location} {tree : Tree} (has : fs.Has src tree)
    (text : CString) : entryType fs src text = listedType tree text := by
  unfold entryType listedType
  cases Name.parse text.bytes with
  | none => rfl
  | some name =>
    have there : fs.node (src ++ [name]) = (tree.child name).map Tree.node := by
      rw [has [name], Option.map_eq_bind]
      rfl
    simp only [there]
    cases tree.child name with
    | none => rfl
    | some below => cases below <;> rfl

/-- What `readdir` returns for an entry of a tree. -/
def dirent (tree : Tree) (text : CString) : Dirent Unit := ⟨text, listedType tree text, ()⟩

/-- The state of the copy of a folder between two entries. -/
structure Filling (cwd : Location) (machine : Machine Disk Unit) (origin reverse : CString)
    (src place : Location) (tree : Tree) : Prop where
  /-- The path of the source leads to the source. -/
  source : machine.system.fs.resolve cwd origin = some src
  /-- The tree is there. -/
  has : machine.system.fs.Has src tree
  /-- It is a folder. -/
  folder : tree.node = .folder
  /-- The path of the target leads to the folder that is filled. -/
  target : machine.system.fs.resolve cwd reverse = some place
  /-- That folder is there. -/
  inside : machine.system.fs.node place = some .folder
  /-- Neither of the two is below the other. -/
  apart : Apart src place
  /-- The paths below the source fit the buffers. -/
  short : Short origin tree

variable {machine after : Machine Disk Unit} {origin reverse : CString} {src place : Location}
  {tree below : Tree} {name : Name}

/-- The source is a folder. -/
theorem Filling.source_folder (filling : Filling cwd machine origin reverse src place tree) :
    machine.system.fs.node src = some .folder := by
  rw [filling.has.root, filling.folder]

/-- There is a place for the copy of each entry. -/
theorem Filling.ready (filling : Filling cwd machine origin reverse src place tree)
    (found : tree.child name = some below)
    (fresh : machine.system.fs.node (place ++ [name.reverse]) = none) :
    Ready cwd machine (joined origin (nameText name)) (joined reverse (nameText name.reverse))
      (src ++ [name]) place name.reverse below where
  source := by
    rw [FileSystem.resolve_append name.nonempty name.slashFree rfl filling.source]
    exact FileSystem.walk_name filling.source_folder
  has := by
    intro rest
    rw [List.append_assoc, List.singleton_append, filling.has (name :: rest)]
    simp [Tree.look, found]
  target := by
    rw [FileSystem.resolve_append name.reverse.nonempty name.reverse.slashFree rfl filling.target]
    exact FileSystem.walk_name filling.inside
  inside := filling.inside
  fresh := fresh
  apart := filling.apart.below [name] [name.reverse]
  short := filling.short.child found

/-- Nothing has changed outside the places for some entries of a folder. -/
def Aside (place : Location) (todo : List CString) (before after : FileSystem) : Prop :=
  ∀ loc, (∀ name, nameText name ∈ todo → ¬place ++ [name.reverse] <+: loc) →
    after.node loc = before.node loc

/-- Nothing is at the places for some entries of a folder. -/
def Free (place : Location) (todo : List CString) (fs : FileSystem) : Prop :=
  ∀ name, nameText name ∈ todo → fs.node (place ++ [name.reverse]) = none

section Aside

variable {fs changed : FileSystem} {text : CString} {todo : List CString}

/-- Names are told apart by their strings. -/
theorem nameText_injective {left right : Name} (same : nameText left = nameText right) :
    left = right :=
  Name.ext (congrArg CString.bytes same)

/-- Where nothing was, all folders are still folders. -/
theorem Aside.folders (aside : Aside place todo fs changed) (free : Free place todo fs)
    {loc : Location} (folder : fs.node loc = some .folder) :
    changed.node loc = some .folder := by
  rw [aside loc, folder]
  rintro name member ⟨rest, rfl⟩
  rw [FileSystem.node_below (free name member) rest] at folder
  cases folder

/-- What is at the place for another entry is as it was. -/
theorem Aside.beside (aside : Aside place todo fs changed) (other : nameText name ∉ todo)
    (rest : Location) :
    changed.node (place ++ [name.reverse] ++ rest) = fs.node (place ++ [name.reverse] ++ rest) := by
  apply aside
  intro sibling listed
  rw [List.append_assoc, List.singleton_append]
  apply not_below_sibling
  intro equal
  exact other (Name.reverse_injective equal ▸ listed)

/-- The places for the other entries are still free. -/
theorem Aside.free (aside : Aside place [text] fs changed) (free : Free place (text :: todo) fs)
    (once : text ∉ todo) : Free place todo changed := by
  intro name member
  have other : nameText name ∉ [text] := by
    intro same
    exact once (List.mem_singleton.mp same ▸ member)
  have still := aside.beside other []
  rw [List.append_nil] at still
  exact still.trans (free name (List.mem_cons_of_mem _ member))

/-- What happens to an entry and then to the others. -/
theorem Aside.cons {final : FileSystem} (first : Aside place [text] fs changed)
    (others : Aside place todo changed final) : Aside place (text :: todo) fs final := by
  intro loc outside
  have later := others loc fun name listed => outside name (List.mem_cons_of_mem _ listed)
  have here := first loc fun name listed =>
    outside name (List.mem_singleton.mp listed ▸ List.mem_cons_self)
  exact later.trans here

end Aside

/-- What happens to some entries leaves the rest of the folder to be copied as it was. -/
theorem Filling.of_aside {todo : List CString}
    (filling : Filling cwd machine origin reverse src place tree)
    (aside : Aside place todo machine.system.fs after.system.fs)
    (free : Free place todo machine.system.fs) :
    Filling cwd after origin reverse src place tree where
  source := FileSystem.resolve_mono (fun _ => aside.folders free) filling.source
  has := by
    intro rest
    have outside : ∀ name, nameText name ∈ todo → ¬place ++ [name.reverse] <+: src ++ rest := by
      intro name _
      have apart := filling.apart.below [] [name.reverse]
      rw [List.append_nil] at apart
      exact apart.not_below rest
    exact (aside _ outside).trans (filling.has rest)
  folder := filling.folder
  target := FileSystem.resolve_mono (fun _ => aside.folders free) filling.target
  inside := aside.folders free filling.inside
  apart := filling.apart
  short := filling.short

/-- One entry is copied. -/
theorem copyEntry_copies {call : FolderCall Disk Unit} {buffers : Buffers}
    (calls : below.node = .folder → Copies cwd call below)
    (filling : Filling cwd machine origin reverse src place tree)
    (found : tree.child name = some below)
    (fresh : machine.system.fs.node (place ++ [name.reverse]) = none)
    (input : buffers.pathNewOrigin.text = joined origin (nameText name))
    (output : buffers.pathNewRev.text = joined reverse (nameText name.reverse)) :
    ∃ after, copyEntry (diskSystem cwd order behind) call (dirent tree (nameText name)) .ok buffers
        machine = some (.ok, after) ∧
      Copy machine after (place ++ [name.reverse]) (mirror below) := by
  have ready := filling.ready found fresh
  have proper : isCurrOrPrevDir (nameText name) = false := by
    simp [isCurrOrPrevDir, nameText, name.notDot, name.notDots]
  have parsed : Name.parse (nameText name).bytes = some name := Name.parse_bytes name
  unfold copyEntry dirent
  cases below with
  | folder entries =>
    have type : listedType tree (nameText name) = .dir := by
      simp [listedType, parsed, found]
    have copied := calls rfl machine _ _ _ _ _ ready
    rw [input, output, type]
    simpa [proper] using copied
  | file bytes =>
    have type : listedType tree (nameText name) = .reg := by
      simp [listedType, parsed, found]
    have file : machine.system.fs.node (src ++ [name]) = some (.file bytes) := ready.has.root
    obtain ⟨after, done, copy⟩ := createReverseFile_copies order behind
      ready.source file ready.target ready.inside ready.fresh
    refine ⟨after, ?_, by simpa [mirror] using copy⟩
    rw [input, output, type]
    simp [done]

/-- What the copies of some entries of a folder do. -/
structure Filled (before after : Machine Disk Unit) (place : Location) (tree : Tree)
    (todo : List CString) : Prop where
  /-- The mirrors of the entries are at their places. -/
  placed : ∀ name below, nameText name ∈ todo → tree.child name = some below →
    after.system.fs.Has (place ++ [name.reverse]) (mirror below)
  /-- Everything outside these places is as it was. -/
  kept : ∀ loc, (∀ name, nameText name ∈ todo → ¬place ++ [name.reverse] <+: loc) →
    after.system.fs.node loc = before.system.fs.node loc
  /-- No file was written over. -/
  overwritten : after.system.overwritten = before.system.overwritten
  /-- Nothing went wrong. -/
  notes : ∃ made, after.notes = before.notes ++ made ∧ ∀ note ∈ made, note.Fine

/-- What `readdir` returns for a folder of a tree. -/
def Listed (tree : Tree) (text : CString) : Prop :=
  text = dotText ∨ text = dotsText ∨
    ∃ name below, text = nameText name ∧ tree.child name = some below

/-- A name is neither of the special entries. -/
theorem nameText_ne (name : Name) : nameText name ≠ dotText ∧ nameText name ≠ dotsText := by
  constructor
  · intro same
    exact name.notDot (congrArg CString.bytes same)
  · intro same
    exact name.notDots (congrArg CString.bytes same)

/-- The paths for the entries of a folder are short. -/
theorem Filling.listed_short (filling : Filling cwd machine origin reverse src place tree)
    {text : CString} (listed : Listed tree text) :
    origin.strlen + 1 + text.strlen < maxLenNameFile := by
  have root : tree.look [] = some .folder := congrArg some filling.folder
  have above := (filling.short []).2 root
  rw [strlen_joined] at above
  have two : dotsText.strlen = 2 := rfl
  have one : dotText.strlen = 1 := rfl
  change origin.strlen + 1 + dotsText.strlen < maxLenNameFile at above
  rcases listed with rfl | rfl | ⟨name, below, rfl, found⟩
  · omega
  · exact above
  · have short := filling.short.name found
    rw [strlen_joined] at short
    exact short

/-- Nothing is copied of what has no place. -/
theorem Filled.nothing {todo : List CString} (nameless : ∀ name, nameText name ∉ todo)
    (machine : Machine Disk Unit) (place : Location) (tree : Tree) :
    Filled machine machine place tree todo where
  placed name _ member := absurd member (nameless name)
  kept _ _ := rfl
  overwritten := rfl
  notes := ⟨[], by simp, by simp⟩

/-- The copy of one entry. -/
theorem Filled.single (copy : Copy machine after (place ++ [name.reverse]) (mirror below))
    (found : tree.child name = some below) :
    Filled machine after place tree [nameText name] where
  placed := by
    intro other child member known
    obtain rfl : other = name := nameText_injective (List.mem_singleton.mp member)
    obtain rfl : below = child := Option.some.inj (found.symm.trans known)
    exact copy.placed
  kept loc outside := copy.kept loc (outside name List.mem_cons_self)
  overwritten := copy.overwritten
  notes := copy.notes

/-- Stores before and after the copies. -/
theorem Filled.noted {todo : List CString} {first second : List (Note Unit)}
    (filled : Filled (machine.note first) after place tree todo)
    (before : ∀ note ∈ first, note.Fine) (behind : ∀ note ∈ second, note.Fine) :
    Filled machine (after.note second) place tree todo where
  placed := filled.placed
  kept := filled.kept
  overwritten := filled.overwritten
  notes := by
    obtain ⟨made, notes, fine⟩ := filled.notes
    refine ⟨first ++ made ++ second, ?_, ?_⟩
    · simp [Machine.note, notes]
    · intro note member
      simp only [List.mem_append] at member
      rcases member with (early | inner) | late
      · exact before note early
      · exact fine note inner
      · exact behind note late

/-- The copy of an entry and the copies of the others. -/
theorem Filled.cons {middle : Machine Disk Unit} {text : CString} {todo : List CString}
    (first : Filled machine middle place tree [text])
    (filled : Filled middle after place tree todo) (once : text ∉ todo) :
    Filled machine after place tree (text :: todo) where
  placed := by
    intro name below member known
    rcases List.mem_cons.mp member with rfl | later
    · intro rest
      exact (Aside.beside filled.kept once rest).trans
        (first.placed name below List.mem_cons_self known rest)
    · exact filled.placed name below later known
  kept := Aside.cons first.kept filled.kept
  overwritten := filled.overwritten.trans first.overwritten
  notes := by
    obtain ⟨made, notes, fine⟩ := first.notes
    obtain ⟨more, further, others⟩ := filled.notes
    refine ⟨made ++ more, ?_, ?_⟩
    · rw [further, notes, List.append_assoc]
    · intro note member
      rcases List.mem_append.mp member with early | late
      · exact fine note early
      · exact others note late

/-- A special entry is not copied. -/
theorem copyEntry_special {call : FolderCall Disk Unit} {buffers : Buffers} {text : CString}
    (special : text = dotText ∨ text = dotsText) :
    copyEntry (diskSystem cwd order behind) call (dirent tree text) .ok buffers machine =
      some (.ok, machine) := by
  rcases special with rfl | rfl
  · rfl
  · rfl

/-- Every type in the listing of a tree is one that is copied. -/
theorem listedType_ne_other {text : CString} (listed : Listed tree text) :
    listedType tree text = .dir ∨ listedType tree text = .reg := by
  rcases listed with rfl | rfl | ⟨name, below, rfl, found⟩
  · exact .inl rfl
  · exact .inl rfl
  · have parsed : Name.parse (nameText name).bytes = some name := Name.parse_bytes name
    cases below <;> simp [listedType, parsed, found]

/-- Every entry of a folder is passed over or copied. -/
theorem copyEntry_filled {call : FolderCall Disk Unit} {buffers : Buffers} {text : CString}
    (calls : ∀ name below, tree.child name = some below → below.node = .folder →
      Copies cwd call below)
    (filling : Filling cwd machine origin reverse src place tree) (listed : Listed tree text)
    (free : Free place [text] machine.system.fs)
    (input : buffers.pathNewOrigin.text = joined origin text)
    (output : buffers.pathNewRev.text = joined reverse (reversed text)) :
    ∃ after, copyEntry (diskSystem cwd order behind) call (dirent tree text) .ok buffers machine =
        some (.ok, after) ∧ Filled machine after place tree [text] := by
  rcases listed with rfl | rfl | ⟨name, below, rfl, found⟩
  · have nameless : ∀ name, nameText name ∉ [dotText] :=
      fun name same => (nameText_ne name).1 (List.mem_singleton.mp same)
    exact ⟨machine, copyEntry_special (.inl rfl), .nothing nameless machine place tree⟩
  · have nameless : ∀ name, nameText name ∉ [dotsText] :=
      fun name same => (nameText_ne name).2 (List.mem_singleton.mp same)
    exact ⟨machine, copyEntry_special (.inr rfl), .nothing nameless machine place tree⟩
  · obtain ⟨after, copied, copy⟩ := copyEntry_copies (calls name below found) filling found
      (free name List.mem_cons_self) input output
    exact ⟨after, copied, .single copy found⟩

/-- A step of the loop copies its entry and nothing else. -/
theorem exists_entryStep_filled {call : FolderCall Disk Unit} {buffers : Buffers} {text : CString}
    (calls : ∀ name below, tree.child name = some below → below.node = .folder →
      Copies cwd call below)
    (filling : Filling cwd machine origin reverse src place tree) (listed : Listed tree text)
    (free : Free place [text] machine.system.fs) (blank : buffers.nameRev.Blank)
    (fits : buffers.Fits origin reverse text) :
    ∃ middle, EntryStep (diskSystem cwd order behind) call origin reverse (dirent tree text) .ok
        buffers machine (.next (buffers.build origin reverse text).clear middle) ∧
      Filled machine middle place tree [text] := by
  have noted : Filling cwd (machine.note (buffers.buildNotes origin reverse text)) origin reverse
      src place tree :=
    ⟨filling.source, filling.has, filling.folder, filling.target, filling.inside, filling.apart,
      filling.short⟩
  have input := Buffers.text_pathNewOrigin buffers origin reverse text
  have output := Buffers.text_pathNewRev blank fits
  obtain ⟨middle, copied, filled⟩ : ∃ middle, copyEntry (diskSystem cwd order behind) call
      (dirent tree text) .ok (buffers.build origin reverse text)
      (machine.note (buffers.buildNotes origin reverse text)) = some (.ok, middle) ∧
      Filled (machine.note (buffers.buildNotes origin reverse text)) middle place tree [text] :=
    copyEntry_filled calls noted listed free input output
  have known : (dirent tree text).type ≠ .other :=
    (type_known _).mp (listedType_ne_other listed)
  exact ⟨middle.note (buffers.build origin reverse text).clearNotes,
    .copied buffers middle (fits.correct _ rfl) rfl copied known,
    filled.noted (Buffers.buildNotes_fine blank fits) (Buffers.clearNotes_fine fits)⟩

/-- The loop of `fill_folder` copies the entries it is given, in their order. -/
theorem fillEntries_copies {call : FolderCall Disk Unit}
    (calls : ∀ name below, tree.child name = some below → below.node = .folder →
      Copies cwd call below) {todo : List CString} {buffers : Buffers}
    (filling : Filling cwd machine origin reverse src place tree)
    (listed : ∀ text ∈ todo, Listed tree text) (nodup : todo.Nodup)
    (free : Free place todo machine.system.fs)
    (blank : buffers.nameRev.Blank)
    (fits : ∀ text, Listed tree text → buffers.Fits origin reverse text) :
    ∃ after, fillEntries (diskSystem cwd order behind) call origin reverse
        (todo.map (dirent tree)) .ok buffers machine = some (.ok, after) ∧
      Filled machine after place tree todo := by
  induction todo generalizing machine buffers with
  | nil => exact ⟨machine, rfl, .nothing (fun _ => List.not_mem_nil) machine place tree⟩
  | cons text todo ih =>
    have here : Listed tree text := listed text List.mem_cons_self
    have fit := fits text here
    obtain ⟨once, distinct⟩ := List.nodup_cons.mp nodup
    have only : Free place [text] machine.system.fs :=
      fun name same => free name (List.mem_singleton.mp same ▸ List.mem_cons_self)
    obtain ⟨middle, step, filled⟩ := exists_entryStep_filled calls filling here only blank fit
    obtain ⟨after, done, others⟩ := ih (filling.of_aside filled.kept only)
      (fun other later => listed other (List.mem_cons_of_mem _ later)) distinct
      (Aside.free filled.kept free once) (Buffers.blank_next blank fit)
      fun next known => fit.next (filling.listed_short known)
    exact ⟨after, (step.fillEntries _).trans done, filled.cons others once⟩

/-- `readdir` returns the two special entries and every entry of a folder, each once. -/
structure Lists (order : FileSystem → Location → List CString) : Prop where
  /-- Nothing is listed twice. -/
  nodup : ∀ fs loc, (order fs loc).Nodup
  /-- The special entries and the names of a folder are listed, and nothing else. -/
  mem : ∀ fs loc text, fs.node loc = some .folder → (text ∈ order fs loc ↔
    text = dotText ∨ text = dotsText ∨
      ∃ name, text = nameText name ∧ fs.node (loc ++ [name]) ≠ none)

/-- The children of a tree are the entries of the folder where it is. -/
theorem node_child {fs : FileSystem} (has : fs.Has src tree) (name : Name) :
    fs.node (src ++ [name]) ≠ none ↔ ∃ below, tree.child name = some below := by
  rw [has [name]]
  cases found : tree.child name <;> simp [Tree.look, found]

/-- A listing is that of the tree that is there. -/
theorem Lists.listed (lists : Lists order) {fs : FileSystem} (has : fs.Has src tree)
    (folder : fs.node src = some .folder) (text : CString) :
    text ∈ order fs src ↔ Listed tree text := by
  rw [lists.mem fs src text folder]
  unfold Listed
  simp only [node_child has]
  constructor
  · rintro (first | second | ⟨name, same, below, found⟩)
    · exact .inl first
    · exact .inr (.inl second)
    · exact .inr (.inr ⟨name, below, same, found⟩)
  · rintro (first | second | ⟨name, below, same, found⟩)
    · exact .inl first
    · exact .inr (.inl second)
    · exact .inr (.inr ⟨name, same, below, found⟩)

/-- A path that resolves is not empty. -/
theorem strlen_pos {fs : FileSystem} {path : CString} {loc : Location}
    (known : fs.resolve cwd path = some loc) : 0 < path.strlen := by
  unfold FileSystem.resolve at known
  split at known
  · cases known
  · rename_i nonempty
    exact List.length_pos_iff.mpr nonempty

/-- The buffers of `fill_folder` when it starts. -/
def newBuffers (behind : List UInt8) (origin reverse : CString) : Buffers where
  nameRev := ⟨maxLenNameFile, List.replicate maxLenNameFile 0 ++ behind⟩
  pathNewRev := ⟨maxLenNameFile + reverse.strlen,
    List.replicate (maxLenNameFile + reverse.strlen) 0 ++ behind⟩
  pathNewOrigin := ⟨maxLenNameFile + origin.strlen,
    List.replicate (maxLenNameFile + origin.strlen) 0 ++ behind⟩

/-- Memory full of zeros is blank. -/
theorem newBuffers_blank (behind : List UInt8) (origin reverse : CString) :
    (newBuffers behind origin reverse).nameRev.Blank := by
  intro byte member
  unfold newBuffers at member
  rw [List.take_append_of_le_length (by simp)] at member
  exact (List.mem_replicate.mp (List.mem_of_mem_take member)).2

/-- `fill_folder` copies all entries into a folder that is empty. -/
theorem fillFolder_copies (lists : Lists order) {call : FolderCall Disk Unit}
    (calls : ∀ name below, tree.child name = some below → below.node = .folder →
      Copies cwd call below)
    (filling : Filling cwd machine origin reverse src place tree)
    (fresh : ∀ name rest, machine.system.fs.node (place ++ name :: rest) = none) :
    ∃ after, fillFolder (diskSystem cwd order behind) call () origin reverse machine =
        some (.ok, after) ∧
      Filled machine after place tree (order machine.system.fs src) := by
  have folder := filling.source_folder
  have listed := lists.listed filling.has folder
  have nonempty := strlen_pos filling.source
  have fits : ∀ text, Listed tree text →
      (newBuffers behind origin reverse).Fits origin reverse text :=
    fun text known => ⟨rfl, rfl, rfl, filling.listed_short known, nonempty⟩
  have copies : ∃ after, fillEntries (diskSystem cwd order behind) call origin reverse
        ((order machine.system.fs src).map (dirent tree)) .ok (newBuffers behind origin reverse)
        machine = some (.ok, after) ∧
      Filled machine after place tree (order machine.system.fs src) :=
    fillEntries_copies calls filling (fun text => (listed text).mp) (lists.nodup _ _)
      (fun name _ => fresh name.reverse []) (newBuffers_blank behind origin reverse) fits
  obtain ⟨after, done, filled⟩ := copies
  have dirents : (order machine.system.fs src).map (fun text =>
      (⟨text, entryType machine.system.fs src text, ()⟩ : Dirent Unit)) =
      (order machine.system.fs src).map (dirent tree) := by
    apply List.map_congr_left
    intro text _
    rw [entryType_eq filling.has]
    rfl
  refine ⟨after, ?_, filled⟩
  rw [← done, ← dirents]
  simp [fillFolder, diskSystem, filling.source, folder, newBuffers]

/-- The copies of all entries of a folder make a copy of the folder. -/
theorem Filled.copy {made : Machine Disk Unit} {todo : List CString}
    (filled : Filled made after place tree todo) (folder : tree.node = .folder)
    (listed : ∀ name, nameText name ∈ todo ↔ ∃ below, tree.child name = some below)
    (inside : made.system.fs.node place = some .folder)
    (fresh : ∀ name rest, made.system.fs.node (place ++ name :: rest) = none)
    (kept : ∀ loc, ¬place <+: loc → made.system.fs.node loc = machine.system.fs.node loc)
    (overwritten : made.system.overwritten = machine.system.overwritten)
    (notes : made.notes = machine.notes ++ [.copied ()]) :
    Copy machine after place (mirror tree) where
  placed := by
    intro rest
    cases rest with
    | nil =>
      have root : (mirror tree).look [] = some .folder := by
        cases tree with
        | file bytes => cases folder
        | folder entries => rfl
      have outside : ∀ name, nameText name ∈ todo → ¬place ++ [name.reverse] <+: place := by
        intro name _ below
        have lengths := below.length_le
        simp at lengths
      rw [List.append_nil, root, filled.kept place outside]
      exact inside
    | cons first rest =>
      have look : (mirror tree).look (first :: rest) =
          (tree.child first.reverse).bind fun below => (mirror below).look rest := by
        have child := child_mirror tree first.reverse
        rw [Name.reverse_reverse] at child
        simp only [Tree.look, child]
        cases tree.child first.reverse <;> rfl
      rw [look]
      cases found : tree.child first.reverse with
      | some below =>
        have placed := filled.placed first.reverse below ((listed _).mpr ⟨below, found⟩) found rest
        rw [Name.reverse_reverse, List.append_assoc] at placed
        exact placed
      | none =>
        have outside : ∀ name, nameText name ∈ todo →
            ¬place ++ [name.reverse] <+: place ++ first :: rest := by
          intro name member
          apply not_below_sibling
          rintro rfl
          obtain ⟨below, known⟩ := (listed name).mp member
          rw [Name.reverse_reverse, known] at found
          cases found
        rw [filled.kept _ outside]
        exact fresh first rest
  kept := by
    intro loc outside
    have beyond : ∀ name, nameText name ∈ todo → ¬place ++ [name.reverse] <+: loc := by
      intro name _ below
      exact outside ((List.prefix_append place _).trans below)
    exact (filled.kept loc beyond).trans (kept loc outside)
  overwritten := filled.overwritten.trans overwritten
  notes := by
    obtain ⟨more, further, fine⟩ := filled.notes
    refine ⟨.copied () :: more, ?_, ?_⟩
    · rw [further, notes]
      simp
    · intro note member
      rcases List.mem_cons.mp member with rfl | later
      · trivial
      · exact fine note later

/-- The folder that `mkdir` makes at a free place is empty, everything outside it is as it was, and
it can be filled. -/
theorem Ready.make {parent : Location}
    (ready : Ready cwd machine origin reverse src parent name tree) (folder : tree.node = .folder) :
    ∃ fs, machine.system.fs.put (parent ++ [name]) .folder = some fs ∧
      (∀ first rest, fs.node (parent ++ [name] ++ first :: rest) = none) ∧
      (∀ loc, ¬parent ++ [name] <+: loc → fs.node loc = machine.system.fs.node loc) ∧
      ∀ middle : Machine Disk Unit, middle.system.fs = fs →
        Filling cwd middle origin reverse src (parent ++ [name]) tree := by
  have allowed : machine.system.fs.node (parent ++ [name]) ≠ some .folder ∨
      Node.folder = .folder := .inr rfl
  obtain ⟨fs, put, nodes⟩ := FileSystem.put_eq_some ready.inside allowed
  have absent : machine.system.fs.node (parent ++ [name]) ≠ some .folder := by
    simp [ready.fresh]
  have folders : ∀ loc, machine.system.fs.node loc = some .folder →
      fs.node loc = some .folder :=
    fun _ => FileSystem.folders_of_put nodes absent
  have kept : ∀ loc, ¬parent ++ [name] <+: loc →
      fs.node loc = machine.system.fs.node loc := by
    intro loc outside
    have other : loc ≠ parent ++ [name] := by
      rintro rfl
      exact outside List.prefix_rfl
    rw [nodes loc, if_neg other]
  refine ⟨fs, put, ?_, kept, ?_⟩
  · intro first rest
    have other : parent ++ [name] ++ first :: rest ≠ parent ++ [name] := by
      intro same
      have lengths := congrArg List.length same
      simp at lengths
    rw [nodes, if_neg other]
    exact FileSystem.node_below ready.fresh _
  · rintro middle rfl
    exact ⟨FileSystem.resolve_mono folders ready.source,
      fun rest => (kept _ (ready.apart.not_below rest)).trans (ready.has rest), folder,
      FileSystem.resolve_mono folders ready.target, (nodes _).trans (if_pos rfl), ready.apart,
      ready.short⟩

/-- `create_reverse_folder` copies every folder that is not deeper than its recursion. -/
theorem createReverseFolder_copies (lists : Lists order) {limit : Nat} {tree : Tree}
    (folder : tree.node = .folder) (shallow : depth tree ≤ limit) :
    Copies cwd (createReverseFolder (diskSystem cwd order behind) limit) tree := by
  induction limit generalizing tree with
  | zero =>
    cases tree with
    | file bytes => cases folder
    | folder entries =>
      unfold depth at shallow
      omega
  | succ limit ih =>
    intro machine origin reverse src parent name ready
    obtain ⟨fs, put, empty, kept, fills⟩ := ready.make folder
    have filling := fills ⟨⟨fs, machine.system.overwritten⟩, machine.notes ++ [.copied ()]⟩ rfl
    have calls : ∀ first below, tree.child first = some below → below.node = .folder →
        Copies cwd (createReverseFolder (diskSystem cwd order behind) limit) below := by
      intro first below found inner
      have less := depth_child found
      exact ih inner (by omega)
    obtain ⟨after, done, filled⟩ := fillFolder_copies lists calls filling empty
    refine ⟨after, ?_, filled.copy folder ?_ filling.inside empty kept rfl rfl⟩
    · simp only [createReverseFolder]
      have made : (diskSystem cwd order behind).mkdir () reverse machine.system =
          some ⟨fs, machine.system.overwritten⟩ := by
        simp [diskSystem, ready.target, ready.fresh, put]
      rw [made]
      simp only [Machine.note]
      rw [done]
      rfl
    · intro first
      rw [lists.listed filling.has filling.source_folder]
      constructor
      · rintro (same | same | ⟨other, below, same, found⟩)
        · exact absurd same (nameText_ne first).1
        · exact absurd same (nameText_ne first).2
        · rw [nameText_injective same]
          exact ⟨below, found⟩
      · rintro ⟨below, found⟩
        exact .inr (.inr ⟨first, below, rfl, found⟩)

end Disk

end NsuOs.Mirror
