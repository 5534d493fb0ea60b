import NsuOs.Mirror.Copies

/-!
# Mirroring a tree is exact and undoes itself

On a file system that does not fail `create_reverse_folder` puts the mirror of the tree at its
source where its target is and changes nothing else, and mirroring the mirror gives the tree. The
system is not an empty notion: a listing in the order in which the nodes were made is one of those
the theorem is about.
-/
namespace NsuOs.Mirror

/-- What `create_reverse_folder` does to a tree: it returns `OK`, the mirror of the tree is at the
target, everything else is as it was, no file was written over, no call failed and no store left
its block. -/
structure Mirrored (system : System Disk Unit) (limit : Nat) (fs : FileSystem)
    (source target : CString) (place : Location) (tree : Tree) (after : Machine Disk Unit) :
    Prop where
  /-- The call returns `OK`. -/
  returned : createReverseFolder system limit () source target ⟨⟨fs, []⟩, []⟩ = some (.ok, after)
  /-- The mirror of the tree is at the target. -/
  placed : after.system.fs.Has place (mirror tree)
  /-- Everything outside is as it was. -/
  kept : ∀ loc, ¬place <+: loc → after.system.fs.node loc = fs.node loc
  /-- No file was written over. -/
  overwritten : after.system.overwritten = []
  /-- No call failed and no store left its block. -/
  fine : ∀ note ∈ after.notes, note.Fine

section Mirrored

variable {cwd : Location} {order : FileSystem → Location → List CString} {behind : List UInt8}
  {limit : Nat} {fs : FileSystem} {source target : CString} {src place : Location} {tree : Tree}

/-- A tree is mirrored to a place that is free and not inside it. -/
theorem mirrored_of_free (behind : List UInt8) (lists : Lists order) (folder : tree.node = .folder)
    (shallow : depth tree ≤ limit) (home : fs.node cwd = some .folder)
    (reading : fs.resolve cwd source = some src) (has : fs.Has src tree)
    (writing : fs.resolve cwd target = some place) (fresh : fs.node place = none)
    (outside : ¬src <+: place) (short : Short source tree) :
    ∃ after, Mirrored (diskSystem cwd order behind) limit fs source target place tree after := by
  obtain ⟨parent, name, rfl, inside⟩ := FileSystem.resolve_fresh home writing fresh
  have apart : Apart src (parent ++ [name]) := apart_of_not_below outside (has.not_below fresh)
  have ready : Ready cwd ⟨⟨fs, []⟩, []⟩ source target src parent name tree :=
    ⟨reading, has, writing, inside, fresh, apart, short⟩
  obtain ⟨after, done, copy⟩ := createReverseFolder_copies lists folder shallow _ _ _ _ _ _ ready
  obtain ⟨made, notes, fine⟩ := copy.notes
  refine ⟨after, done, copy.placed, copy.kept, copy.overwritten, ?_⟩
  rw [notes]
  simpa using fine

/-- `create_reverse_folder` mirrors a tree exactly and leaves its source; mirroring the result to
another free place gives the tree again. -/
theorem create_reverse_folder_mirrors (behind : List UInt8) (lists : Lists order)
    (folder : tree.node = .folder) (shallow : depth tree ≤ limit)
    (home : fs.node cwd = some .folder)
    (reading : fs.resolve cwd source = some src) (has : fs.Has src tree)
    (writing : fs.resolve cwd target = some place) (fresh : fs.node place = none)
    (outside : ¬src <+: place) (short : Short source tree)
    (shortTarget : Short target (mirror tree)) :
    ∃ after, Mirrored (diskSystem cwd order behind) limit fs source target place tree after ∧
      after.system.fs.Has src tree ∧
      ∀ back again, after.system.fs.resolve cwd back = some again →
        after.system.fs.node again = none → ¬place <+: again →
        ∃ last, Mirrored (diskSystem cwd order behind) limit after.system.fs target back again
            (mirror tree) last ∧ last.system.fs.Has again tree := by
  have apart : Apart src place := apart_of_not_below outside (has.not_below fresh)
  obtain ⟨after, mirrored⟩ := mirrored_of_free behind lists folder shallow home reading
    has writing fresh outside short
  have folders : ∀ loc, fs.node loc = some .folder →
      after.system.fs.node loc = some .folder :=
    fun _ => FileSystem.folders_of_kept fresh mirrored.kept
  refine ⟨after, mirrored, ?_, ?_⟩
  · intro rest
    rw [mirrored.kept _ (apart.not_below rest)]
    exact has rest
  · intro back again resolved free beyond
    obtain ⟨last, twice⟩ := mirrored_of_free behind lists (node_mirror folder)
      ((depth_mirror tree).le.trans shallow) (folders cwd home)
      (FileSystem.resolve_mono folders writing) mirrored.placed resolved free beyond shortTarget
    refine ⟨last, twice, ?_⟩
    have placed := twice.placed
    rw [mirror_mirror] at placed
    exact placed

end Mirrored

/-- The name of an entry of a folder at another location. -/
def childOf (loc other : Location) : Option Name :=
  if other.dropLast = loc then other.getLast? else none

/-- A listing in the order in which the nodes were made. -/
def listing (fs : FileSystem) (loc : Location) : List CString :=
  dotText :: dotsText :: (((fs.support.filterMap (childOf loc)).filter fun name =>
    fs.node (loc ++ [name]) ≠ none).dedup.map nameText)

/-- The entries of a folder are in its listing. -/
theorem mem_listing {fs : FileSystem} {loc : Location} {name : Name} :
    nameText name ∈ (((fs.support.filterMap (childOf loc)).filter fun name =>
      fs.node (loc ++ [name]) ≠ none).dedup.map nameText) ↔ fs.node (loc ++ [name]) ≠ none := by
  constructor
  · intro member
    obtain ⟨other, found, same⟩ := List.mem_map.mp member
    rw [nameText_injective same, List.mem_dedup, List.mem_filter] at found
    exact of_decide_eq_true found.2
  · intro present
    apply List.mem_map_of_mem
    rw [List.mem_dedup, List.mem_filter]
    refine ⟨List.mem_filterMap.mpr ⟨loc ++ [name], fs.finite _ present, ?_⟩, decide_eq_true present⟩
    simp [childOf]

/-- This listing is complete and without repetitions. -/
theorem listing_lists : Lists listing where
  nodup fs loc := by
    have apart : dotText ≠ dotsText := by decide
    have names : ∀ text ∈ (((fs.support.filterMap (childOf loc)).filter fun name =>
        fs.node (loc ++ [name]) ≠ none).dedup.map nameText), text ≠ dotText ∧ text ≠ dotsText := by
      intro text member
      obtain ⟨name, -, rfl⟩ := List.mem_map.mp member
      exact nameText_ne name
    refine List.nodup_cons.mpr ⟨?_, List.nodup_cons.mpr ⟨?_, ?_⟩⟩
    · intro member
      rcases List.mem_cons.mp member with same | later
      · exact apart same
      · exact (names dotText later).1 rfl
    · intro member
      exact (names dotsText member).2 rfl
    · exact (List.nodup_dedup _).map fun _ _ => nameText_injective
  mem fs loc text _ := by
    unfold listing
    rw [List.mem_cons, List.mem_cons]
    constructor
    · rintro (first | second | member)
      · exact .inl first
      · exact .inr (.inl second)
      · obtain ⟨name, found, rfl⟩ := List.mem_map.mp member
        exact .inr (.inr ⟨name, rfl, mem_listing.mp member⟩)
    · rintro (first | second | ⟨name, rfl, present⟩)
      · exact .inl first
      · exact .inr (.inl second)
      · exact .inr (.inr (mem_listing.mpr present))

/-- The file system with nothing but its root. -/
def bareFs : FileSystem where
  node loc := if loc = [] then some .folder else none
  support := [[]]
  finite loc present := by
    by_contra other
    simp_all
  root := rfl
  closed loc name present := by simp at present

/-- The name of a folder. -/
def nameA : Name := ⟨[97], by decide, by decide, by decide, by decide, by decide⟩

/-- The name of a file. -/
def nameBC : Name := ⟨[98, 99], by decide, by decide, by decide, by decide, by decide⟩

/-- A folder in the root with one file in it. -/
def smallFs : FileSystem :=
  (bareFs.place [] nameA .folder rfl (.inr rfl)).place [nameA] nameBC (.file [1, 2, 3])
    (by decide) (.inl (by decide))

/-- The tree at that folder. -/
def smallTree : Tree := .folder [(nameBC, .file [1, 2, 3])]

/-- The tree is where it should be. -/
theorem smallFs_has : smallFs.Has [nameA] smallTree := by
  intro rest
  cases rest with
  | nil => rfl
  | cons first rest =>
    by_cases same : first = nameBC
    · cases rest with
      | nil =>
        rw [same]
        rfl
      | cons second rest => simp [smallFs, FileSystem.place, bareFs, smallTree, Tree.look,
          Tree.child, same]
    · simp [smallFs, FileSystem.place, bareFs, smallTree, Tree.look, Tree.child, List.lookup_cons,
        same, beq_false_of_ne same]

/-- A tree of one file has its root and the file. -/
theorem look_single {name : Name} {bytes : List UInt8} {rest : Location}
    (present : (Tree.folder [(name, .file bytes)]).look rest ≠ none) :
    rest = [] ∨ rest = [name] := by
  cases rest with
  | nil => exact .inl rfl
  | cons first rest =>
    by_cases same : first = name
    · cases rest with
      | nil => exact .inr (by rw [same])
      | cons second rest => simp [Tree.look, Tree.child, same] at present
    · simp [Tree.look, Tree.child, List.lookup_cons, beq_false_of_ne same] at present

/-- The paths of a tree of one file are short when these three are. -/
theorem short_single {path : CString} {name : Name} {bytes : List UInt8}
    (root : path.strlen < maxLenNameFile)
    (above : (joined path dotsText).strlen < maxLenNameFile)
    (file : (joined path (nameText name)).strlen < maxLenNameFile) :
    Short path (.folder [(name, .file bytes)]) := by
  intro rest
  constructor
  · intro present
    rcases look_single present with rfl | rfl
    · exact root
    · exact file
  · intro folder
    have present : (Tree.folder [(name, .file bytes)]).look rest ≠ none := by simp [folder]
    rcases look_single present with rfl | rfl
    · exact above
    · simp [Tree.look, Tree.child, Tree.node] at folder

/-- The path of the folder. -/
def pathA : CString := ⟨[97], by decide⟩

/-- The path of its copy. -/
def pathD : CString := ⟨[100], by decide⟩

/-- The name of its copy. -/
def nameD : Name := ⟨[100], by decide, by decide, by decide, by decide, by decide⟩

/-- The folder `a` is mirrored to `d`. -/
theorem create_reverse_folder_mirrors_small :
    ∃ after, Mirrored (diskSystem [] listing [7, 7]) 1 smallFs pathA pathD [nameD] smallTree after ∧
      after.system.fs.Has [nameA] smallTree := by
  have reading : smallFs.resolve [] pathA = some [nameA] := by decide
  have writing : smallFs.resolve [] pathD = some [nameD] := by decide
  have fresh : smallFs.node [nameD] = none := by decide
  have outside : ¬[nameA] <+: [nameD] := by decide
  have short : Short pathA smallTree := short_single (by decide) (by decide) (by decide)
  have shortTarget : Short pathD (mirror smallTree) :=
    short_single (by decide) (by decide) (by decide)
  obtain ⟨after, mirrored, source, -⟩ := create_reverse_folder_mirrors [7, 7] listing_lists rfl
    (Nat.le_refl 1) smallFs.root reading smallFs_has writing fresh outside short shortTarget
  exact ⟨after, mirrored, source⟩

end NsuOs.Mirror
