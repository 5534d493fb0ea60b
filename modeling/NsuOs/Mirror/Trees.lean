import NsuOs.Mirror.Disk

/-!
# Trees and their mirrors

The mirror of a tree has every name and the bytes of every file reversed; the mirror of the mirror
is the tree. The paths built below a path for a tree are short when they and the entry for the
folder above fit into the buffers of `fill_folder`. Two locations are apart when nothing lies below
both.
-/
namespace NsuOs.Mirror

mutual

/-- The tree with all names and the bytes of all files reversed. -/
def mirror : Tree → Tree
  | .file bytes => .file bytes.reverse
  | .folder entries => .folder (mirrorEntries entries)

/-- The mirrors of the entries of a folder. -/
def mirrorEntries : List (Name × Tree) → List (Name × Tree)
  | [] => []
  | (name, tree) :: rest => (name.reverse, mirror tree) :: mirrorEntries rest

end

mutual

/-- The number of folders on the longest way down. -/
def depth : Tree → Nat
  | .file _ => 0
  | .folder entries => depthEntries entries + 1

/-- The depth of the deepest entry of a folder. -/
def depthEntries : List (Name × Tree) → Nat
  | [] => 0
  | (_, tree) :: rest => max (depth tree) (depthEntries rest)

end

mutual

/-- The mirror of the mirror is the tree. -/
theorem mirror_mirror : ∀ tree, mirror (mirror tree) = tree
  | .file bytes => by simp [mirror]
  | .folder entries => by simp [mirror, mirrorEntries_mirrorEntries entries]

/-- The mirrors of the mirrors are the entries. -/
theorem mirrorEntries_mirrorEntries : ∀ entries, mirrorEntries (mirrorEntries entries) = entries
  | [] => rfl
  | (name, tree) :: rest => by
    simp [mirrorEntries, mirror_mirror tree, mirrorEntries_mirrorEntries rest]

end

/-- The entry of the mirror under a reversed name is the mirror of the entry. -/
theorem lookup_mirrorEntries (entries : List (Name × Tree)) (name : Name) :
    (mirrorEntries entries).lookup name.reverse = (entries.lookup name).map mirror := by
  induction entries with
  | nil => rfl
  | cons entry rest ih =>
    obtain ⟨key, tree⟩ := entry
    by_cases same : name = key
    · simp [mirrorEntries, same]
    · have apart : ¬name.reverse = key.reverse := fun equal => same (Name.reverse_injective equal)
      simp only [mirrorEntries, List.lookup_cons, beq_false_of_ne same, beq_false_of_ne apart]
      exact ih

/-- The child of the mirror under a reversed name is the mirror of the child. -/
theorem child_mirror (tree : Tree) (name : Name) :
    (mirror tree).child name.reverse = (tree.child name).map mirror := by
  cases tree with
  | file bytes => rfl
  | folder entries => exact lookup_mirrorEntries entries name

/-- An entry of a folder is less deep than the deepest. -/
theorem depth_lookup {entries : List (Name × Tree)} {name : Name} {below : Tree}
    (found : entries.lookup name = some below) : depth below ≤ depthEntries entries := by
  induction entries with
  | nil => cases found
  | cons entry rest ih =>
    obtain ⟨key, tree⟩ := entry
    by_cases same : name = key
    · have here : tree = below := by simpa [same] using found
      rw [← here]
      exact Nat.le_max_left _ _
    · simp only [List.lookup_cons, beq_false_of_ne same] at found
      exact Nat.le_trans (ih found) (Nat.le_max_right _ _)

/-- A child is less deep than its folder. -/
theorem depth_child {tree below : Tree} {name : Name} (found : tree.child name = some below) :
    depth below < depth tree := by
  cases tree with
  | file bytes => cases found
  | folder entries => exact Nat.lt_succ_of_le (depth_lookup found)

mutual

/-- A mirror is as deep as its tree. -/
theorem depth_mirror : ∀ tree, depth (mirror tree) = depth tree
  | .file _ => rfl
  | .folder entries => by simp [mirror, depth, depthEntries_mirrorEntries entries]

/-- The mirrors of entries are as deep as the entries. -/
theorem depthEntries_mirrorEntries : ∀ entries,
    depthEntries (mirrorEntries entries) = depthEntries entries
  | [] => rfl
  | (_, tree) :: rest => by
    simp [mirrorEntries, depthEntries, depth_mirror tree, depthEntries_mirrorEntries rest]

end

/-- A folder is mirrored as a folder. -/
theorem node_mirror {tree : Tree} (folder : tree.node = .folder) :
    (mirror tree).node = .folder := by
  cases tree with
  | file bytes => cases folder
  | folder entries => rfl

/-- The name as a string. -/
def nameText (name : Name) : CString := ⟨name.bytes, name.nulFree⟩

/-- The path to a location below a path. -/
def pathTo : CString → Location → CString
  | path, [] => path
  | path, name :: rest => pathTo (joined path (nameText name)) rest

/-- The entry for the folder above. -/
def dotsText : CString := ⟨dots, by decide⟩

/-- The entry for the folder itself. -/
def dotText : CString := ⟨dot, by decide⟩

/-- Every path built below a path for a tree, the entry for the folder above included, is shorter
than the buffers. -/
def Short (path : CString) (tree : Tree) : Prop :=
  ∀ rest, (tree.look rest ≠ none → (pathTo path rest).strlen < maxLenNameFile) ∧
    (tree.look rest = some .folder →
      (joined (pathTo path rest) dotsText).strlen < maxLenNameFile)

/-- The paths below a child are paths below the tree. -/
theorem Short.child {path : CString} {tree below : Tree} {name : Name} (short : Short path tree)
    (found : tree.child name = some below) : Short (joined path (nameText name)) below := by
  intro rest
  have there := short (name :: rest)
  simpa [Tree.look, found, pathTo] using there

/-- The path of a child is short. -/
theorem Short.name {path : CString} {tree below : Tree} {name : Name} (short : Short path tree)
    (found : tree.child name = some below) :
    (joined path (nameText name)).strlen < maxLenNameFile := by
  have there := (short.child found []).1
  apply there
  simp [Tree.look]

/-- Nothing lies below both locations. -/
def Apart (first second : Location) : Prop := ∀ left right, first ++ left ≠ second ++ right

/-- What lies below two such locations is apart too. -/
theorem Apart.below {first second : Location} (apart : Apart first second)
    (left right : Location) : Apart (first ++ left) (second ++ right) := by
  intro more further same
  rw [List.append_assoc, List.append_assoc] at same
  exact apart _ _ same

/-- What lies below the first is not below the second. -/
theorem Apart.not_below {first second : Location} (apart : Apart first second)
    (rest : Location) : ¬second <+: first ++ rest := by
  rintro ⟨right, same⟩
  exact apart rest right same.symm

/-- Two locations neither of which is below the other are apart. -/
theorem apart_of_not_below {first second : Location} (left : ¬first <+: second)
    (right : ¬second <+: first) : Apart first second := by
  intro more further same
  have below : second <+: first ++ more := ⟨further, same.symm⟩
  rcases List.prefix_or_prefix_of_prefix (List.prefix_append first more) below with inside | inside
  · exact left inside
  · exact right inside

/-- Below a folder, what is under one name is not under another. -/
theorem not_below_sibling {folder rest : Location} {first second : Name} (other : first ≠ second) :
    ¬folder ++ [first] <+: folder ++ second :: rest := by
  intro below
  rw [List.prefix_append_right_inj, List.cons_prefix_cons] at below
  exact other below.1

end NsuOs.Mirror
