import NsuOs.Base.CString

/-!
# A file system of folders and regular files

A file system gives the node at every location, the list of names that leads to it from the root.
It carries its own well-formedness: the root is a folder, everything else lies in a folder and
there are finitely many nodes. A path is resolved component by component, from the root or from a
current folder; a path that resolves goes on resolving as long as folders stay folders. A tree is
what can lie below a location: it is known by what it has at each location below its own root.
-/
namespace NsuOs

/-- The byte between two components of a path. -/
def slash : UInt8 := 47

/-- The component that stays in a folder. -/
def dot : List UInt8 := [46]

/-- The component that goes back to the folder above. -/
def dots : List UInt8 := [46, 46]

/-- The name of an entry: a non-empty component other than the two special ones. -/
structure Name where
  /-- The bytes of the name. -/
  bytes : List UInt8
  /-- There is at least one. -/
  nonempty : bytes ≠ []
  /-- No byte is the terminator. -/
  nulFree : 0 ∉ bytes
  /-- No byte is a slash. -/
  slashFree : slash ∉ bytes
  /-- It is not the name of the folder itself. -/
  notDot : bytes ≠ dot
  /-- It is not the name of the folder above. -/
  notDots : bytes ≠ dots

/-- A name is its bytes. -/
@[ext] theorem Name.ext {left right : Name} (same : left.bytes = right.bytes) : left = right := by
  cases left
  cases right
  simpa using same

/-- Names are compared by their bytes. -/
instance : DecidableEq Name := fun left right =>
  decidable_of_iff (left.bytes = right.bytes) ⟨Name.ext, congrArg Name.bytes⟩

/-- The entry that a component names. -/
def Name.parse (bytes : List UInt8) : Option Name :=
  if proper : bytes ≠ [] ∧ 0 ∉ bytes ∧ slash ∉ bytes ∧ bytes ≠ dot ∧ bytes ≠ dots then
    some ⟨bytes, proper.1, proper.2.1, proper.2.2.1, proper.2.2.2.1, proper.2.2.2.2⟩
  else none

/-- A name is read back from its bytes. -/
@[simp] theorem Name.parse_bytes (name : Name) : Name.parse name.bytes = some name := by
  have proper : name.bytes ≠ [] ∧ 0 ∉ name.bytes ∧ slash ∉ name.bytes ∧ name.bytes ≠ dot ∧
      name.bytes ≠ dots :=
    ⟨name.nonempty, name.nulFree, name.slashFree, name.notDot, name.notDots⟩
  unfold Name.parse
  rw [dif_pos proper]

/-- The name with its bytes in reverse order. -/
def Name.reverse (name : Name) : Name where
  bytes := name.bytes.reverse
  nonempty := by simpa using name.nonempty
  nulFree := by simpa using name.nulFree
  slashFree := by simpa using name.slashFree
  notDot same := name.notDot (by simpa [dot] using congrArg List.reverse same)
  notDots same := name.notDots (by simpa [dots] using congrArg List.reverse same)

/-- Reversing a name twice gives it back. -/
@[simp] theorem Name.reverse_reverse (name : Name) : name.reverse.reverse = name := by
  ext1
  exact List.reverse_reverse name.bytes

/-- Two names with the same reverse are the same. -/
theorem Name.reverse_injective {left right : Name} (same : left.reverse = right.reverse) :
    left = right := by
  rw [← left.reverse_reverse, same, right.reverse_reverse]

/-- The names that lead from the root to a node. -/
abbrev Location := List Name

/-- What a node is. -/
inductive Node
  /-- A folder. -/
  | folder
  /-- A file with its bytes. -/
  | file (bytes : List UInt8)
  deriving DecidableEq

/-- The nodes by location. -/
structure FileSystem where
  /-- What is at a location. -/
  node : Location → Option Node
  /-- Locations among which all that exist are. -/
  support : List Location
  /-- What exists is among them. -/
  finite : ∀ loc, node loc ≠ none → loc ∈ support
  /-- The root is a folder. -/
  root : node [] = some .folder
  /-- Whatever exists is inside a folder. -/
  closed : ∀ loc name, node (loc ++ [name]) ≠ none → node loc = some .folder

namespace FileSystem

variable {fs after : FileSystem} {loc : Location} {name : Name}

/-- A location does not lie below itself. -/
theorem ne_append_singleton (loc : Location) (name : Name) : loc ≠ loc ++ [name] := by
  intro same
  have lengths := congrArg List.length same
  simp at lengths

/-- A node is put into a folder; a folder already there is not replaced by a file. -/
def place (fs : FileSystem) (loc : Location) (name : Name) (value : Node)
    (inside : fs.node loc = some .folder)
    (kept : fs.node (loc ++ [name]) ≠ some .folder ∨ value = .folder) : FileSystem where
  node other := if other = loc ++ [name] then some value else fs.node other
  support := (loc ++ [name]) :: fs.support
  finite other present := by
    by_cases same : other = loc ++ [name]
    · exact same ▸ List.mem_cons_self
    · rw [if_neg same] at present
      exact List.mem_cons_of_mem _ (fs.finite other present)
  root := by simpa using fs.root
  closed other child present := by
    by_cases same : other ++ [child] = loc ++ [name]
    · have parent : other = loc := (List.append_inj' same rfl).1
      rw [parent, if_neg (ne_append_singleton loc name)]
      exact inside
    · rw [if_neg same] at present
      have folder := fs.closed other child present
      by_cases placed : other = loc ++ [name]
      · rcases kept with different | value
        · exact absurd (placed ▸ folder) different
        · rw [if_pos placed, value]
      · rw [if_neg placed]
        exact folder

/-- A node is put at a location, if that is possible. -/
def put (fs : FileSystem) (loc : Location) (value : Node) : Option FileSystem :=
  if possible : ∃ nonempty : loc ≠ [], fs.node loc.dropLast = some .folder ∧
      (fs.node (loc.dropLast ++ [loc.getLast nonempty]) ≠ some .folder ∨ value = .folder) then
    some (fs.place loc.dropLast (loc.getLast possible.1) value possible.2.1 possible.2.2)
  else none

/-- A node can be put into a folder where no folder would be lost, and nothing else changes. -/
theorem put_eq_some {value : Node} (inside : fs.node loc = some .folder)
    (kept : fs.node (loc ++ [name]) ≠ some .folder ∨ value = .folder) :
    ∃ after, fs.put (loc ++ [name]) value = some after ∧
      ∀ other, after.node other = if other = loc ++ [name] then some value else fs.node other := by
  have possible : ∃ nonempty : loc ++ [name] ≠ [],
      fs.node (loc ++ [name]).dropLast = some .folder ∧
      (fs.node ((loc ++ [name]).dropLast ++ [(loc ++ [name]).getLast nonempty]) ≠ some .folder ∨
        value = .folder) :=
    ⟨by simp, by simpa using inside, by simpa using kept⟩
  refine ⟨_, dif_pos possible, fun other => ?_⟩
  simp [place]

/-- Nothing lies below a location where nothing is. -/
theorem node_below (absent : fs.node loc = none) (rest : Location) :
    fs.node (loc ++ rest) = none := by
  induction rest using List.reverseRecOn with
  | nil =>
    rw [List.append_nil]
    exact absent
  | append_singleton rest child ih =>
    by_contra present
    rw [← List.append_assoc] at present
    have folder := fs.closed _ _ present
    rw [ih] at folder
    cases folder

/-- Folders stay folders when a node is put where no folder is. -/
theorem folders_of_put {place : Location} {value : Node}
    (nodes : ∀ other, after.node other = if other = place then some value else fs.node other)
    (absent : fs.node place ≠ some .folder) (folder : fs.node loc = some .folder) :
    after.node loc = some .folder := by
  have other : loc ≠ place := by
    rintro rfl
    exact absent folder
  rw [nodes loc, if_neg other]
  exact folder

/-- Folders stay folders when only a place where nothing was is changed. -/
theorem folders_of_kept {place : Location} (fresh : fs.node place = none)
    (kept : ∀ other, ¬place <+: other → after.node other = fs.node other)
    (folder : fs.node loc = some .folder) : after.node loc = some .folder := by
  have outside : ¬place <+: loc := by
    rintro ⟨rest, rfl⟩
    rw [node_below fresh rest] at folder
    cases folder
  rw [kept loc outside]
  exact folder

/-- The components of a path. -/
def components (path : List UInt8) : List (List UInt8) :=
  (path.splitOn slash).filter (· ≠ [])

/-- The component behind a slash is the last one. -/
theorem components_append {path bytes : List UInt8} (nonempty : bytes ≠ [])
    (slashFree : slash ∉ bytes) :
    components (path ++ slash :: bytes) = components path ++ [bytes] := by
  unfold components
  rw [List.splitOn_append_cons_self, List.filter_append, List.splitOn_eq_singleton slashFree]
  simp [nonempty]

/-- One component is followed from a folder. -/
def walk (fs : FileSystem) (loc : Location) (component : List UInt8) : Option Location :=
  if fs.node loc = some .folder then
    if component = dot then some loc
    else if component = dots then some loc.dropLast
    else (Name.parse component).map fun name => loc ++ [name]
  else none

/-- The location a path stands for, whether or not something is there. -/
def resolve (fs : FileSystem) (cwd : Location) (path : CString) : Option Location :=
  if path.bytes = [] then none
  else (components path.bytes).foldlM fs.walk (if path.bytes.head? = some slash then [] else cwd)

/-- A name is followed into a folder. -/
theorem walk_name (inside : fs.node loc = some .folder) :
    fs.walk loc name.bytes = some (loc ++ [name]) := by
  unfold walk
  rw [if_pos inside, if_neg name.notDot, if_neg name.notDots, Name.parse_bytes]
  rfl

/-- A path behind which a component follows is resolved first. -/
theorem resolve_append {cwd : Location} {path longer : CString} {bytes : List UInt8}
    (nonempty : bytes ≠ []) (slashFree : slash ∉ bytes)
    (spelled : longer.bytes = path.bytes ++ slash :: bytes)
    (known : fs.resolve cwd path = some loc) : fs.resolve cwd longer = fs.walk loc bytes := by
  unfold resolve at known ⊢
  split at known
  · cases known
  · rename_i present
    have start : longer.bytes.head? = path.bytes.head? := by
      rw [spelled, List.head?_append_of_ne_nil _ present]
    have absent : ¬longer.bytes = [] := by
      rw [spelled]
      simp
    rw [if_neg absent, start, spelled, components_append nonempty slashFree, List.foldlM_append,
      known]
    simp

/-- Following a component does not depend on what else is there. -/
theorem walk_mono (folders : ∀ loc, fs.node loc = some .folder → after.node loc = some .folder)
    {component : List UInt8} {target : Location} (known : fs.walk loc component = some target) :
    after.walk loc component = some target := by
  unfold walk at known ⊢
  split at known
  · rename_i inside
    rw [if_pos (folders loc inside)]
    exact known
  · cases known

/-- A path resolves to the same location as long as folders stay folders. -/
theorem resolve_mono (folders : ∀ loc, fs.node loc = some .folder → after.node loc = some .folder)
    {cwd : Location} {path : CString} (known : fs.resolve cwd path = some loc) :
    after.resolve cwd path = some loc := by
  have follow : ∀ (list : List (List UInt8)) start target,
      list.foldlM fs.walk start = some target → list.foldlM after.walk start = some target := by
    intro list
    induction list with
    | nil =>
      intro start target walked
      exact walked
    | cons component rest ih =>
      intro start target walked
      rw [List.foldlM_cons] at walked ⊢
      obtain ⟨middle, first, later⟩ := Option.bind_eq_some_iff.mp walked
      exact Option.bind_eq_some_iff.mpr ⟨middle, walk_mono folders first, ih _ _ later⟩
  unfold resolve at known ⊢
  split at known
  · cases known
  · rename_i present
    rw [if_neg present]
    exact follow _ _ _ known

/-- A folder, or a name inside a folder. -/
def Reached (fs : FileSystem) (loc : Location) : Prop :=
  fs.node loc = some .folder ∨
    ∃ folder name, loc = folder ++ [name] ∧ fs.node folder = some .folder

/-- The location above a folder is a folder. -/
theorem node_dropLast (inside : fs.node loc = some .folder) :
    fs.node loc.dropLast = some .folder := by
  rcases List.eq_nil_or_concat' loc with rfl | ⟨front, last, rfl⟩
  · exact inside
  · rw [List.dropLast_concat]
    apply fs.closed front last
    rw [inside]
    simp

/-- A component leads to a folder or to a name inside one. -/
theorem walk_reached {component : List UInt8} {target : Location}
    (known : fs.walk loc component = some target) : fs.Reached target := by
  unfold walk at known
  split at known
  · rename_i inside
    split at known
    · obtain rfl := Option.some.inj known
      exact .inl inside
    · split at known
      · obtain rfl := Option.some.inj known
        exact .inl (node_dropLast inside)
      · obtain ⟨name, -, rfl⟩ := Option.map_eq_some_iff.mp known
        exact .inr ⟨loc, name, rfl, inside⟩
  · cases known

/-- A path leads to a folder or to a name inside one. -/
theorem resolve_reached {cwd : Location} {path : CString} (home : fs.node cwd = some .folder)
    (known : fs.resolve cwd path = some loc) : fs.Reached loc := by
  have follow : ∀ (list : List (List UInt8)) start target, fs.Reached start →
      list.foldlM fs.walk start = some target → fs.Reached target := by
    intro list
    induction list with
    | nil =>
      intro start target reached walked
      obtain rfl := Option.some.inj walked
      exact reached
    | cons component rest ih =>
      intro start target _ walked
      rw [List.foldlM_cons] at walked
      obtain ⟨middle, first, later⟩ := Option.bind_eq_some_iff.mp walked
      exact ih _ _ (walk_reached first) later
  unfold resolve at known
  split at known
  · cases known
  · apply follow _ _ _ ?_ known
    split
    · exact .inl fs.root
    · exact .inl home

/-- A path to nothing leads to a name inside a folder. -/
theorem resolve_fresh {cwd : Location} {path : CString} (home : fs.node cwd = some .folder)
    (known : fs.resolve cwd path = some loc) (fresh : fs.node loc = none) :
    ∃ folder name, loc = folder ++ [name] ∧ fs.node folder = some .folder := by
  rcases resolve_reached home known with present | named
  · rw [fresh] at present
    cases present
  · exact named

end FileSystem

/-- A tree of folders and regular files. -/
inductive Tree
  /-- A file with its bytes. -/
  | file (bytes : List UInt8)
  /-- A folder with its entries. -/
  | folder (entries : List (Name × Tree))

namespace Tree

/-- The node at the root of a tree. -/
def node : Tree → Node
  | .file bytes => .file bytes
  | .folder _ => .folder

/-- The entry of a tree with a name. -/
def child : Tree → Name → Option Tree
  | .file _, _ => none
  | .folder entries, name => entries.lookup name

/-- What a tree has at a location. -/
def look : Tree → Location → Option Node
  | tree, [] => some tree.node
  | tree, name :: rest => (tree.child name).bind fun below => below.look rest

end Tree

/-- The nodes of a file system from a location on are those of a tree. -/
def FileSystem.Has (fs : FileSystem) (loc : Location) (tree : Tree) : Prop :=
  ∀ rest, fs.node (loc ++ rest) = tree.look rest

/-- What is at the location of a tree is the root of the tree. -/
theorem FileSystem.Has.root {fs : FileSystem} {loc : Location} {tree : Tree}
    (has : fs.Has loc tree) : fs.node loc = some tree.node := by
  have here := has []
  rw [List.append_nil] at here
  exact here

/-- A place where nothing is has no tree below it. -/
theorem FileSystem.Has.not_below {fs : FileSystem} {loc place : Location} {tree : Tree}
    (has : fs.Has loc tree) (fresh : fs.node place = none) : ¬place <+: loc := by
  rintro ⟨rest, rfl⟩
  have present := has.root
  rw [FileSystem.node_below fresh rest] at present
  cases present

end NsuOs
