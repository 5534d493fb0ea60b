import NsuOs.Base.FileSystem

/-!
# A file system with symbolic links

Inodes are known by their numbers; a folder has the numbers of its entries and of the folder above
it, so a file may have several names. A path is walked component by component. A symbolic link
inside the path is replaced by the path it stores, and so is one at the end if links are followed;
the number of replacements is limited, as it is in a kernel. Following links never ends at a link.
The calls that act on the last name of a path itself do not follow it.
-/
namespace NsuOs

/-- What an inode holds. -/
inductive Inode
  /-- A regular file with its bytes. -/
  | file (bytes : List UInt8)
  /-- A folder with its entries and the folder above it. -/
  | folder (entries : List (Name × Nat)) (parent : Nat)
  /-- A symbolic link with the path it stores. -/
  | link (target : CString)
  /-- A file of any other type, with what can be read from it. -/
  | special (bytes : List UInt8)

/-- A folder stands at a number. -/
def FolderAt (inode : Nat → Option Inode) (number : Nat) : Prop :=
  ∃ entries parent, inode number = some (.folder entries parent)

/-- Folders stay folders when one of them gets other entries. -/
theorem folderAt_set {inode : Nat → Option Inode} {number k : Nat} (entries : List (Name × Nat))
    (parent : Nat) (inside : FolderAt inode k) :
    FolderAt (fun j => if j = number then some (.folder entries parent) else inode j) k := by
  by_cases same : k = number
  · exact ⟨entries, parent, if_pos same⟩
  · obtain ⟨others, higher, known⟩ := inside
    exact ⟨others, higher, (if_neg same).trans known⟩

/-- Folders stay folders when a number that was not used gets an inode. -/
theorem folderAt_new {inode : Nat → Option Inode} {number k : Nat} (fresh : inode number = none)
    (value : Inode) (inside : FolderAt inode k) :
    FolderAt (fun j => if j = number then some value else inode j) k := by
  obtain ⟨entries, parent, known⟩ := inside
  have other : k ≠ number := by
    rintro rfl
    rw [fresh] at known
    cases known
  exact ⟨entries, parent, (if_neg other).trans known⟩

/-- The inodes by number, with the root, the current folder and a number from which on none is
used. -/
structure LinkedFiles where
  /-- The inode with a number. -/
  inode : Nat → Option Inode
  /-- The number of the root. -/
  root : Nat
  /-- The number of the current folder. -/
  current : Nat
  /-- The number of the next inode. -/
  next : Nat
  /-- The root is a folder. -/
  rooted : FolderAt inode root
  /-- The current folder is one. -/
  home : FolderAt inode current
  /-- Above a folder there is one. -/
  above : ∀ {number entries parent}, inode number = some (.folder entries parent) →
    FolderAt inode parent
  /-- An entry of a folder is an inode. -/
  present : ∀ {number entries parent name entry}, inode number = some (.folder entries parent) →
    (name, entry) ∈ entries → inode entry ≠ none
  /-- From the next number on none is used. -/
  unused : ∀ number, next ≤ number → inode number = none

namespace LinkedFiles

variable {fs : LinkedFiles} {folder number : Nat}

/-- Where a walk ends: the folder, the name in it unless the last component is a special one, and
the inode, if there is one. -/
structure Spot where
  /-- The folder the walk ends in. -/
  folder : Nat
  /-- The last name. -/
  name : Option Name
  /-- The number it leads to. -/
  inode : Option Nat

/-- The components of a path; a slash at the end leaves an empty one. -/
def parts (path : CString) : List (List UInt8) := path.bytes.splitOn slash

/-- Where the walk along a path starts, seen from a folder. -/
def start (fs : LinkedFiles) (path : CString) (folder : Nat) : Nat :=
  if path.bytes.head? = some slash then fs.root else folder

/-- What one component of a path leads to. -/
inductive Move
  /-- The walk goes on from a number. -/
  | go (number : Nat)
  /-- The path that a link stores comes next, from a folder. -/
  | jump (folder : Nat) (target : CString)
  /-- The walk ends. -/
  | stop (result : Option Spot)

/-- A name is entered that a folder has under a number, or has not. -/
def enter (fs : LinkedFiles) (follow : Bool) (folder : Nat) (name : Name) (last : Bool) :
    Option Nat → Move
  | none => .stop (if last then some ⟨folder, some name, none⟩ else none)
  | some number =>
    match fs.inode number with
    | none => .stop none
    | some (.link target) =>
      if last = true ∧ follow = false then .stop (some ⟨folder, some name, some number⟩)
      else if target.bytes = [] then .stop none
      else .jump (fs.start target folder) target
    | some _ => if last then .stop (some ⟨folder, some name, some number⟩) else .go number

/-- One component is walked in a folder. -/
def step (fs : LinkedFiles) (follow : Bool) (folder : Nat) (part : List UInt8) (last : Bool) :
    Move :=
  match fs.inode folder with
  | some (.folder entries parent) =>
    if part = [] ∨ part = dot then .go folder
    else if part = dots then .go parent
    else
      match Name.parse part with
      | none => .stop none
      | some name => fs.enter follow folder name last (entries.lookup name)
  | _ => .stop none

/-- The walk along components up to the next link that is followed; from there on it is another
walk. -/
def along (fs : LinkedFiles) (follow : Bool) (jump : Nat → List (List UInt8) → Option Spot) :
    Nat → List (List UInt8) → Option Spot
  | folder, [] => some ⟨folder, none, some folder⟩
  | folder, part :: rest =>
    match fs.step follow folder part rest.isEmpty with
    | .go number => along fs follow jump number rest
    | .jump start target => jump start (parts target ++ rest)
    | .stop result => result

/-- The walk along components with at most as many links. -/
def walk (fs : LinkedFiles) (follow : Bool) : Nat → Nat → List (List UInt8) → Option Spot
  | 0 => fs.along follow fun _ _ => none
  | links + 1 => fs.along follow (fs.walk follow links)

/-- The number of links that may be followed for one path. -/
def maxLinks : Nat := 40

/-- Where a path leads. -/
def resolve (fs : LinkedFiles) (follow : Bool) (path : CString) : Option Spot :=
  if path.bytes = [] then none
  else fs.walk follow maxLinks (fs.start path fs.current) (parts path)

/-- What a path leads to, links followed or not. -/
def find (fs : LinkedFiles) (follow : Bool) (path : CString) : Option Inode :=
  (fs.resolve follow path).bind fun spot => spot.inode.bind fs.inode

/-- `stat`, as far as the file is concerned. -/
def stat (fs : LinkedFiles) (path : CString) : Option Inode := fs.find true path

/-- `readlink`: the path stored in a link. -/
def readlink (fs : LinkedFiles) (path : CString) : Option CString :=
  match fs.find false path with
  | some (.link target) => some target
  | _ => none

/-- The next number is not one that is used. -/
theorem ne_next (fs : LinkedFiles) {value : Inode} (used : fs.inode number = some value) :
    number ≠ fs.next := by
  rintro rfl
  rw [fs.unused fs.next (Nat.le_refl _)] at used
  cases used

/-- A folder gets other entries. -/
def setEntries (fs : LinkedFiles) (number : Nat) (entries : List (Name × Nat)) (parent : Nat)
    (known : ∃ old, fs.inode number = some (.folder old parent))
    (kept : ∀ name entry, (name, entry) ∈ entries → fs.inode entry ≠ none) : LinkedFiles where
  inode k := if k = number then some (.folder entries parent) else fs.inode k
  root := fs.root
  current := fs.current
  next := fs.next
  rooted := folderAt_set entries parent fs.rooted
  home := folderAt_set entries parent fs.home
  above := by
    intro k others higher inside
    apply folderAt_set
    by_cases same : k = number
    · obtain ⟨old, before⟩ := known
      rw [if_pos same] at inside
      obtain ⟨-, rfl⟩ : entries = others ∧ parent = higher := by simpa using inside
      exact fs.above before
    · rw [if_neg same] at inside
      exact fs.above inside
  present := by
    intro k others higher name entry inside member
    by_cases same : entry = number
    · rw [if_pos same]
      simp
    · rw [if_neg same]
      by_cases changed : k = number
      · rw [if_pos changed] at inside
        obtain ⟨rfl, -⟩ : entries = others ∧ parent = higher := by simpa using inside
        exact kept name entry member
      · rw [if_neg changed] at inside
        exact fs.present inside member
  unused := by
    intro k beyond
    have other : k ≠ number := by
      rintro rfl
      obtain ⟨old, before⟩ := known
      rw [fs.unused k beyond] at before
      cases before
    rw [if_neg other]
    exact fs.unused k beyond

/-- An empty file gets the next number. -/
def newFile (fs : LinkedFiles) : LinkedFiles where
  inode k := if k = fs.next then some (.file []) else fs.inode k
  root := fs.root
  current := fs.current
  next := fs.next + 1
  rooted := folderAt_new (fs.unused _ (Nat.le_refl _)) _ fs.rooted
  home := folderAt_new (fs.unused _ (Nat.le_refl _)) _ fs.home
  above := by
    intro k entries parent inside
    apply folderAt_new (fs.unused _ (Nat.le_refl _))
    by_cases fresh : k = fs.next
    · rw [if_pos fresh] at inside
      cases inside
    · rw [if_neg fresh] at inside
      exact fs.above inside
  present := by
    intro k entries parent name entry inside member
    by_cases added : entry = fs.next
    · rw [if_pos added]
      simp
    · rw [if_neg added]
      by_cases fresh : k = fs.next
      · rw [if_pos fresh] at inside
        cases inside
      · rw [if_neg fresh] at inside
        exact fs.present inside member
  unused := by
    intro k beyond
    rw [if_neg (by omega)]
    exact fs.unused k (by omega)

/-- An empty file is put into a folder under a name. -/
def addFile (fs : LinkedFiles) (folder : Nat) (name : Name) : Option LinkedFiles :=
  match inside : fs.inode folder with
  | some (.folder entries parent) =>
    some (fs.newFile.setEntries folder ((name, fs.next) :: entries) parent
      ⟨entries, (if_neg (fs.ne_next inside)).trans inside⟩ (by
        intro other entry member
        have new : fs.newFile.inode fs.next = some (.file []) := if_pos rfl
        rcases List.mem_cons.mp member with same | old
        · obtain ⟨-, rfl⟩ := Prod.mk.inj same
          rw [new]
          simp
        · by_cases fresh : entry = fs.next
          · rw [fresh, new]
            simp
          · have kept : fs.newFile.inode entry = fs.inode entry := if_neg fresh
            rw [kept]
            exact fs.present inside old))
  | _ => none

/-- `fopen` with mode `a+`: the file system after it and what is in the file. A file that is not
there is made. -/
def openAppend (fs : LinkedFiles) (path : CString) : Option (LinkedFiles × List UInt8) :=
  (fs.resolve true path).bind fun spot =>
    match spot.inode with
    | none => spot.name.bind fun name => (fs.addFile spot.folder name).map fun after => (after, [])
    | some number =>
      match fs.inode number with
      | some (.file bytes) | some (.special bytes) => some (fs, bytes)
      | _ => none

/-- A name is taken out of a folder. An inode that has lost its last name stays in the table, where
no path leads to it; a kernel frees it. -/
def erase (fs : LinkedFiles) (folder : Nat) (name : Name) : Option LinkedFiles :=
  match inside : fs.inode folder with
  | some (.folder entries parent) =>
    some (fs.setEntries folder (entries.filter (·.1 ≠ name)) parent ⟨entries, inside⟩ (by
      intro other entry member
      exact fs.present inside (List.mem_filter.mp member).1))
  | _ => none

/-- What may be linked and unlinked: anything but a folder. -/
def plainAt (fs : LinkedFiles) (number : Nat) : Bool :=
  match fs.inode number with
  | some (.folder _ _) | none => false
  | some _ => true

/-- `unlink`: the last name is taken out unless it is one of a folder. -/
def unlink (fs : LinkedFiles) (path : CString) : Option LinkedFiles :=
  match fs.resolve false path with
  | some ⟨folder, some name, some number⟩ =>
    if fs.plainAt number then fs.erase folder name else none
  | _ => none

/-- A path without the slashes at its end. -/
def trimmed (path : CString) : CString where
  bytes := path.bytes.rdropWhile (· == slash)
  nulFree inside := path.nulFree ((List.rdropWhile_prefix _ _).subset inside)

/-- `rmdir`: the last name has to be one of an empty folder; slashes behind it do not matter. -/
def rmdir (fs : LinkedFiles) (path : CString) : Option LinkedFiles :=
  match fs.resolve false (trimmed path) with
  | some ⟨folder, some name, some number⟩ =>
    match fs.inode number with
    | some (.folder [] _) => fs.erase folder name
    | _ => none
  | _ => none

/-- `remove`: `unlink`, and `rmdir` for a folder. -/
def remove (fs : LinkedFiles) (path : CString) : Option LinkedFiles :=
  (fs.unlink path).or (fs.rmdir path)

/-- Not a symbolic link. -/
def NotLink (fs : LinkedFiles) (number : Nat) : Prop :=
  ∀ target, fs.inode number ≠ some (.link target)

/-- A folder is not a link. -/
theorem notLink_of_folder (inside : FolderAt fs.inode number) : fs.NotLink number := by
  obtain ⟨entries, parent, known⟩ := inside
  intro target link
  rw [known] at link
  cases link

/-- A path does not start at a link. -/
theorem notLink_start (path : CString) (plain : fs.NotLink folder) :
    fs.NotLink (fs.start path folder) := by
  unfold start
  split
  · exact notLink_of_folder fs.rooted
  · exact plain

/-- A walk does not end at a link unless that is the last name and links are not followed, and a
last name is one of a folder. -/
structure Spot.Sound (fs : LinkedFiles) (follow : Bool) (spot : Spot) : Prop where
  /-- What is followed to its end is no link. -/
  plain : ∀ number, spot.inode = some number → follow = true ∨ spot.name = none →
    fs.NotLink number
  /-- The last name is one of a folder. -/
  inside : spot.name ≠ none → FolderAt fs.inode spot.folder

/-- A move leads to no link, or ends the walk as it should. -/
def Move.Sound (fs : LinkedFiles) (follow : Bool) : Move → Prop
  | .go number => fs.NotLink number
  | .jump folder _ => fs.NotLink folder
  | .stop result => ∀ spot, result = some spot → spot.Sound fs follow

/-- The end of a walk at nothing is as it should. -/
theorem sound_stop_none {follow : Bool} : (Move.stop none).Sound fs follow := by
  intro spot found
  cases found

/-- The end of a walk at a last name is as it should, if that is not a link that is followed. -/
theorem sound_stop_name {follow : Bool} {name : Name} (inside : FolderAt fs.inode folder)
    (entry : Option Nat)
    (plain : follow = true → ∀ number, entry = some number → fs.NotLink number) :
    (Move.stop (some ⟨folder, some name, entry⟩)).Sound fs follow := by
  intro spot found
  obtain rfl := Option.some.inj found
  refine ⟨fun number there followed => ?_, fun _ => inside⟩
  rcases followed with followed | unnamed
  · exact plain followed number there
  · cases unnamed

/-- A name leads on as it should. -/
theorem enter_sound (follow : Bool) (name : Name) (last : Bool) (found : Option Nat)
    (inside : FolderAt fs.inode folder) :
    (fs.enter follow folder name last found).Sound fs follow := by
  cases found with
  | none =>
    cases last with
    | true => exact sound_stop_name inside none fun _ number there => by cases there
    | false => exact sound_stop_none
  | some number =>
    simp only [enter]
    split
    · exact sound_stop_none
    · rename_i target stored
      split
      · rename_i unfollowed
        apply sound_stop_name inside
        intro followed
        rw [unfollowed.2] at followed
        cases followed
      · split
        · exact sound_stop_none
        · exact notLink_start target (notLink_of_folder inside)
    · rename_i value other stored
      have proper : fs.NotLink number := by
        intro target link
        rw [stored] at link
        exact other target (Option.some.inj link)
      split
      · apply sound_stop_name inside
        intro _ entry there
        obtain rfl := Option.some.inj there
        exact proper
      · exact proper

/-- A component leads on as it should. -/
theorem step_sound (fs : LinkedFiles) (follow : Bool) (folder : Nat) (part : List UInt8)
    (last : Bool) : (fs.step follow folder part last).Sound fs follow := by
  unfold step
  split
  · rename_i entries parent inside
    have here : FolderAt fs.inode folder := ⟨entries, parent, inside⟩
    split
    · exact notLink_of_folder here
    · split
      · exact notLink_of_folder (fs.above inside)
      · split
        · exact sound_stop_none
        · exact enter_sound follow _ last _ here
  · exact sound_stop_none

/-- A walk ends as it should if the walks after its links do. -/
theorem along_sound {follow : Bool} {jump : Nat → List (List UInt8) → Option Spot}
    (jumps : ∀ {folder list spot}, fs.NotLink folder → jump folder list = some spot →
      spot.Sound fs follow)
    {list : List (List UInt8)} {spot : Spot} (plain : fs.NotLink folder)
    (ends : fs.along follow jump folder list = some spot) : spot.Sound fs follow := by
  induction list generalizing folder with
  | nil =>
    obtain rfl := Option.some.inj ends
    refine ⟨fun number there _ => ?_, fun named => absurd rfl named⟩
    obtain rfl := Option.some.inj there
    exact plain
  | cons part rest ih =>
    have moved := fs.step_sound follow folder part rest.isEmpty
    rw [along] at ends
    cases move : fs.step follow folder part rest.isEmpty with
    | go next =>
      rw [move] at moved ends
      exact ih moved ends
    | jump start target =>
      rw [move] at moved ends
      exact jumps moved ends
    | stop result =>
      rw [move] at moved ends
      exact moved spot ends

/-- A walk ends as it should. -/
theorem walk_sound {follow : Bool} {links : Nat} {list : List (List UInt8)} {spot : Spot}
    (plain : fs.NotLink folder) (ends : fs.walk follow links folder list = some spot) :
    spot.Sound fs follow := by
  induction links generalizing folder list spot with
  | zero => exact along_sound (fun _ nothing => absurd nothing (by simp)) plain ends
  | succ links ih => exact along_sound ih plain ends

/-- So does every path. -/
theorem resolve_sound {follow : Bool} {path : CString} {spot : Spot}
    (leads : fs.resolve follow path = some spot) : spot.Sound fs follow := by
  unfold resolve at leads
  split at leads
  · cases leads
  · exact walk_sound (notLink_start path (notLink_of_folder fs.home)) leads

/-- `stat` never finds a link. -/
theorem stat_ne_link (fs : LinkedFiles) (path target : CString) :
    fs.stat path ≠ some (.link target) := by
  intro found
  obtain ⟨spot, leads, there⟩ := Option.bind_eq_some_iff.mp found
  obtain ⟨number, numbered, link⟩ := Option.bind_eq_some_iff.mp there
  exact (resolve_sound leads).plain number numbered (.inl rfl) target link

/-- A regular file that `stat` finds is opened as it is. -/
theorem openAppend_of_stat {path : CString} {bytes : List UInt8}
    (found : fs.stat path = some (.file bytes)) : fs.openAppend path = some (fs, bytes) := by
  obtain ⟨spot, leads, there⟩ := Option.bind_eq_some_iff.mp found
  obtain ⟨number, numbered, file⟩ := Option.bind_eq_some_iff.mp there
  unfold openAppend
  rw [leads]
  simp only [Option.bind_some, numbered, file]

/-- A name was taken out of a folder, and nothing else has changed. -/
structure Erased (fs : LinkedFiles) (folder : Nat) (name : Name) (after : LinkedFiles) : Prop where
  /-- The folder has lost its entries of that name. -/
  entries : ∃ entries parent, fs.inode folder = some (.folder entries parent) ∧
    after.inode folder = some (.folder (entries.filter (·.1 ≠ name)) parent)
  /-- The other inodes are as they were. -/
  others : ∀ number, number ≠ folder → after.inode number = fs.inode number
  /-- The root is. -/
  root : after.root = fs.root
  /-- The current folder is. -/
  current : after.current = fs.current

/-- That is what `erase` does. -/
theorem erased_of_erase {after : LinkedFiles} {name : Name}
    (done : fs.erase folder name = some after) : Erased fs folder name after := by
  unfold erase at done
  split at done
  · rename_i entries parent inside
    obtain rfl := Option.some.inj done
    exact ⟨⟨entries, parent, inside, if_pos rfl⟩, fun number other => if_neg other, rfl, rfl⟩
  · cases done

end LinkedFiles

end NsuOs
