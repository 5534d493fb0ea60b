import NsuOs.Base.LinkedFiles

/-!
# Names that come and go

The calls that make names, `mkdir`, `symlink` and `link`, and what they and the calls that take
names away leave of the rest. A number is not given twice, and an inode that has lost its last name
stays in the table, where no path leads to it and no call gives it a name again; a file system that
has all inodes of another one as they were sends every path where the other one does, whatever else
it holds. A name put where a path led to nothing is found by that path, and taking it away again
leaves such a file system.
-/
namespace NsuOs.LinkedFiles

variable {fs after : LinkedFiles} {folder number : Nat} {name : Name}

/-- A value a new inode may have: a folder starts empty and inside another one. -/
def Fresh (fs : LinkedFiles) (value : Inode) : Prop :=
  ∀ entries parent, value = .folder entries parent → entries = [] ∧ FolderAt fs.inode parent

/-- The inodes with a value at the next number. -/
def withNext (fs : LinkedFiles) (value : Inode) (number : Nat) : Option Inode :=
  if number = fs.next then some value else fs.inode number

/-- Folders are still folders. -/
theorem folderAt_withNext {value : Inode} (inside : FolderAt fs.inode number) :
    FolderAt (fs.withNext value) number :=
  folderAt_new (fs.unused fs.next (Nat.le_refl fs.next)) value inside

/-- The folder above a folder is still one. -/
theorem withNext_above {value : Inode} (fresh : fs.Fresh value) {entries : List (Name × Nat)}
    {parent : Nat} (inside : fs.withNext value number = some (.folder entries parent)) :
    FolderAt (fs.withNext value) parent := by
  apply folderAt_withNext
  by_cases new : number = fs.next
  · rw [withNext, if_pos new] at inside
    exact (fresh entries parent (Option.some.inj inside)).2
  · rw [withNext, if_neg new] at inside
    exact fs.above inside

/-- Every entry of a folder is still there. -/
theorem withNext_present {value : Inode} (fresh : fs.Fresh value) {entries : List (Name × Nat)}
    {parent entry : Nat} {name : Name}
    (inside : fs.withNext value number = some (.folder entries parent))
    (member : (name, entry) ∈ entries) : fs.withNext value entry ≠ none := by
  by_cases added : entry = fs.next
  · simp [withNext, added]
  · rw [withNext, if_neg added]
    by_cases new : number = fs.next
    · rw [withNext, if_pos new] at inside
      rw [(fresh entries parent (Option.some.inj inside)).1] at member
      cases member
    · rw [withNext, if_neg new] at inside
      exact fs.present inside member

/-- No number above the next one is used. -/
theorem withNext_unused (value : Inode) (beyond : fs.next + 1 ≤ number) :
    fs.withNext value number = none := by
  have other : number ≠ fs.next := by omega
  have before : fs.next ≤ number := by omega
  rw [withNext, if_neg other]
  exact fs.unused number before

/-- A value gets the next number. -/
def newInode (fs : LinkedFiles) (value : Inode) (fresh : fs.Fresh value) : LinkedFiles where
  inode := fs.withNext value
  root := fs.root
  current := fs.current
  next := fs.next + 1
  rooted := folderAt_withNext fs.rooted
  home := folderAt_withNext fs.home
  above := withNext_above fresh
  present := withNext_present fresh
  unused _ := withNext_unused value

/-- A folder has some entries. -/
theorem exists_entries {entries : List (Name × Nat)} {parent : Nat}
    (inside : fs.inode folder = some (.folder entries parent)) :
    ∃ old, fs.inode folder = some (.folder old parent) := ⟨entries, inside⟩

/-- The entries of a folder with one more are inodes. -/
theorem cons_present {entries : List (Name × Nat)} {parent : Nat}
    (inside : fs.inode folder = some (.folder entries parent)) (used : fs.inode number ≠ none)
    (name other : Name) (entry : Nat) (member : (other, entry) ∈ (name, number) :: entries) :
    fs.inode entry ≠ none := by
  rcases List.mem_cons.mp member with same | old
  · obtain ⟨-, rfl⟩ := Prod.mk.inj same
    exact used
  · exact fs.present inside old

/-- A number that is used gets a name in a folder. -/
def putEntry (fs : LinkedFiles) (folder : Nat) (name : Name) (number : Nat)
    (used : fs.inode number ≠ none) : Option LinkedFiles :=
  match inside : fs.inode folder with
  | some (.folder entries parent) =>
    some (fs.setEntries folder ((name, number) :: entries) parent (exists_entries inside)
      (cons_present inside used name))
  | _ => none

/-- The next number is used by the new inode. -/
theorem newInode_next {value : Inode} (fresh : fs.Fresh value) :
    (fs.newInode value fresh).inode fs.next = some value := if_pos rfl

/-- A new inode gets a name in a folder. -/
def addInode (fs : LinkedFiles) (folder : Nat) (name : Name) (value : Inode)
    (fresh : fs.Fresh value) : Option LinkedFiles :=
  (fs.newInode value fresh).putEntry folder name fs.next
    ((newInode_next fresh).trans_ne (Option.some_ne_none value))

/-- `mkdir`: the path has to lead to nothing; slashes at its end do not matter. -/
def mkdir (fs : LinkedFiles) (path : CString) : Option LinkedFiles :=
  match leads : fs.resolve false (trimmed path) with
  | some ⟨folder, some name, none⟩ =>
    fs.addInode folder name (.folder [] folder) (by
      intro entries parent same
      obtain ⟨rfl, rfl⟩ : [] = entries ∧ folder = parent := by simpa using same
      exact ⟨rfl, (resolve_sound leads).inside (by simp)⟩)
  | _ => none

/-- `symlink`: a link that stores a path is made under a name that is not there. -/
def symlink (fs : LinkedFiles) (target path : CString) : Option LinkedFiles :=
  if target.bytes = [] then none
  else
    match fs.resolve false path with
    | some ⟨folder, some name, none⟩ => fs.addInode folder name (.link target) (by simp [Fresh])
    | _ => none

/-- A plain inode is there. -/
theorem ne_none_of_plainAt (plain : fs.plainAt number = true) : fs.inode number ≠ none := by
  intro missing
  simp [plainAt, missing] at plain

/-- `link`: a file gets another name; a symbolic link at the end of the old path is not followed. -/
def link (fs : LinkedFiles) (old new : CString) : Option LinkedFiles :=
  match fs.resolve false old with
  | some ⟨_, _, some number⟩ =>
    if plain : fs.plainAt number = true then
      match fs.resolve false new with
      | some ⟨folder, some name, none⟩ =>
        fs.putEntry folder name number (ne_none_of_plainAt plain)
      | _ => none
    else none
  | _ => none

/-- The names that `readdir` gives for a folder, in some order. -/
def listing (fs : LinkedFiles) (path : CString) : Option (List (List UInt8)) :=
  match fs.find true path with
  | some (.folder entries _) => some (dot :: dots :: entries.map fun entry => entry.1.bytes)
  | _ => none

/-- Whether a number is one of a folder. -/
def isFolder (fs : LinkedFiles) (number : Nat) : Bool :=
  match fs.inode number with
  | some (.folder _ _) => true
  | _ => false

/-- The number of names of an inode; those of a folder are its own, its dot and the two dots of each
folder in it. -/
def nlink (fs : LinkedFiles) (number : Nat) : Nat :=
  match fs.inode number with
  | none => 0
  | some (.folder entries _) => 2 + entries.countP fun entry => fs.isFolder entry.2
  | some _ =>
    ((List.range fs.next).map fun k =>
      match fs.inode k with
      | some (.folder entries _) => entries.countP fun entry => entry.2 == number
      | _ => 0).sum

section Extends

/-- All inodes are as they were; there may be others. -/
structure Extends (fs after : LinkedFiles) : Prop where
  /-- The inodes are as they were. -/
  kept : ∀ number, fs.inode number ≠ none → after.inode number = fs.inode number
  /-- The root is the same. -/
  root : after.root = fs.root
  /-- The current folder is the same. -/
  current : after.current = fs.current

/-- A move stays among the inodes. -/
def Move.Inside (fs : LinkedFiles) : Move → Prop
  | .go number => fs.inode number ≠ none
  | .jump folder _ => fs.inode folder ≠ none
  | .stop none => True
  | .stop (some spot) => ∀ number, spot.inode = some number → fs.inode number ≠ none

/-- Folders are inodes. -/
theorem ne_none_of_folderAt (inside : FolderAt fs.inode number) : fs.inode number ≠ none := by
  obtain ⟨entries, parent, known⟩ := inside
  simp [known]

/-- A path starts at an inode. -/
theorem start_ne_none (inside : fs.inode folder ≠ none) (path : CString) :
    fs.inode (fs.start path folder) ≠ none := by
  unfold start
  split
  · exact ne_none_of_folderAt fs.rooted
  · exact inside

/-- A name leads to the same place among the inodes. -/
theorem Extends.enter (same : fs.Extends after) (follow : Bool) (name : Name) (last : Bool)
    {found : Option Nat} (inside : fs.inode folder ≠ none)
    (used : ∀ number, found = some number → fs.inode number ≠ none) :
    after.enter follow folder name last found = fs.enter follow folder name last found ∧
      (fs.enter follow folder name last found).Inside fs := by
  cases found with
  | none => cases last <;> simp [LinkedFiles.enter, Move.Inside]
  | some number =>
    have here := used number rfl
    have starts : ∀ target, after.start target folder = fs.start target folder := by
      intro target
      simp only [start, same.root]
    simp only [LinkedFiles.enter, same.kept number here]
    cases stored : fs.inode number with
    | none => exact absurd stored here
    | some value =>
      have goes : (Move.go number).Inside fs := here
      have stops : (Move.stop (some ⟨folder, some name, some number⟩)).Inside fs := by
        intro k same
        cases same
        exact here
      cases value with
      | link target =>
        simp only [starts, true_and]
        split
        · exact stops
        · split
          · trivial
          · exact start_ne_none inside target
      | file bytes | folder entries parent | special bytes =>
        simp only [true_and]
        cases last with
        | true => exact stops
        | false => exact goes

/-- A component leads to the same place among the inodes. -/
theorem Extends.step (same : fs.Extends after) (follow : Bool) (part : List UInt8) (last : Bool)
    (inside : fs.inode folder ≠ none) :
    after.step follow folder part last = fs.step follow folder part last ∧
      (fs.step follow folder part last).Inside fs := by
  unfold LinkedFiles.step
  rw [same.kept folder inside]
  split
  · rename_i entries parent known
    split
    · exact ⟨rfl, inside⟩
    · split
      · exact ⟨rfl, ne_none_of_folderAt (fs.above known)⟩
      · split
        · exact ⟨rfl, trivial⟩
        · rename_i component parsed
          apply same.enter follow component last inside
          intro number found
          obtain ⟨before, later, split, -⟩ := List.lookup_eq_some_iff.mp found
          have member : (component, number) ∈ entries := by simp [split]
          exact fs.present known member
  · exact ⟨rfl, trivial⟩

/-- What a walk finds is an inode. -/
def Found (fs : LinkedFiles) (result : Option Spot) : Prop :=
  ∀ spot number, result = some spot → spot.inode = some number → fs.inode number ≠ none

/-- A walk ends at the same inode if the walks after its links do. -/
theorem Extends.along (same : fs.Extends after) (follow : Bool)
    {jump jump' : Nat → List (List UInt8) → Option Spot}
    (jumps : ∀ folder list, fs.inode folder ≠ none →
      jump' folder list = jump folder list ∧ fs.Found (jump folder list))
    (list : List (List UInt8)) (inside : fs.inode folder ≠ none) :
    after.along follow jump' folder list = fs.along follow jump folder list ∧
      fs.Found (fs.along follow jump folder list) := by
  induction list generalizing folder with
  | nil =>
    refine ⟨rfl, ?_⟩
    rintro spot number ends there
    cases ends
    cases there
    exact inside
  | cons part rest ih =>
    obtain ⟨steps, within⟩ := same.step follow part rest.isEmpty inside
    rw [LinkedFiles.along, LinkedFiles.along, steps]
    cases move : fs.step follow folder part rest.isEmpty with
    | go number =>
      rw [move] at within
      exact ih within
    | jump start target =>
      rw [move] at within
      exact jumps start _ within
    | stop result =>
      rw [move] at within
      refine ⟨rfl, ?_⟩
      rintro spot number ends there
      obtain rfl : result = some spot := ends
      exact within number there

/-- So does a walk with any number of links. -/
theorem Extends.walk (same : fs.Extends after) (follow : Bool) (links : Nat)
    (list : List (List UInt8)) (inside : fs.inode folder ≠ none) :
    after.walk follow links folder list = fs.walk follow links folder list ∧
      fs.Found (fs.walk follow links folder list) := by
  induction links generalizing folder list with
  | zero => exact same.along follow (fun _ _ _ => ⟨rfl, by simp [Found]⟩) list inside
  | succ links ih => exact same.along follow (fun _ => ih) list inside

/-- Every path leads to the same place, which is an inode if it is anything. -/
theorem Extends.resolve (same : fs.Extends after) (follow : Bool) (path : CString) :
    after.resolve follow path = fs.resolve follow path ∧ fs.Found (fs.resolve follow path) := by
  unfold LinkedFiles.resolve
  split
  · exact ⟨rfl, by simp [Found]⟩
  · have starts : after.start path after.current = fs.start path fs.current := by
      simp only [start, same.root, same.current]
    rw [starts]
    exact same.walk follow maxLinks (parts path) (start_ne_none (ne_none_of_folderAt fs.home) path)

/-- Every path leads to the same contents. -/
theorem Extends.find (same : fs.Extends after) (follow : Bool) (path : CString) :
    after.find follow path = fs.find follow path := by
  obtain ⟨leads, found⟩ := same.resolve follow path
  unfold LinkedFiles.find
  rw [leads]
  cases ends : fs.resolve follow path with
  | none => rfl
  | some spot =>
    cases there : spot.inode with
    | none => simp [there]
    | some number => simp [there, same.kept number (found spot number ends there)]

/-- If each component of a walk either leads to the same place in another walk, or ends the first
walk elsewhere than at its goal, or ends the other one at its own goal, then a path that leads the
first walk to its goal leads the other one there too. -/
theorem resolve_simulates {follow follow' : Bool} {goal goal' : Spot} (named : goal.name ≠ none)
    (root : after.root = fs.root) (current : after.current = fs.current)
    (steps : ∀ start part last, fs.inode start ≠ none →
      after.step follow' start part last = fs.step follow start part last ∧
          fs.step follow start part last ≠ .stop (some goal) ∨
        (∃ result, fs.step follow start part last = .stop result ∧ result ≠ some goal) ∨
        after.step follow' start part last = .stop (some goal'))
    {path : CString} (leads : fs.resolve follow path = some goal) :
    after.resolve follow' path = some goal' := by
  have same : fs.Extends fs := ⟨fun _ _ => rfl, rfl, rfl⟩
  have alongs : ∀ (jump jump' : Nat → List (List UInt8) → Option Spot),
      (∀ start list, fs.inode start ≠ none → jump start list = some goal →
        jump' start list = some goal') →
      ∀ list start, fs.inode start ≠ none → fs.along follow jump start list = some goal →
        after.along follow' jump' start list = some goal' := by
    intro jump jump' jumps list
    induction list with
    | nil =>
      intro start inside ends
      cases ends
      exact absurd rfl named
    | cons part rest ih =>
      intro start inside ends
      rw [LinkedFiles.along] at ends ⊢
      rcases steps start part rest.isEmpty inside with ⟨keeps, elsewhere⟩ | ⟨result, stops, other⟩ |
        reached
      · rw [keeps]
        have within := (same.step follow part rest.isEmpty inside).2
        cases move : fs.step follow start part rest.isEmpty with
        | go next =>
          rw [move] at ends within
          exact ih next within ends
        | jump next target =>
          rw [move] at ends within
          exact jumps next _ within ends
        | stop result =>
          rw [move] at ends elsewhere
          exact absurd (congrArg Move.stop ends) elsewhere
      · rw [stops] at ends
        exact absurd ends other
      · rw [reached]
  have walks : ∀ links list start, fs.inode start ≠ none →
      fs.walk follow links start list = some goal →
      after.walk follow' links start list = some goal' := by
    intro links
    induction links with
    | zero => exact fun list start => alongs _ _ (by simp) list start
    | succ links ih =>
      exact fun list start => alongs _ _ (fun start list => ih list start) list start
  unfold LinkedFiles.resolve at leads ⊢
  split at leads
  · cases leads
  · rename_i present
    have starts : after.start path after.current = fs.start path fs.current := by
      simp only [start, root, current]
    rw [if_neg present, starts]
    exact walks _ _ _ (start_ne_none (ne_none_of_folderAt fs.home) path) leads

end Extends

section Placed

/-- A name that a folder did not have was put into it, and the inodes are otherwise as they were;
there may be a new one. -/
structure Placed (fs : LinkedFiles) (folder : Nat) (name : Name) (number : Nat)
    (after : LinkedFiles) : Prop where
  /-- The folder has one more entry. -/
  entries : ∃ entries parent, fs.inode folder = some (.folder entries parent) ∧
    after.inode folder = some (.folder ((name, number) :: entries) parent)
  /-- The other inodes are as they were. -/
  others : ∀ k, k ≠ folder → fs.inode k ≠ none → after.inode k = fs.inode k
  /-- The entry is an inode. -/
  there : after.inode number ≠ none
  /-- The root is the same. -/
  root : after.root = fs.root
  /-- The current folder is the same. -/
  current : after.current = fs.current
  /-- A new folder is empty. -/
  empty : ∀ {k entries parent}, fs.inode k = none →
    after.inode k = some (.folder entries parent) → entries = []

/-- That is what `putEntry` does. -/
theorem placed_of_putEntry {used : fs.inode number ≠ none}
    (done : fs.putEntry folder name number used = some after) :
    fs.Placed folder name number after := by
  unfold putEntry at done
  split at done
  · rename_i entries parent inside
    cases done
    refine ⟨⟨entries, parent, inside, if_pos rfl⟩, fun k other _ => if_neg other, ?_, rfl, rfl,
      ?_⟩
    · by_cases same : number = folder
      · simp [setEntries, same]
      · simpa [setEntries, same] using used
    · intro k others above missing there
      have other : k ≠ folder := by
        rintro rfl
        rw [missing] at inside
        cases inside
      have same : fs.inode k = some (.folder others above) := (if_neg other).symm.trans there
      rw [missing] at same
      cases same
  · cases done

/-- And what `addInode` does, with the new number. -/
theorem placed_of_addInode {value : Inode} {fresh : fs.Fresh value}
    (done : fs.addInode folder name value fresh = some after) (inside : FolderAt fs.inode folder) :
    fs.Placed folder name fs.next after := by
  have placed := placed_of_putEntry done
  obtain ⟨entries, parent, before, now⟩ := placed.entries
  have kept : ∀ k, fs.inode k ≠ none → (fs.newInode value fresh).inode k = fs.inode k := by
    intro k used
    apply if_neg
    rintro rfl
    exact used (fs.unused _ (Nat.le_refl _))
  rw [kept folder (ne_none_of_folderAt inside)] at before
  refine ⟨⟨entries, parent, before, now⟩, ?_, placed.there, placed.root, placed.current, ?_⟩
  · intro k other used
    rw [placed.others k other (by rwa [kept k used]), kept k used]
  · intro k others above missing made
    by_cases new : k = fs.next
    · have apart : k ≠ folder := by
        rintro rfl
        exact ne_none_of_folderAt inside missing
      have isValue : (fs.newInode value fresh).inode k = some value := if_pos new
      rw [placed.others k apart (by simp [isValue]), isValue] at made
      exact (fresh others above (Option.some.inj made)).1
    · exact placed.empty ((if_neg new).trans missing) made

/-- The new number is that of the new inode. -/
theorem inode_of_addInode {value : Inode} {fresh : fs.Fresh value}
    (done : fs.addInode folder name value fresh = some after) (inside : FolderAt fs.inode folder) :
    after.inode fs.next = some value := by
  have apart : fs.next ≠ folder := by
    rintro rfl
    exact ne_none_of_folderAt inside (fs.unused _ (Nat.le_refl _))
  have new := newInode_next fresh
  rw [(placed_of_putEntry done).others fs.next apart (by simp [new]), new]

/-- A walk that goes on from its last component does so in a folder. -/
theorem folderAt_of_step {follow : Bool} {part : List UInt8}
    (goes : fs.step follow folder part true = .go number) : FolderAt fs.inode number := by
  unfold step at goes
  split at goes
  · rename_i entries parent inside
    split at goes
    · cases goes
      exact ⟨entries, parent, inside⟩
    · split at goes
      · cases goes
        exact fs.above inside
      · split at goes
        · cases goes
        · unfold enter at goes
          split at goes
          · cases goes
          · split at goes
            · cases goes
            · split at goes
              · cases goes
              · split at goes <;> cases goes
            · cases goes
  · cases goes

/-- What holds of every folder where a walk may end, and of every place where a component ends it,
holds of the place where a path leads. -/
theorem resolve_rule {motive : Spot → Prop} {follow : Bool}
    (ends : ∀ folder, FolderAt fs.inode folder → motive ⟨folder, none, some folder⟩)
    (stops : ∀ folder part last spot, fs.step follow folder part last = .stop (some spot) →
      motive spot)
    {path : CString} {spot : Spot} (leads : fs.resolve follow path = some spot) : motive spot := by
  have alongs : ∀ (jump : Nat → List (List UInt8) → Option Spot),
      (∀ folder list spot, list ≠ [] → jump folder list = some spot → motive spot) →
      ∀ list folder spot, (list = [] → FolderAt fs.inode folder) →
        fs.along follow jump folder list = some spot → motive spot := by
    intro jump jumps list
    induction list with
    | nil =>
      intro folder spot inside found
      cases found
      exact ends folder (inside rfl)
    | cons part rest ih =>
      intro folder spot _ found
      rw [LinkedFiles.along] at found
      cases move : fs.step follow folder part rest.isEmpty with
      | go number =>
        rw [move] at found
        refine ih number spot ?_ found
        rintro rfl
        exact folderAt_of_step move
      | jump start target =>
        rw [move] at found
        exact jumps start _ spot (by simp [parts, List.splitOn_ne_nil]) found
      | stop result =>
        rw [move] at found
        obtain rfl : result = some spot := found
        exact stops folder part _ spot move
  have walks : ∀ links folder list spot, list ≠ [] →
      fs.walk follow links folder list = some spot → motive spot := by
    intro links
    induction links with
    | zero =>
      exact fun folder list spot some => alongs _ (by simp) list folder spot fun none =>
        absurd none some
    | succ links ih =>
      exact fun folder list spot some => alongs _ ih list folder spot fun none =>
        absurd none some
  unfold resolve at leads
  split at leads
  · cases leads
  · exact walks _ _ _ spot (List.splitOn_ne_nil _ _) leads

/-- A name that ends the walk is the last name of its end. -/
theorem enter_stops {follow last : Bool} {found : Option Nat} {spot : Spot}
    (stops : fs.enter follow folder name last found = .stop (some spot)) :
    spot = ⟨folder, some name, found⟩ := by
  cases found with
  | none =>
    cases last with
    | true => exact (Option.some.inj (Move.stop.inj stops)).symm
    | false => cases stops
  | some number =>
    simp only [enter] at stops
    split at stops
    · cases stops
    · split at stops
      · exact (Option.some.inj (Move.stop.inj stops)).symm
      · split at stops <;> cases stops
    · split at stops
      · exact (Option.some.inj (Move.stop.inj stops)).symm
      · cases stops

/-- A path leads to a folder by no name of its own, or to what a name stands for in a folder. -/
theorem resolve_cases {follow : Bool} {path : CString} {spot : Spot}
    (leads : fs.resolve follow path = some spot) :
    spot.name = none ∧ spot.inode = some spot.folder ∧ FolderAt fs.inode spot.folder ∨
      ∃ name entries parent, spot.name = some name ∧
        fs.inode spot.folder = some (.folder entries parent) ∧
          entries.lookup name = spot.inode := by
  refine resolve_rule (motive := fun spot =>
    spot.name = none ∧ spot.inode = some spot.folder ∧ FolderAt fs.inode spot.folder ∨
      ∃ name entries parent, spot.name = some name ∧
        fs.inode spot.folder = some (.folder entries parent) ∧
          entries.lookup name = spot.inode) ?_ ?_ leads
  · exact fun folder inside => .inl ⟨rfl, rfl, inside⟩
  · intro folder part last spot stops
    unfold step at stops
    split at stops
    · rename_i entries parent inside
      split at stops
      · cases stops
      · split at stops
        · cases stops
        · split at stops
          · cases stops
          · rename_i component parsed
            obtain rfl := enter_stops stops
            exact .inr ⟨component, entries, parent, rfl, inside, rfl⟩
    · cases stops

/-- A path that leads to nothing under a name leads into a folder without that name. -/
theorem absent_of_resolve {follow : Bool} {path : CString}
    (leads : fs.resolve follow path = some ⟨folder, some name, none⟩) :
    ∃ entries parent, fs.inode folder = some (.folder entries parent) ∧
      entries.lookup name = none := by
  rcases resolve_cases leads with
    ⟨unnamed, -⟩ | ⟨component, entries, parent, named, inside, missing⟩
  · cases unnamed
  · cases named
    exact ⟨entries, parent, inside, missing⟩

/-- Nothing but the folder that got the name has changed for a walk. -/
theorem Placed.enter (placed : fs.Placed folder name number after) (start : Nat) (component : Name)
    (last : Bool) {found : Option Nat} (used : ∀ k, found = some k → fs.inode k ≠ none) :
    after.enter false start component last found = fs.enter false start component last found := by
  cases found with
  | none => rfl
  | some k =>
    simp only [LinkedFiles.enter]
    by_cases here : k = folder
    · obtain ⟨entries, parent, before, now⟩ := placed.entries
      rw [here, before, now]
    · rw [placed.others k here (used k rfl)]
      unfold LinkedFiles.start
      rw [placed.root]

/-- Another name does not end a walk at this one. -/
theorem enter_ne_absent {start : Nat} {component : Name}
    (elsewhere : ¬(start = folder ∧ component = name)) (last : Bool) (found : Option Nat) :
    fs.enter false start component last found ≠ .stop (some ⟨folder, some name, none⟩) := by
  intro ends
  have same := enter_stops ends
  simp only [Spot.mk.injEq, Option.some.injEq] at same
  exact elsewhere ⟨same.1.symm, same.2.1.symm⟩

/-- The new name ended the walk at nothing, and ends it at the number now. -/
theorem Placed.enter_new (placed : fs.Placed folder name number after)
    (absent : ∃ entries parent, fs.inode folder = some (.folder entries parent) ∧
      entries.lookup name = none)
    {entries others : List (Name × Nat)} {parent : Nat}
    (before : fs.inode folder = some (.folder entries parent))
    (now : after.inode folder = some (.folder others parent)) (last : Bool) :
    after.enter false folder name last (others.lookup name) =
          fs.enter false folder name last (entries.lookup name) ∧
        fs.enter false folder name last (entries.lookup name) ≠
          .stop (some ⟨folder, some name, none⟩) ∨
      fs.enter false folder name last (entries.lookup name) = .stop none ∨
      after.enter false folder name last (others.lookup name) =
        .stop (some ⟨folder, some name, some number⟩) := by
  obtain ⟨old, above, stored, missing⟩ := absent
  obtain ⟨old', above', stored', got⟩ := placed.entries
  rw [before] at stored stored'
  rw [now] at got
  cases stored
  cases stored'
  cases got
  rw [missing]
  cases last with
  | false => exact .inr (.inl rfl)
  | true =>
    refine .inr (.inr ?_)
    have found : ((name, number) :: entries).lookup name = some number := by simp
    rw [found]
    simp only [LinkedFiles.enter]
    cases there : after.inode number with
    | none => exact absurd there placed.there
    | some value => cases value <;> simp

/-- A component leads where it did, unless it is the new name: that one ended the walk at nothing,
and ends it at the number now. -/
theorem Placed.step (placed : fs.Placed folder name number after)
    (absent : ∃ entries parent, fs.inode folder = some (.folder entries parent) ∧
      entries.lookup name = none)
    {start : Nat} (inside : fs.inode start ≠ none) (part : List UInt8) (last : Bool) :
    after.step false start part last = fs.step false start part last ∧
        fs.step false start part last ≠ .stop (some ⟨folder, some name, none⟩) ∨
      fs.step false start part last = .stop none ∨
      after.step false start part last = .stop (some ⟨folder, some name, some number⟩) := by
  by_cases known : FolderAt fs.inode start
  · obtain ⟨entries, parent, within⟩ := known
    obtain ⟨others, now, lookups⟩ : ∃ others, after.inode start = some (.folder others parent) ∧
        ∀ other, ¬(start = folder ∧ other = name) → others.lookup other = entries.lookup other := by
      by_cases here : start = folder
      · obtain ⟨old, above, before, now⟩ := placed.entries
        rw [here, before] at within
        cases within
        refine ⟨_, here ▸ now, ?_⟩
        intro other elsewhere
        have different : other ≠ name := fun same => elsewhere ⟨here, same⟩
        simp [List.lookup_cons, beq_false_of_ne different]
      · exact ⟨entries, (placed.others start here inside).trans within, fun _ _ => rfl⟩
    simp only [LinkedFiles.step, within, now]
    by_cases skipped : part = [] ∨ part = dot
    · simp [skipped]
    · simp only [if_neg skipped]
      by_cases upwards : part = dots
      · simp [upwards]
      · simp only [if_neg upwards]
        cases Name.parse part with
        | none => exact .inr (.inl rfl)
        | some component =>
          simp only
          by_cases new : start = folder ∧ component = name
          · -- the folder has got the name
            obtain ⟨rfl, rfl⟩ := new
            exact placed.enter_new absent within now last
          · rw [lookups component new]
            have used : ∀ k, entries.lookup component = some k → fs.inode k ≠ none := by
              intro k found
              obtain ⟨front, back, split, -⟩ := List.lookup_eq_some_iff.mp found
              have member : (component, k) ∈ entries := by simp [split]
              exact fs.present within member
            refine .inl ⟨placed.enter start component last used, ?_⟩
            exact enter_ne_absent new last _
  · have stuck : fs.step false start part last = .stop none := by
      unfold LinkedFiles.step
      split
      · rename_i entries parent within
        exact absurd ⟨entries, parent, within⟩ known
      · rfl
    exact .inr (.inl stuck)

/-- The path that led to nothing under the name leads to the number now. -/
theorem Placed.resolve (placed : fs.Placed folder name number after) {path : CString}
    (leads : fs.resolve false path = some ⟨folder, some name, none⟩) :
    after.resolve false path = some ⟨folder, some name, some number⟩ := by
  refine resolve_simulates (by simp) placed.root placed.current ?_ leads
  intro start part last inside
  rcases placed.step (absent_of_resolve leads) inside part last with same | stuck | new
  · exact .inl same
  · exact .inr (.inl ⟨none, stuck, by simp⟩)
  · exact .inr (.inr new)

/-- Taking the name away again leaves all inodes as they were. -/
theorem Placed.erase (placed : fs.Placed folder name number after)
    (absent : ∃ entries parent, fs.inode folder = some (.folder entries parent) ∧
      entries.lookup name = none) :
    ∃ back, after.erase folder name = some back ∧ fs.Extends back := by
  obtain ⟨entries, parent, before, now⟩ := placed.entries
  obtain ⟨entries', parent', before', missing⟩ := absent
  rw [before] at before'
  cases before'
  have without : ((name, number) :: entries).filter (·.1 ≠ name) = entries := by
    rw [List.filter_cons_of_neg (by simp), List.filter_eq_self]
    intro entry member
    have other := List.lookup_eq_none_iff.mp missing entry member
    simpa using Ne.symm (bne_iff_ne.mp other)
  have done : ∃ back, after.erase folder name = some back := by
    unfold LinkedFiles.erase
    split
    · exact ⟨_, rfl⟩
    · rename_i other
      exact absurd now (other _ _)
  obtain ⟨back, done⟩ := done
  obtain ⟨⟨old, above, stored, left⟩, others, root, current⟩ := erased_of_erase done
  rw [now] at stored
  cases stored
  refine ⟨back, done, ?_, root.trans placed.root, current.trans placed.current⟩
  intro k used
  by_cases here : k = folder
  · rw [here, left, without, before]
  · rw [others k here, placed.others k here used]

/-- And what `addFile` does. -/
theorem placed_of_addFile (done : fs.addFile folder name = some after) :
    fs.Placed folder name fs.next after ∧ after.inode fs.next = some (.file []) := by
  unfold addFile at done
  split at done
  · rename_i entries parent inside
    cases done
    have apart : fs.next ≠ folder := Ne.symm (fs.ne_next inside)
    refine ⟨⟨⟨entries, parent, inside, if_pos rfl⟩, ?_, ?_, rfl, rfl, ?_⟩, ?_⟩
    · intro k other used
      have old : k ≠ fs.next := by
        rintro rfl
        exact used (fs.unused _ (Nat.le_refl _))
      simp [setEntries, newFile, other, old]
    · simp [setEntries, newFile, apart]
    · intro k others above missing made
      have other : k ≠ folder := by
        rintro rfl
        rw [missing] at inside
        cases inside
      by_cases new : k = fs.next
      · simp [setEntries, newFile, new, apart] at made
      · simp [setEntries, newFile, other, new, missing] at made
    · simp [setEntries, newFile, apart]
  · cases done

end Placed

section Calls

variable {path : CString}

/-- A path that leads to nothing does so whether links are followed or not. -/
theorem resolve_follow (leads : fs.resolve false path = some ⟨folder, some name, none⟩) :
    fs.resolve true path = some ⟨folder, some name, none⟩ := by
  have enters : ∀ start component last found,
      fs.enter true start component last found = fs.enter false start component last found ∨
        ∃ number, fs.enter false start component last found =
          .stop (some ⟨start, some component, some number⟩) := by
    intro start component last found
    cases found with
    | none => exact .inl rfl
    | some number =>
      simp only [enter]
      split
      · exact .inl rfl
      · cases last with
        | true => exact .inr ⟨number, by simp⟩
        | false => exact .inl (by simp)
      · exact .inl rfl
  have steps : ∀ start part last,
      fs.step true start part last = fs.step false start part last ∨
        ∃ folder name number, fs.step false start part last =
          .stop (some ⟨folder, name, some number⟩) := by
    intro start part last
    unfold step
    split
    · split
      · exact .inl rfl
      · split
        · exact .inl rfl
        · split
          · exact .inl rfl
          · rename_i component parsed
            rcases enters start component last (List.lookup component _) with same | ⟨number, ends⟩
            · exact .inl same
            · exact .inr ⟨_, _, number, ends⟩
    · exact .inl rfl
  refine resolve_simulates (by simp) rfl rfl ?_ leads
  intro start part last inside
  rcases steps start part last with same | ⟨_, _, number, stops⟩
  · by_cases reached : fs.step false start part last = .stop (some ⟨folder, some name, none⟩)
    · exact .inr (.inr (same.trans reached))
    · exact .inl ⟨same, reached⟩
  · exact .inr (.inl ⟨_, stops, by simp⟩)

/-- What a call leaves of an inode: everything, except that a folder may have other entries. -/
def KeptAs : Inode → Option Inode → Prop
  | .folder _ parent, now => ∃ entries, now = some (.folder entries parent)
  | .file bytes, now => now = some (.file bytes)
  | .link target, now => now = some (.link target)
  | .special bytes, now => now = some (.special bytes)

/-- An inode that is as it was is kept. -/
theorem keptAs_self (value : Inode) : KeptAs value (some value) := by
  cases value with
  | folder entries parent => exact ⟨entries, rfl⟩
  | file | link | special => rfl

/-- What is kept twice is kept. -/
theorem KeptAs.trans {value : Inode} {middle now : Option Inode} (first : KeptAs value middle)
    (second : ∀ held, middle = some held → KeptAs held now) : KeptAs value now := by
  cases value with
  | folder entries parent =>
    obtain ⟨others, rfl⟩ := first
    exact second (.folder others parent) rfl
  | file | link | special =>
    obtain rfl := first
    exact second _ rfl

/-- An inode is the root, or some folder has a name for it. -/
def Named (fs : LinkedFiles) (number : Nat) : Prop :=
  number = fs.root ∨ ∃ folder entries parent name,
    fs.inode folder = some (.folder entries parent) ∧ (name, number) ∈ entries

/-- Nothing in the table is lost or overwritten, and an inode without a name gets none. -/
structure Keeps (fs after : LinkedFiles) : Prop where
  /-- Every number stands for what it did. -/
  kept : ∀ number value, fs.inode number = some value → KeptAs value (after.inode number)
  /-- An inode that has a name had one before. -/
  named : ∀ number, fs.inode number ≠ none → after.Named number → fs.Named number

/-- Nothing changes. -/
theorem keeps_refl (fs : LinkedFiles) : fs.Keeps fs where
  kept number value stored := by
    rw [stored]
    exact keptAs_self value
  named _ _ still := still

/-- An inode that is kept is there. -/
theorem KeptAs.ne_none {value : Inode} {now : Option Inode} (kept : KeptAs value now) :
    now ≠ none := by
  rintro rfl
  cases value with
  | folder entries parent =>
    obtain ⟨others, there⟩ := kept
    cases there
  | file | link | special => cases kept

/-- A number that is used stays used. -/
theorem Keeps.ne_none (keeps : fs.Keeps after) (used : fs.inode number ≠ none) :
    after.inode number ≠ none := by
  obtain ⟨value, stored⟩ := Option.ne_none_iff_exists'.mp used
  exact (keeps.kept number value stored).ne_none

/-- What is kept step by step is kept. -/
theorem Keeps.trans {later : LinkedFiles} (first : fs.Keeps after) (second : after.Keeps later) :
    fs.Keeps later where
  kept number value stored :=
    (first.kept number value stored).trans fun held there => second.kept number held there
  named number used still :=
    first.named number used (second.named number (first.ne_none used) still)

/-- A path that leads to anything but a folder leads to what has a name. -/
theorem named_of_resolve {follow : Bool} {path : CString} {spot : Spot}
    (leads : fs.resolve follow path = some spot) (found : spot.inode = some number)
    (plain : fs.plainAt number = true) : fs.Named number := by
  rcases resolve_cases leads with ⟨-, ends, known⟩ | ⟨name, entries, parent, -, inside, entry⟩
  · obtain ⟨entries, parent, inside⟩ := known
    obtain rfl := Option.some.inj (found.symm.trans ends)
    simp [plainAt, inside] at plain
  · obtain ⟨before, later, split, -⟩ := List.lookup_eq_some_iff.mp (entry.trans found)
    exact .inr ⟨spot.folder, entries, parent, name, inside, by simp [split]⟩

/-- A new name for a new inode, or for one that has a name, overwrites nothing. -/
theorem Placed.keeps (placed : fs.Placed folder name number after)
    (known : fs.inode number ≠ none → fs.Named number) : fs.Keeps after := by
  obtain ⟨entries, parent, before, now⟩ := placed.entries
  constructor
  · intro k value stored
    by_cases here : k = folder
    · rw [here, before] at stored
      cases stored
      exact ⟨_, here ▸ now⟩
    · rw [placed.others k here (by simp [stored]), stored]
      exact keptAs_self value
  · intro k used still
    rcases still with isRoot | ⟨holder, others, above, other, inside, member⟩
    · exact .inl (isRoot.trans placed.root)
    · by_cases here : holder = folder
      · rw [here, now] at inside
        cases inside
        rcases List.mem_cons.mp member with added | old
        · obtain ⟨-, rfl⟩ := Prod.mk.inj added
          exact known used
        · exact .inr ⟨folder, entries, parent, other, before, old⟩
      · by_cases missing : fs.inode holder = none
        · rw [placed.empty missing inside] at member
          cases member
        · rw [placed.others holder here missing] at inside
          exact .inr ⟨holder, others, above, other, inside, member⟩

/-- A name that is taken away takes no inode with it. -/
theorem Erased.keeps (erased : fs.Erased folder name after) : fs.Keeps after := by
  obtain ⟨entries, parent, before, now⟩ := erased.entries
  constructor
  · intro k value stored
    by_cases here : k = folder
    · rw [here, before] at stored
      cases stored
      exact ⟨_, here ▸ now⟩
    · rw [erased.others k here, stored]
      exact keptAs_self value
  · intro k _ still
    rcases still with isRoot | ⟨holder, others, above, other, inside, member⟩
    · exact .inl (isRoot.trans erased.root)
    · refine .inr ?_
      by_cases here : holder = folder
      · rw [here, now] at inside
        cases inside
        exact ⟨folder, entries, parent, other, before, (List.mem_filter.mp member).1⟩
      · rw [erased.others holder here] at inside
        exact ⟨holder, others, above, other, inside, member⟩

/-- What `mkdir` does. -/
theorem mkdir_cases (done : fs.mkdir path = some after) :
    ∃ folder name, fs.resolve false (trimmed path) = some ⟨folder, some name, none⟩ ∧
      fs.Placed folder name fs.next after ∧
      after.inode fs.next = some (.folder [] folder) := by
  unfold mkdir at done
  split at done
  · rename_i folder name leads
    have inside := (resolve_sound leads).inside (by simp)
    refine ⟨folder, name, leads, placed_of_addInode done inside, ?_⟩
    exact inode_of_addInode done inside
  · cases done

/-- What `symlink` does. -/
theorem symlink_cases {target : CString} (done : fs.symlink target path = some after) :
    ∃ folder name, fs.resolve false path = some ⟨folder, some name, none⟩ ∧
      fs.Placed folder name fs.next after ∧ after.inode fs.next = some (.link target) := by
  unfold symlink at done
  split at done
  · cases done
  · split at done
    · rename_i folder name leads
      have inside := (resolve_sound leads).inside (by simp)
      exact ⟨folder, name, leads, placed_of_addInode done inside, inode_of_addInode done inside⟩
    · cases done

/-- What `link` does. -/
theorem link_cases {old : CString} (done : fs.link old path = some after) :
    ∃ folder name number, fs.resolve false path = some ⟨folder, some name, none⟩ ∧
      fs.plainAt number = true ∧ fs.Named number ∧ fs.Placed folder name number after := by
  unfold link at done
  split at done
  · rename_i number found
    split at done
    · rename_i plain
      split at done
      · rename_i folder name leads
        exact ⟨folder, name, number, leads, plain, named_of_resolve found rfl plain,
          placed_of_putEntry done⟩
      · cases done
    · cases done
  · cases done

/-- What `rmdir` does. -/
theorem rmdir_cases (done : fs.rmdir path = some after) :
    ∃ folder name, fs.Erased folder name after := by
  unfold rmdir at done
  split at done
  · split at done
    · exact ⟨_, _, erased_of_erase done⟩
    · cases done
  · cases done

/-- What `unlink` does. -/
theorem unlink_cases (done : fs.unlink path = some after) :
    ∃ folder name, fs.Erased folder name after := by
  unfold unlink at done
  split at done
  · split at done
    · exact ⟨_, _, erased_of_erase done⟩
    · cases done
  · cases done

/-- What `remove` does. -/
theorem remove_cases (done : fs.remove path = some after) :
    ∃ folder name, fs.Erased folder name after := by
  rcases Option.or_eq_some_iff.mp done with unlinked | ⟨-, removed⟩
  · exact unlink_cases unlinked
  · exact rmdir_cases removed

/-- What `fopen` with mode `a+` does: nothing if there is something, or it makes an empty file. -/
theorem openAppend_cases {bytes : List UInt8} (done : fs.openAppend path = some (after, bytes)) :
    (after = fs ∧ ∃ folder name number, fs.resolve true path = some ⟨folder, name, some number⟩) ∨
      ∃ folder name, fs.resolve true path = some ⟨folder, some name, none⟩ ∧
        fs.Placed folder name fs.next after ∧ after.inode fs.next = some (.file []) := by
  obtain ⟨⟨folder, name, number⟩, leads, opened⟩ := Option.bind_eq_some_iff.mp done
  cases number with
  | none =>
    obtain ⟨name, rfl, made⟩ := Option.bind_eq_some_iff.mp opened
    obtain ⟨files, added, same⟩ := Option.map_eq_some_iff.mp made
    cases same
    obtain ⟨placed, new⟩ := placed_of_addFile added
    exact .inr ⟨folder, name, leads, placed, new⟩
  | some number =>
    simp only at opened
    have found : ∃ folder name number, fs.resolve true path = some ⟨folder, name, some number⟩ :=
      ⟨folder, name, number, leads⟩
    split at opened
    · cases opened
      exact .inl ⟨rfl, found⟩
    · cases opened
      exact .inl ⟨rfl, found⟩
    · cases opened

end Calls

end NsuOs.LinkedFiles
