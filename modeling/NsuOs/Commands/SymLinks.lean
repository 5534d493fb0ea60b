import NsuOs.Commands.PrintFile

/-!
# The commands for symbolic links

`is_sym_link` asks `stat`, which follows links, for the type of a file, and a walk that follows
links never ends at one. So the check refuses every path, and the three commands behind it return
`ERROR_HAS_OCCURRED` and change nothing, which is right for the paths that are not links only.
-/
namespace NsuOs.Commands

variable {lib : Library} {stack : List UInt8} {path : CString} {machine : Machine}

/-- A path is itself a symbolic link. -/
def IsLink (files : LinkedFiles) (path : CString) : Prop :=
  ∃ target, files.readlink path = some target

/-- The check and the three commands act on a path as they should: on a link they print its target,
open its target or remove it and nothing else, and anything else they refuse. -/
structure ActsOnLinks (lib : Library) (stack : List UInt8) (path : CString) (machine : Machine) :
    Prop where
  /-- The check lets exactly links pass. -/
  passes : isSymLink lib machine.files path = .okey ↔ IsLink machine.files path
  /-- The target of a link is printed, and nothing else changes. -/
  prints : ∀ target, machine.files.readlink path = some target →
    ∃ fuel after, printSymLink lib fuel path machine = some (.okey, after) ∧
      after.out.bytes = machine.out.bytes ++ target.bytes ∧ after.files = machine.files
  /-- The target of a link is what is opened. -/
  reads : ∀ target, machine.files.readlink path = some target →
    ∃ fuel status after,
      readFileFromSymbolLink lib fuel stack path machine = some (status, after) ∧
      after.opened = machine.opened ++ [target]
  /-- The link is removed, and nothing else changes but the folder it was in. -/
  removes : ∀ target, machine.files.readlink path = some target →
    ∃ after, removeSymLink lib path machine = (.okey, after) ∧
      after.files.find false path = none ∧
      ∀ spot number, machine.files.resolve false path = some spot → number ≠ spot.folder →
        after.files.inode number = machine.files.inode number
  /-- What is no link is refused, and nothing changes. -/
  refuses : ¬IsLink machine.files path →
    (∀ fuel, printSymLink lib fuel path machine = some (.errorHasOccurred, machine)) ∧
    (∀ fuel, readFileFromSymbolLink lib fuel stack path machine =
      some (.errorHasOccurred, machine)) ∧
    removeSymLink lib path machine = (.errorHasOccurred, machine)

/-- The check refuses every path. -/
theorem isSymLink_refuses (lib : Library) (files : LinkedFiles) (path : CString) :
    isSymLink lib files path = .errorHasOccurred := by
  unfold isSymLink
  split
  · rfl
  · split
    · rename_i target found
      exact absurd found (files.stat_ne_link path target)
    · rfl

/-- So does `print_sym_link`. -/
theorem printSymLink_refuses (lib : Library) (fuel : Nat) (path : CString) (machine : Machine) :
    printSymLink lib fuel path machine = some (.errorHasOccurred, machine) :=
  if_pos (isSymLink_refuses lib machine.files path)

/-- So does `read_file_from_symbol_link`. -/
theorem readFileFromSymbolLink_refuses (lib : Library) (fuel : Nat) (stack : List UInt8)
    (path : CString) (machine : Machine) :
    readFileFromSymbolLink lib fuel stack path machine = some (.errorHasOccurred, machine) :=
  if_pos (isSymLink_refuses lib machine.files path)

/-- So does `remove_sym_link`. -/
theorem removeSymLink_refuses (lib : Library) (path : CString) (machine : Machine) :
    removeSymLink lib path machine = (.errorHasOccurred, machine) :=
  if_pos (isSymLink_refuses lib machine.files path)

/-- On a link the check is wrong. -/
theorem not_acts_of_link (link : IsLink machine.files path) :
    ¬ActsOnLinks lib stack path machine := by
  intro acts
  have passed := acts.passes.mpr link
  rw [isSymLink_refuses] at passed
  cases passed

/-- For every file system, every path, every answer of the C library and every memory, the commands
for symbolic links act as they should exactly if the path is not a symbolic link. -/
theorem sym_link_commands_iff (lib : Library) (stack : List UInt8) (path : CString)
    (machine : Machine) :
    ActsOnLinks lib stack path machine ↔ ¬IsLink machine.files path := by
  constructor
  · intro acts link
    exact not_acts_of_link link acts
  · intro other
    have nothing : ∀ target, machine.files.readlink path ≠ some target :=
      fun target stored => other ⟨target, stored⟩
    exact {
      passes := by
        rw [isSymLink_refuses]
        exact iff_of_false (by simp) other
      prints := fun target stored => absurd stored (nothing target)
      reads := fun target stored => absurd stored (nothing target)
      removes := fun target stored => absurd stored (nothing target)
      refuses := fun _ => ⟨fun fuel => printSymLink_refuses lib fuel path machine,
        fun fuel => readFileFromSymbolLink_refuses lib fuel stack path machine,
        removeSymLink_refuses lib path machine⟩ }

/-- A current folder with one entry `p`, a link to the folder itself. -/
def withLink : Machine := ⟨lone (.link (CString.ofBytes dot)) (by simp), ⟨[], 0⟩, []⟩

/-- That link is refused. -/
theorem sym_link_refused :
    IsLink withLink.files pathP ∧ ¬ActsOnLinks smoothLibrary [] pathP withLink := by
  have link : IsLink withLink.files pathP := ⟨CString.ofBytes dot, rfl⟩
  exact ⟨link, not_acts_of_link link⟩

end NsuOs.Commands
