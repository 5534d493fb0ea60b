import NsuOs.Commands.Sessions

/-!
# Commands that undo each other

`make_dir`, `touch_file`, `ln_symbol_link` and `ln_hard_link` each put one name where none was. The
command that takes that name away finds it by the same path, and leaves a file system in which every
path leads to what it led to before. For `touch_file` this needs that the path is not a symbolic
link to a file that is not there: `fopen` makes that file, and `remove` takes the link away.
-/
namespace NsuOs.Commands

variable {files after : LinkedFiles} {folder number : Nat} {name : Name} {path : CString}

/-- A path names nothing in a folder that is there. -/
def Vacant (files : LinkedFiles) (path : CString) : Prop :=
  ∃ folder name, files.resolve false path = some ⟨folder, some name, none⟩

/-- What was put at a vacant path is removed by that path, unless it is a folder with entries. -/
theorem remove_placed (placed : files.Placed folder name number after)
    (leads : files.resolve false path = some ⟨folder, some name, none⟩) {value : Inode}
    (there : after.inode number = some value)
    (plain : ∀ entries parent, value ≠ .folder entries parent) :
    ∃ back, after.remove path = some back ∧ files.Extends back := by
  obtain ⟨back, erased, same⟩ := placed.erase (LinkedFiles.absent_of_resolve leads)
  refine ⟨back, ?_, same⟩
  unfold LinkedFiles.remove LinkedFiles.unlink
  rw [placed.resolve leads]
  have isPlain : after.plainAt number = true := by
    unfold LinkedFiles.plainAt
    rw [there]
    cases value with
    | folder entries parent => exact absurd rfl (plain entries parent)
    | file | link | special => rfl
  simp only [isPlain, if_true, erased, Option.some_or]

/-- A folder made at a vacant path is removed by that path. -/
theorem rmdir_placed (placed : files.Placed folder name number after)
    (leads : files.resolve false (LinkedFiles.trimmed path) = some ⟨folder, some name, none⟩)
    {parent : Nat} (there : after.inode number = some (.folder [] parent)) :
    ∃ back, after.rmdir path = some back ∧ files.Extends back := by
  obtain ⟨back, erased, same⟩ := placed.erase (LinkedFiles.absent_of_resolve leads)
  refine ⟨back, ?_, same⟩
  unfold LinkedFiles.rmdir
  rw [placed.resolve leads]
  simp only [there]
  exact erased

/-- Another name of a file, put at a vacant path, is taken away by that path. -/
theorem unlink_placed (placed : files.Placed folder name number after)
    (leads : files.resolve false path = some ⟨folder, some name, none⟩)
    (plain : files.plainAt number = true) :
    ∃ back, after.unlink path = some back ∧ files.Extends back := by
  obtain ⟨back, erased, same⟩ := placed.erase (LinkedFiles.absent_of_resolve leads)
  have apart : number ≠ folder := by
    rintro rfl
    obtain ⟨entries, parent, before, -⟩ := placed.entries
    simp [LinkedFiles.plainAt, before] at plain
  have still : after.plainAt number = true := by
    unfold LinkedFiles.plainAt at plain ⊢
    rw [placed.others number apart]
    · exact plain
    · intro missing
      simp [missing] at plain
  refine ⟨back, ?_, same⟩
  unfold LinkedFiles.unlink
  rw [placed.resolve leads]
  simp only [still, if_true]
  exact erased

/-- The command that takes away what another one has made. -/
inductive Undoes : Command → CString → Command → CString → Prop
  /-- The folder is removed. -/
  | makeDir (path : CString) : Undoes .makeDir path .removeDir path
  /-- The file is removed. -/
  | touchFile (path : CString) : Undoes .touchFile path .removeFile path
  /-- The symbolic link is removed. -/
  | lnSymbolLink (target : CString) : Undoes .lnSymbolLink target .removeFile symbolLink
  /-- The name of the hard link is taken away. -/
  | lnHardLink (path : CString) : Undoes .lnHardLink path .hardUnlink hardLink

/-- The calls that take names away do not fail by themselves. -/
structure Calls.TakesAway (calls : Calls) : Prop where
  /-- `rmdir` is not made to fail. -/
  rmdir : calls.rmdirFails = false
  /-- `remove` is not made to fail. -/
  remove : calls.removeFails = false
  /-- `unlink` is not made to fail. -/
  unlink : calls.unlinkFails = false

/-- What an attempt that succeeded has left. -/
theorem attempt_okey {fails : Bool} {result : Option LinkedFiles} {host left : Host}
    {leave : LinkedFiles → Host} (done : attempt fails result host leave = (.okey, left)) :
    ∃ made, result = some made ∧ left = leave made := by
  unfold attempt at done
  split at done
  · cases done
  · split at done
    · cases done
    · cases done
      exact ⟨_, rfl, rfl⟩

/-- A file that `touch_file` made at a vacant path. -/
theorem touchFile_okey {calls : Calls} {host left : Host}
    (done : touchFile calls path host = (.okey, left))
    (leads : host.machine.files.resolve false path = some ⟨folder, some name, none⟩) :
    host.machine.files.Placed folder name host.machine.files.next left.machine.files ∧
      left.machine.files.inode host.machine.files.next = some (.file []) := by
  unfold touchFile openFile at done
  split at done
  · cases done
  · rename_i tried content opened
    simp only [Prod.mk.injEq] at done
    obtain ⟨-, rfl⟩ := done
    split at opened
    · cases opened
    · split at opened
      · cases opened
      · rename_i files bytes found
        cases opened
        have followed := LinkedFiles.resolve_follow leads
        rcases LinkedFiles.openAppend_cases found with
          ⟨-, _, _, number, leads'⟩ | ⟨_, _, leads', placed, new⟩
        · rw [followed] at leads'
          cases leads'
        · rw [followed] at leads'
          cases leads'
          exact ⟨placed, new⟩

/-- Whatever a command made at a place where nothing was, the command that undoes it succeeds right
after it, if its call is not made to fail, and then every path leads to what it led to before, links
followed or not. -/
theorem create_undone {create undo : Command} {target taken : CString} {host middle : Host}
    {first : Invocation} (second : Invocation) (undoes : Undoes create target undo taken)
    (made : create.run first target host = some (.okey, middle))
    (vacant : create = .touchFile → Vacant host.machine.files target)
    (answers : second.calls.TakesAway) :
    ∃ left, undo.run second taken middle = some (.okey, left) ∧
      ∀ follow path, left.machine.files.find follow path = host.machine.files.find follow path := by
  cases undoes with
  | makeDir =>
    obtain ⟨files, done, rfl⟩ := attempt_okey (Option.some.inj made)
    obtain ⟨folder, name, leads, placed, new⟩ := LinkedFiles.mkdir_cases done
    obtain ⟨back, removed, same⟩ := rmdir_placed placed leads new
    let made := host.create files (defaultDir &&& ~~~first.calls.umask)
    refine ⟨made.replace back, ?_, fun follow path => same.find follow path⟩
    simp only [Command.run, removeDir, attempt, answers.rmdir, Host.create, removed]
    rfl
  | touchFile =>
    obtain ⟨folder, name, leads⟩ := vacant rfl
    obtain ⟨placed, new⟩ := touchFile_okey (Option.some.inj made) leads
    obtain ⟨back, removed, same⟩ := remove_placed placed leads new (by simp)
    refine ⟨middle.replace back, ?_, fun follow path => same.find follow path⟩
    simp only [Command.run, removeFile, answers.remove, removed]
    rfl
  | lnSymbolLink =>
    obtain ⟨files, done, rfl⟩ := attempt_okey (Option.some.inj made)
    obtain ⟨folder, name, leads, placed, new⟩ := LinkedFiles.symlink_cases done
    obtain ⟨back, removed, same⟩ := remove_placed placed leads new (by simp)
    refine ⟨(host.create files 0o777).replace back, ?_, fun follow path => same.find follow path⟩
    simp only [Command.run, removeFile, answers.remove, Host.create, removed]
    rfl
  | lnHardLink =>
    obtain ⟨files, done, rfl⟩ := attempt_okey (Option.some.inj made)
    obtain ⟨folder, name, number, leads, plain, -, placed⟩ := LinkedFiles.link_cases done
    obtain ⟨back, removed, same⟩ := unlink_placed placed leads plain
    refine ⟨(host.replace files).replace back, ?_, fun follow path => same.find follow path⟩
    simp only [Command.run, hardUnlink, attempt, answers.unlink, Host.replace, removed]
    rfl

/-- Making a folder and removing it leaves every path as it was. -/
theorem create_undone_folder :
    ∃ middle left, Command.makeDir.run (Command.makeDir.invoke pathP) pathP bareDisk.host =
        some (.okey, middle) ∧
      Command.removeDir.run (Command.removeDir.invoke pathP) pathP middle = some (.okey, left) ∧
      ∀ follow path, left.machine.files.find follow path = bareDisk.files.find follow path := by
  have status : (Command.makeDir.run (Command.makeDir.invoke pathP) pathP bareDisk.host).map
      Prod.fst = some .okey := by
    decide +kernel
  obtain ⟨⟨returned, middle⟩, made, rfl⟩ := Option.map_eq_some_iff.mp status
  obtain ⟨left, undone, same⟩ := create_undone (Command.removeDir.invoke pathP) (.makeDir pathP)
    made (by simp) ⟨rfl, rfl, rfl⟩
  exact ⟨middle, left, made, undone, same⟩

end NsuOs.Commands
