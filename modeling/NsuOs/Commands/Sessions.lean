import NsuOs.Base.Run
import NsuOs.Commands.DiskCommands
import NsuOs.Commands.SymLinks

/-!
# Sessions of the command program

One program is run under many names: `main` reads its own name from `/proc/self/status`, and
`selection_command` compares it with the names of the commands. The kernel keeps 15 bytes of the
name of a program. A session is any sequence of such runs, each a process of its own with its own
standard output, on one file system.
-/
namespace NsuOs.Commands

open NsuOs.Run

/-- The commands. -/
inductive Command
  | makeDir
  | printDir
  | removeDir
  | touchFile
  | printFile
  | removeFile
  | lnSymbolLink
  | printSymLink
  | readFileFromSymbolLink
  | removeSymLink
  | lnHardLink
  | hardUnlink
  | printPermitted
  | changePermitted
  deriving DecidableEq

/-- The name `selection_command` knows a command by, without the end of the line. -/
def Command.name : Command → List UInt8
  | .makeDir => ascii "mkdir"
  | .printDir => ascii "print_dir"
  | .removeDir => ascii "rmdir"
  | .touchFile => ascii "touch_file"
  | .printFile => ascii "print_file"
  | .removeFile => ascii "remove_file"
  | .lnSymbolLink => ascii "ln_symbol_link"
  | .printSymLink => ascii "print_sym_link"
  | .readFileFromSymbolLink => ascii "read_file_from_symbol_link"
  | .removeSymLink => ascii "remove_sym_link"
  | .lnHardLink => ascii "ln_hard_link"
  | .hardUnlink => ascii "hard_unlink"
  | .printPermitted => ascii "print_permitted"
  | .changePermitted => ascii "change_permitted"

/-- The commands in the order of the comparisons. -/
def Command.all : List Command :=
  [.makeDir, .printDir, .removeDir, .touchFile, .printFile, .removeFile, .lnSymbolLink,
    .printSymLink, .readFileFromSymbolLink, .removeSymLink, .lnHardLink, .hardUnlink,
    .printPermitted, .changePermitted]

/-- The command whose name is the first to compare equal. -/
def selected (nameCommand : List UInt8) : Option Command :=
  Command.all.find? fun command => command.name ++ [10] = nameCommand

/-- One run of the program: the name of its file, its arguments, and what the system answers. -/
structure Invocation where
  /-- The name of the file of the program. -/
  program : Name
  /-- The arguments behind it. -/
  arguments : List CString
  /-- What the C library answers. -/
  calls : Calls
  /-- The memory at the buffer of `read_file_from_symbol_link`. -/
  stack : List UInt8
  /-- The memory at the block of `get_permissions`. -/
  leftover : List UInt8
  /-- `/proc/self/status` cannot be opened or read. -/
  statusFails : Bool
  /-- The rounds each loop around `fwrite` may take. -/
  rounds : Nat

/-- The bytes of its name that the kernel keeps for a process. -/
def taskName (program : Name) : List UInt8 := program.bytes.take 15

/-- Newlines and backslashes are shown with a backslash. -/
def escaped (bytes : List UInt8) : List UInt8 :=
  bytes.flatMap fun byte => if byte = 10 then [92, 110] else if byte = 92 then [92, 92] else [byte]

/-- The first line of `/proc/self/status`. -/
def statusLine (program : Name) : List UInt8 :=
  ascii "Name:\t" ++ escaped (taskName program) ++ [10]

/-- `get_name_command`; `none` when it calls `exit(1)`. -/
def getNameCommand (invocation : Invocation) : Option (List UInt8) :=
  if invocation.statusFails then none
  else
    let skipName := 6
    some ((statusLine invocation.program).drop skipName)

/-- A command on the machine alone. -/
def Host.onMachine (host : Host) (result : ReturnStatus × Machine) : ReturnStatus × Host :=
  (result.1, { host with machine := result.2 })

/-- A command is run on its argument; `none` when it never ends. -/
def Command.run (command : Command) (invocation : Invocation) (nameUtil : CString) (host : Host) :
    Option (ReturnStatus × Host) :=
  match command with
  | .makeDir => some (Commands.makeDir invocation.calls nameUtil host)
  | .printDir => some (Commands.printDir invocation.calls nameUtil host)
  | .removeDir => some (Commands.removeDir invocation.calls nameUtil host)
  | .touchFile => some (Commands.touchFile invocation.calls nameUtil host)
  | .printFile =>
    (Commands.printFile invocation.calls.toLibrary invocation.rounds nameUtil host.machine).map
      host.onMachine
  | .removeFile =>
    some (host.onMachine (Commands.removeFile invocation.calls.toLibrary nameUtil host.machine))
  | .lnSymbolLink => some (Commands.lnSymbolLink invocation.calls nameUtil host)
  | .printSymLink =>
    (Commands.printSymLink invocation.calls.toLibrary invocation.rounds nameUtil host.machine).map
      host.onMachine
  | .readFileFromSymbolLink =>
    (Commands.readFileFromSymbolLink invocation.calls.toLibrary invocation.rounds invocation.stack
      nameUtil host.machine).map host.onMachine
  | .removeSymLink =>
    some (host.onMachine (Commands.removeSymLink invocation.calls.toLibrary nameUtil host.machine))
  | .lnHardLink => some (Commands.lnHardLink invocation.calls nameUtil host)
  | .hardUnlink => some (Commands.hardUnlink invocation.calls nameUtil host)
  | .printPermitted =>
    some (Commands.printPermitted invocation.calls invocation.leftover nameUtil host)
  | .changePermitted => some (Commands.changePermitted invocation.calls nameUtil host)

/-- `selection_command`. -/
def selectionCommand (nameCommand : List UInt8) (invocation : Invocation) (nameUtil : CString)
    (host : Host) : Option (ReturnStatus × Host) :=
  match selected nameCommand with
  | some command => command.run invocation nameUtil host
  | none => some (.errorHasOccurred, host)

/-- The number of a status. -/
def ReturnStatus.code : ReturnStatus → Int
  | .errorHasOccurred => -1
  | .okey => 0

/-- `main`, with what it returns or passes to `exit`. -/
def main (invocation : Invocation) (host : Host) : Option (Int × Host) :=
  match invocation.arguments with
  | [nameUtil] =>
    match getNameCommand invocation with
    | none => some (1, host)
    | some nameCommand =>
      (selectionCommand nameCommand invocation nameUtil host).map fun (status, after) =>
        (status.code, after)
  | _ => some (1, host)

/-- The files and their permission bits. -/
structure Disk where
  /-- The inodes and the names that lead to them. -/
  files : LinkedFiles
  /-- The permission bits of each inode. -/
  mode : Nat → BitVec 32

/-- The disk, and what every process of the session returned and printed. -/
structure Session where
  /-- The disk after the commands so far. -/
  disk : Disk
  /-- The status and the output of each of them. -/
  log : List (Int × List UInt8)

/-- What a new process finds. -/
def Disk.host (disk : Disk) : Host := ⟨⟨disk.files, ⟨[], 0⟩, []⟩, disk.mode⟩

/-- What a process leaves. -/
def Host.disk (host : Host) : Disk := ⟨host.machine.files, host.mode⟩

/-- One process of a session. -/
def next (session : Session) (invocation : Invocation) : Option Session :=
  (main invocation session.disk.host).map fun (code, host) =>
    ⟨host.disk, session.log ++ [(code, host.machine.out.bytes)]⟩

section Selection

/-- Text that shows no backslash was not changed. -/
theorem escaped_eq_iff {bytes text : List UInt8} (newline : 10 ∉ text) (backslash : 92 ∉ text) :
    escaped bytes = text ↔ bytes = text := by
  have plain : ∀ bytes, 10 ∉ bytes → 92 ∉ bytes → escaped bytes = bytes := by
    intro bytes
    induction bytes with
    | nil => exact fun _ _ => rfl
    | cons byte rest ih =>
      intro lines slashes
      simp only [List.mem_cons, not_or] at lines slashes
      have later := ih lines.2 slashes.2
      unfold escaped at later ⊢
      simp [Ne.symm lines.1, Ne.symm slashes.1, later]
  constructor
  · rintro rfl
    have shown : ∀ byte ∈ bytes, byte = 10 ∨ byte = 92 → 92 ∈ escaped bytes := by
      intro byte member special
      apply List.mem_flatMap.mpr
      refine ⟨byte, member, ?_⟩
      rcases special with rfl | rfl <;> simp
    apply (plain bytes ?_ ?_).symm
    · intro line
      exact backslash (shown 10 line (.inl rfl))
    · intro slash
      exact backslash (shown 92 slash (.inr rfl))
  · rintro rfl
    exact plain bytes newline backslash

/-- The names of the commands need no escape and are different. -/
theorem name_plain (command : Command) : 10 ∉ command.name ∧ 92 ∉ command.name := by
  cases command <;> decide

/-- A name selects a command exactly if it is the command's. -/
theorem selected_eq_some {name : List UInt8} {command : Command} :
    selected (name ++ [10]) = some command ↔ command.name = name := by
  have each : ∀ command, selected (Command.name command ++ [10]) = some command := by
    intro command
    cases command <;> decide
  constructor
  · intro found
    have equal := List.find?_some found
    simpa using equal
  · rintro rfl
    exact each command

/-- The command that a run of the program selects. -/
def Invocation.command (invocation : Invocation) : Option Command :=
  (getNameCommand invocation).bind selected

/-- It is the one with the name that the kernel kept. -/
theorem command_eq_some_iff {invocation : Invocation} (reads : invocation.statusFails = false)
    (command : Command) :
    invocation.command = some command ↔ invocation.program.bytes.take 15 = command.name := by
  have line : getNameCommand invocation = some (escaped (taskName invocation.program) ++ [10]) := by
    unfold getNameCommand statusLine
    rw [reads, List.append_assoc]
    exact congrArg some (List.drop_left' rfl)
  unfold Invocation.command
  rw [line, Option.bind_some, selected_eq_some, eq_comm,
    escaped_eq_iff (name_plain command).1 (name_plain command).2]
  rfl

/-- A command with a name that the kernel does not keep whole is never selected. -/
theorem command_ne_of_long {command : Command} (long : 15 < command.name.length)
    (invocation : Invocation) : invocation.command ≠ some command := by
  intro found
  cases reads : invocation.statusFails with
  | true => simp [Invocation.command, getNameCommand, reads] at found
  | false =>
    have kept := (command_eq_some_iff reads command).mp found
    have length := congrArg List.length kept
    simp only [List.length_take] at length
    omega

/-- For every program that can read its name: a command is selected exactly when the first 15 bytes
of the program's name are the name of the command, so that whatever follows them does not matter.
Two commands have longer names and are never selected, whatever the program is called. -/
theorem command_selected_iff (invocation : Invocation) (reads : invocation.statusFails = false) :
    (∀ command, invocation.command = some command ↔
      invocation.program.bytes.take 15 = command.name) ∧
    invocation.command ≠ some .readFileFromSymbolLink ∧
    invocation.command ≠ some .changePermitted :=
  ⟨command_eq_some_iff reads, command_ne_of_long (by decide) invocation,
    command_ne_of_long (by decide) invocation⟩

end Selection

section Effects

variable {host after : Host} {status : ReturnStatus}

/-- What a command reports as an error it has not done. -/
theorem attempt_error {fails : Bool} {result : Option LinkedFiles} {leave : LinkedFiles → Host}
    (done : attempt fails result host leave = (.errorHasOccurred, after)) : after = host := by
  unfold attempt at done
  split at done
  · cases done
    rfl
  · split at done
    · cases done
      rfl
    · cases done

/-- Printing changes no file. -/
@[simp] theorem disk_print (host : Host) (lib : Library) (bytes : List UInt8) :
    (host.print lib bytes).disk = host.disk := by
  unfold Host.print
  split <;> rfl

/-- `print_file` changes no file. -/
theorem printFile_files {lib : Library} {fuel : Nat} {path : CString} {machine left : Machine}
    (done : printFile lib fuel path machine = some (status, left)) :
    left.files = machine.files := by
  unfold printFile at done
  split at done
  · cases done
    rfl
  · rename_i regular
    obtain ⟨bytes, found⟩ : ∃ bytes, machine.files.stat path = some (.file bytes) := by
      unfold isFileReg at regular
      split at regular
      · exact absurd rfl regular
      · split at regular
        · exact ⟨_, ‹_›⟩
        · exact absurd rfl regular
    unfold writeOpened openFile at done
    rw [LinkedFiles.openAppend_of_stat found] at done
    split at done
    · rename_i tried opened
      cases done
      split at opened <;> cases opened
      rfl
    · rename_i tried content opened
      obtain ⟨⟨_, out⟩, -, same⟩ := Option.map_eq_some_iff.mp done
      cases same
      split at opened <;> cases opened
      rfl

/-- A command that reports an error has left the disk as it was, unless it is `touch_file` and
`fclose` failed. -/
theorem run_error {command : Command} {invocation : Invocation} {nameUtil : CString}
    (done : command.run invocation nameUtil host = some (.errorHasOccurred, after))
    (closes : command = .touchFile → invocation.calls.fcloseFails = false) :
    after.disk = host.disk := by
  cases command with
  | makeDir | removeDir | lnSymbolLink | lnHardLink | hardUnlink =>
    rw [attempt_error (Option.some.inj done)]
  | printDir =>
    have printed := Option.some.inj done
    unfold printDir at printed
    split at printed
    · cases printed
      rfl
    · split at printed
      · cases printed
        rfl
      · simp only at printed
        split at printed <;> cases printed
        exact disk_print _ _ _
  | touchFile =>
    have touched := Option.some.inj done
    unfold touchFile openFile at touched
    simp only [closes rfl] at touched
    split at touched
    · rename_i tried opened
      cases touched
      split at opened
      · cases opened
        rfl
      · split at opened <;> cases opened
        rfl
    · cases touched
  | printFile =>
    obtain ⟨⟨returned, left⟩, printed, same⟩ := Option.map_eq_some_iff.mp done
    have files := printFile_files printed
    cases same
    simp only [Host.disk, files]
  | removeFile =>
    have removed := Option.some.inj done
    simp only [Host.onMachine, removeFile] at removed
    split at removed
    · cases removed
      rfl
    · split at removed <;> cases removed
      rfl
  | printSymLink =>
    rw [Command.run, printSymLink_refuses] at done
    cases done
    rfl
  | readFileFromSymbolLink =>
    rw [Command.run, readFileFromSymbolLink_refuses] at done
    cases done
    rfl
  | removeSymLink =>
    rw [Command.run, removeSymLink_refuses] at done
    cases done
    rfl
  | printPermitted =>
    have printed := Option.some.inj done
    unfold printPermitted at printed
    split at printed
    · cases printed
      rfl
    · split at printed <;> cases printed
      rfl
  | changePermitted =>
    have changed := Option.some.inj done
    unfold changePermitted at changed
    split at changed
    · cases changed
      rfl
    · split at changed
      · cases changed
        rfl
      · split at changed
        · cases changed
          rfl
        · split at changed <;> cases changed
          rfl

/-- Every number of the table stands for what it did, with its permission bits, also one that has
lost its last name. -/
structure Disk.Holds (disk later : Disk) : Prop where
  /-- The files. -/
  files : disk.files.Keeps later.files
  /-- The permission bits. -/
  mode : ∀ number, disk.files.inode number ≠ none → later.mode number = disk.mode number

/-- A disk that is as it was is kept. -/
theorem holds_refl (disk : Disk) : disk.Holds disk := ⟨disk.files.keeps_refl, fun _ _ => rfl⟩

/-- What is kept step by step is kept. -/
theorem Disk.Holds.trans {disk middle later : Disk} (first : disk.Holds middle)
    (second : middle.Holds later) : disk.Holds later := by
  refine ⟨first.files.trans second.files, fun number used => ?_⟩
  rw [second.mode number (first.files.ne_none used), first.mode number used]

/-- A call that keeps the files, and gives permission bits to a new inode only. -/
theorem holds_create {files : LinkedFiles} (kept : host.machine.files.Keeps files)
    (mode : BitVec 32) : host.disk.Holds (host.create files mode).disk := by
  refine ⟨kept, ?_⟩
  intro number used
  have old : number ≠ host.machine.files.next := by
    rintro rfl
    exact used (host.machine.files.unused _ (Nat.le_refl _))
  exact Function.update_of_ne old _ _

/-- A call that puts a new inode under a name. -/
theorem holds_placed {files : LinkedFiles} {folder : Nat} {name : Name}
    (placed : host.machine.files.Placed folder name host.machine.files.next files)
    (mode : BitVec 32) : host.disk.Holds (host.create files mode).disk :=
  holds_create (placed.keeps fun used =>
    absurd (host.machine.files.unused _ (Nat.le_refl _)) used) mode

/-- A command that makes one call keeps what the call keeps. -/
theorem attempt_holds {fails : Bool} {result : Option LinkedFiles} {leave : LinkedFiles → Host}
    (kept : ∀ files, result = some files → host.disk.Holds (leave files).disk)
    (done : attempt fails result host leave = (status, after)) : host.disk.Holds after.disk := by
  unfold attempt at done
  split at done
  · cases done
    exact holds_refl _
  · split at done
    · cases done
      exact holds_refl _
    · cases done
      exact kept _ rfl

/-- `touch_file` keeps everything. -/
theorem touchFile_holds {calls : Calls} {nameFile : CString}
    (done : touchFile calls nameFile host = (status, after)) : host.disk.Holds after.disk := by
  unfold touchFile openFile at done
  split at done
  · rename_i tried opened
    cases done
    split at opened
    · cases opened
      exact holds_refl _
    · split at opened <;> cases opened
      exact holds_refl _
  · rename_i tried content opened
    cases done
    split at opened
    · cases opened
    · split at opened
      · cases opened
      · rename_i files bytes found
        cases opened
        have kept : host.machine.files.Keeps files := by
          rcases LinkedFiles.openAppend_cases found with ⟨rfl, -⟩ | ⟨folder, name, -, placed, -⟩
          · exact LinkedFiles.keeps_refl _
          · exact (holds_placed placed 0).files
        refine ⟨kept, ?_⟩
        intro number used
        simp only [Host.disk]
        split
        · rfl
        · exact (holds_create kept (newFileMode &&& ~~~calls.umask)).mode number used

/-- Every command but `change_permitted` keeps every inode and its permission bits. -/
theorem run_holds {command : Command} {invocation : Invocation} {nameUtil : CString}
    (other : command ≠ .changePermitted)
    (done : command.run invocation nameUtil host = some (status, after)) :
    host.disk.Holds after.disk := by
  cases command with
  | makeDir =>
    refine attempt_holds ?_ (Option.some.inj done)
    intro files made
    obtain ⟨folder, name, -, placed, -⟩ := LinkedFiles.mkdir_cases made
    exact holds_placed placed _
  | removeDir =>
    refine attempt_holds ?_ (Option.some.inj done)
    intro files removed
    obtain ⟨folder, name, erased⟩ := LinkedFiles.rmdir_cases removed
    exact ⟨erased.keeps, fun _ _ => rfl⟩
  | lnSymbolLink =>
    refine attempt_holds ?_ (Option.some.inj done)
    intro files made
    obtain ⟨folder, name, -, placed, -⟩ := LinkedFiles.symlink_cases made
    exact holds_placed placed _
  | lnHardLink =>
    refine attempt_holds ?_ (Option.some.inj done)
    intro files made
    obtain ⟨folder, name, number, -, -, named, placed⟩ := LinkedFiles.link_cases made
    exact ⟨placed.keeps fun _ => named, fun _ _ => rfl⟩
  | hardUnlink =>
    refine attempt_holds ?_ (Option.some.inj done)
    intro files removed
    obtain ⟨folder, name, erased⟩ := LinkedFiles.unlink_cases removed
    exact ⟨erased.keeps, fun _ _ => rfl⟩
  | printDir =>
    have printed := Option.some.inj done
    unfold printDir at printed
    split at printed
    · cases printed
      exact holds_refl _
    · split at printed
      · cases printed
        exact holds_refl _
      · simp only at printed
        split at printed
        all_goals
          cases printed
          rw [disk_print]
          exact holds_refl _
  | touchFile => exact touchFile_holds (Option.some.inj done)
  | printFile =>
    obtain ⟨⟨returned, left⟩, printed, same⟩ := Option.map_eq_some_iff.mp done
    have files := printFile_files printed
    cases same
    simp only [Host.disk, files]
    exact holds_refl _
  | removeFile =>
    have removed := Option.some.inj done
    simp only [Host.onMachine, removeFile] at removed
    split at removed
    · cases removed
      exact holds_refl _
    · split at removed
      · cases removed
        exact holds_refl _
      · rename_i files gone
        cases removed
        obtain ⟨folder, name, erased⟩ := LinkedFiles.remove_cases gone
        exact ⟨erased.keeps, fun _ _ => rfl⟩
  | printSymLink =>
    rw [Command.run, printSymLink_refuses] at done
    cases done
    exact holds_refl _
  | readFileFromSymbolLink =>
    rw [Command.run, readFileFromSymbolLink_refuses] at done
    cases done
    exact holds_refl _
  | removeSymLink =>
    rw [Command.run, removeSymLink_refuses] at done
    cases done
    exact holds_refl _
  | printPermitted =>
    have printed := Option.some.inj done
    unfold printPermitted at printed
    split at printed
    · cases printed
      exact holds_refl _
    · split at printed
      · cases printed
        exact holds_refl _
      · cases printed
        rw [disk_print, disk_print]
        exact holds_refl _
  | changePermitted => exact absurd rfl other

/-- A run of the program does nothing and fails, or runs the command it selects. -/
theorem main_cases {invocation : Invocation} {code : Int}
    (done : main invocation host = some (code, after)) :
    code ≠ 0 ∧ after = host ∨
      ∃ command status nameUtil, invocation.command = some command ∧
        command.run invocation nameUtil host = some (status, after) ∧ code = status.code := by
  unfold main at done
  split at done
  · rename_i nameUtil one
    split at done
    · cases done
      exact .inl ⟨by decide, rfl⟩
    · rename_i nameCommand read
      obtain ⟨⟨status, left⟩, ran, same⟩ := Option.map_eq_some_iff.mp done
      cases same
      unfold selectionCommand at ran
      split at ran
      · rename_i command found
        exact .inr ⟨command, status, nameUtil, by simp [Invocation.command, read, found], ran, rfl⟩
      · cases ran
        exact .inl ⟨by decide, rfl⟩
  · cases done
    exact .inl ⟨by decide, rfl⟩

end Effects

/-- One process of a session leaves what `main` does, and its result is recorded. -/
theorem next_cases {session after : Session} {invocation : Invocation}
    (taken : next session invocation = some after) :
    ∃ code host, main invocation session.disk.host = some (code, host) ∧
      after.disk = host.disk ∧ after.log = session.log ++ [(code, host.machine.out.bytes)] := by
  obtain ⟨⟨code, host⟩, ran, same⟩ := Option.map_eq_some_iff.mp taken
  cases same
  exact ⟨code, host, ran, rfl, rfl⟩

/-- In every session of any programs on any arguments every inode is kept. -/
theorem session_holds {start finish : Session} {labels : List Invocation}
    (run : exec next start labels = some finish) : start.disk.Holds finish.disk := by
  refine exec_induct (motive := fun _ session => start.disk.Holds session.disk)
    (holds_refl start.disk) ?_ run
  intro earlier session invocation after _ kept taken
  obtain ⟨code, host, ran, left, -⟩ := next_cases taken
  rw [left]
  apply kept.trans
  rcases main_cases ran with ⟨-, rfl⟩ | ⟨command, status, nameUtil, chosen, ran, -⟩
  · exact holds_refl _
  · apply run_holds ?_ ran
    rintro rfl
    exact command_ne_of_long (by decide) invocation chosen

/-- What still has a name is as it was; what has lost its last name is gone. -/
structure Disk.Keeps (disk later : Disk) : Prop where
  /-- A file, link or special file with a name has the contents it had, and a folder with a name
  is one inside the same folder. -/
  files : ∀ number value, disk.files.inode number = some value → later.files.Named number →
    LinkedFiles.KeptAs value (later.files.inode number)
  /-- It has the permission bits it had. -/
  mode : ∀ number, disk.files.inode number ≠ none → later.files.Named number →
    later.mode number = disk.mode number
  /-- What had no name has none. -/
  named : ∀ number, disk.files.inode number ≠ none → later.files.Named number →
    disk.files.Named number

/-- In every session of any programs on any arguments, with any failures, and in every part of one:
every file, link and special file that still has a name has the contents it had, every folder that
has one is a folder inside the same folder, all of them have the permission bits they had, and what
has lost its last name does not get one again. -/
theorem session_keeps {start finish : Session} {labels : List Invocation}
    (run : exec next start labels = some finish) : start.disk.Keeps finish.disk := by
  have held := session_holds run
  exact
    { files := fun number value stored _ => held.files.kept number value stored
      mode := fun number used _ => held.mode number used
      named := held.files.named }

/-- `touch_file` is not left with a stream that cannot be closed. -/
def Invocation.Closes (invocation : Invocation) : Prop :=
  invocation.command = some .touchFile → invocation.calls.fcloseFails = false

/-- A process that fails leaves the disk as it was. -/
theorem main_error {invocation : Invocation} {disk : Disk} {code : Int} {host : Host}
    (ran : main invocation disk.host = some (code, host)) (failed : code ≠ 0)
    (closes : invocation.Closes) : host.disk = disk := by
  rcases main_cases ran with ⟨-, rfl⟩ | ⟨command, status, nameUtil, chosen, ran, code⟩
  · rfl
  · cases status with
    | okey => exact absurd code failed
    | errorHasOccurred =>
      exact run_error ran fun touch => closes (touch ▸ chosen)

/-- The processes of a session that returned zero, with what they did. -/
def succeeded (labels : List Invocation) (log : List (Int × List UInt8)) :
    List (Invocation × Int × List UInt8) :=
  (labels.zip log).filter fun entry => entry.2.1 = 0

/-- Every session in which no `touch_file` fails to close its stream may be repeated without the
processes that reported a failure: the others report and print what they did before, and the disk
ends up the same. -/
theorem session_replay {disk : Disk} {labels : List Invocation} {finish : Session}
    (closes : ∀ invocation ∈ labels, invocation.Closes)
    (run : exec next ⟨disk, []⟩ labels = some finish) :
    finish.log.length = labels.length ∧
      exec next ⟨disk, []⟩ ((succeeded labels finish.log).map Prod.fst) =
        some ⟨finish.disk, (succeeded labels finish.log).map Prod.snd⟩ := by
  revert closes
  refine exec_induct (motive := fun labels finish => (∀ invocation ∈ labels, invocation.Closes) →
    finish.log.length = labels.length ∧
      exec next ⟨disk, []⟩ ((succeeded labels finish.log).map Prod.fst) =
        some ⟨finish.disk, (succeeded labels finish.log).map Prod.snd⟩) ?_ ?_ run
  · intro _
    exact ⟨rfl, rfl⟩
  · intro earlier session invocation after _ replayed taken closes
    obtain ⟨length, again⟩ := replayed fun other member => closes other (by simp [member])
    obtain ⟨code, host, ran, left, log⟩ := next_cases taken
    have entries : succeeded (earlier ++ [invocation]) after.log =
        succeeded earlier session.log ++
          if code = 0 then [(invocation, code, host.machine.out.bytes)] else [] := by
      unfold succeeded
      rw [log, List.zip_append length.symm, List.filter_append]
      by_cases zero : code = 0 <;> simp [zero]
    refine ⟨by simp [log, length], ?_⟩
    rw [entries]
    by_cases zero : code = 0
    · simp only [zero, if_true, List.map_append, List.map_cons, List.map_nil]
      rw [exec_snoc]
      refine ⟨_, again, ?_⟩
      unfold next
      rw [ran]
      simp [left, zero]
    · simp only [zero, if_false, List.append_nil]
      have same := main_error ran zero (closes invocation (by simp))
      rw [again, left, same]

section Runs

/-- The name of every command is one that a file may have. -/
theorem name_proper (command : Command) :
    command.name ≠ [] ∧ 0 ∉ command.name ∧ slash ∉ command.name ∧ command.name ≠ dot ∧
      command.name ≠ dots := by
  cases command <;> decide

/-- The program under the name of a command. -/
def Command.program (command : Command) : Name where
  bytes := command.name
  nonempty := (name_proper command).1
  nulFree := (name_proper command).2.1
  slashFree := (name_proper command).2.2.1
  notDot := (name_proper command).2.2.2.1
  notDots := (name_proper command).2.2.2.2

/-- Every call succeeds as far as the files allow it. -/
def smoothCalls : Calls :=
  ⟨smoothLibrary, false, false, false, false, false, false, false, false, false, id, 0o022, 0⟩

/-- A command is run under its own name. -/
def Command.invoke (command : Command) (path : CString) : Invocation :=
  ⟨command.program, [path], smoothCalls, [], [], false, 1⟩

/-- The root and nothing in it. -/
def bareRoot (number : Nat) : Option Inode := if number = 0 then some (.folder [] 0) else none

/-- The root is a folder. -/
theorem folderAt_bareRoot : FolderAt bareRoot 0 := ⟨[], 0, rfl⟩

/-- The disk before the first command. -/
def bareDisk : Disk where
  files := {
    inode := bareRoot
    root := 0
    current := 0
    next := 1
    rooted := folderAt_bareRoot
    home := folderAt_bareRoot
    above := by
      intro number entries parent inside
      unfold bareRoot at inside
      split at inside
      · cases inside
        exact folderAt_bareRoot
      · cases inside
    present := by
      intro number entries parent name entry inside member
      unfold bareRoot at inside
      split at inside
      · cases inside
        cases member
      · cases inside
    unused := by
      intro number beyond
      exact if_neg (by omega) }
  mode _ := 0o755

/-- A program called `change_permitted` does not run `change_permitted`. -/
theorem command_selected_iff_long :
    (Command.changePermitted.invoke pathP).statusFails = false ∧
      (Command.changePermitted.invoke pathP).command ≠ some .changePermitted :=
  ⟨rfl, (command_selected_iff (Command.changePermitted.invoke pathP) rfl).2.2⟩

/-- A folder is made, made again in vain, removed, and a file is made in its place. -/
def remake : List Invocation :=
  [Command.makeDir.invoke pathP, Command.makeDir.invoke pathP, Command.removeDir.invoke pathP,
    Command.touchFile.invoke pathP]

/-- What these processes return. -/
theorem remake_codes : (exec next ⟨bareDisk, []⟩ remake).map (fun session =>
    session.log.map Prod.fst) = some [0, -1, 0, 0] := by
  decide +kernel

/-- The root is still one at the end. -/
theorem session_keeps_remake :
    ∃ finish, exec next ⟨bareDisk, []⟩ remake = some finish ∧ bareDisk.Keeps finish.disk := by
  obtain ⟨finish, run, -⟩ := Option.map_eq_some_iff.mp remake_codes
  exact ⟨finish, run, session_keeps run⟩

/-- The second process may be left out. -/
theorem session_replay_remake :
    ∃ finish again, exec next ⟨bareDisk, []⟩ remake = some finish ∧
      exec next ⟨bareDisk, []⟩ ((succeeded remake finish.log).map Prod.fst) = some again ∧
      again.disk = finish.disk ∧ finish.log.map Prod.fst = [0, -1, 0, 0] := by
  obtain ⟨finish, run, codes⟩ := Option.map_eq_some_iff.mp remake_codes
  have closes : ∀ invocation ∈ remake, invocation.Closes := by
    intro invocation member
    fin_cases member <;> exact fun _ => rfl
  exact ⟨finish, _, run, (session_replay closes run).2, rfl, codes⟩

end Runs

end NsuOs.Commands
