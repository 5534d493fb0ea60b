import NsuOs.Base.FileSystem
import NsuOs.Mirror.ReverseFile

/-!
# The program that mirrors directories

`create_reverse_folder` makes a directory and `fill_folder` copies the entries of another one into
it, each under its reversed name, calling `create_reverse_folder` for those that are directories.
The three string buffers of `fill_folder` keep what was in them from one entry to the next, as do
the two of `run` from one argument to the next. Whatever the program asks its system for is an
answer of a `System`: the file calls, the memory `malloc` returns and whether a call fails. The
answers may depend on the state of the system, on the path given and on the entry the path was
built for, which the program does not see. The recursion ends with the depth it is given.
-/
namespace NsuOs.Mirror

/-- `MAX_LEN_NAME_FILE`. -/
def maxLenNameFile : Nat := 256

/-- `d_type`. -/
inductive EntryType
  /-- `DT_DIR`. -/
  | dir
  /-- `DT_REG`. -/
  | reg
  /-- Any other value. -/
  | other
  deriving DecidableEq

/-- A `struct dirent`, with the entry it stands for. -/
structure Dirent (η : Type) where
  /-- `d_name`. -/
  name : CString
  /-- `d_type`. -/
  type : EntryType
  /-- The entry it stands for. -/
  entry : η

/-- What the program asks its system for. -/
structure System (σ η : Type) where
  /-- `mkdir` of a path, for an entry. -/
  mkdir : η → CString → σ → Option σ
  /-- `opendir` of a path, for an entry, and what `readdir` returns one after the other. -/
  opendir : η → CString → σ → Option (List (Dirent η))
  /-- The memory at the block a call of `malloc` returns, by the entry, the number of the call and
  the size. -/
  malloc : η → Nat → Nat → Option (List UInt8)
  /-- Whether a call of `realloc` succeeds, by the entry and the number of the call. -/
  realloc : η → Nat → Bool
  /-- Whether the formatted output for an entry succeeds. -/
  formats : η → Bool
  /-- Whether `fopen` for reading succeeds. -/
  openInput : η → CString → σ → Bool
  /-- `fopen` for writing. -/
  openOutput : η → CString → σ → Option σ
  /-- What is in the file of a path, for an entry. -/
  content : η → CString → σ → List UInt8
  /-- The C library's answers about the two open files of an entry. -/
  stdio : η → Stdio
  /-- `fclose` of the output file, which then has these bytes. -/
  close : CString → List UInt8 → σ → σ

/-- The functions that return a status. -/
inductive Call
  | createReverseFile
  | fillFolder
  | createReverseFolder
  deriving DecidableEq

/-- What is recorded of a run. -/
inductive Note (η : Type)
  /-- A call returned `ERROR`. -/
  | failed (call : Call)
  /-- The directory of an entry was made, or `create_reverse_file` returned `OK` for its file. -/
  | copied (entry : η)
  /-- This many bytes were stored from the start of a block of a size. -/
  | wrote (size count : Nat)
  /-- `path_new_rev_folder` as built for an entry. -/
  | built (path : CString)
  /-- The target `run` passes to `create_reverse_folder`. -/
  | target (path : CString)

/-- The state of the system and what was recorded. -/
structure Machine (σ η : Type) where
  /-- The state of the system. -/
  system : σ
  /-- What was recorded, in order. -/
  notes : List (Note η)

variable {σ η : Type}

/-- Something is recorded. -/
def Machine.note (machine : Machine σ η) (notes : List (Note η)) : Machine σ η :=
  { machine with notes := machine.notes ++ notes }

/-- A call returns `ERROR`. -/
def Machine.fail (machine : Machine σ η) (call : Call) : Status × Machine σ η :=
  (.error, machine.note [.failed call])

/-- `is_curr_or_prev_dir`. -/
def isCurrOrPrevDir (dir : CString) : Bool := decide (dir.bytes = dot) || decide (dir.bytes = dots)

/-- `create_reverse_file`. -/
def createReverseFile (sys : System σ η) (entry : η) (inputPath outputPath : CString)
    (machine : Machine σ η) : Status × Machine σ η :=
  if sys.openInput entry inputPath machine.system then
    match sys.openOutput entry outputPath machine.system with
    | none => machine.fail .createReverseFile
    | some system =>
      let (status, output) := reverseContent (sys.stdio entry) (sys.content entry inputPath system)
      let machine := { machine with system := sys.close outputPath output.bytes system }
      match status with
      | .error => machine.fail .createReverseFile
      | .ok => (.ok, machine.note [.copied entry])
  else machine.fail .createReverseFile

/-- The three buffers of `fill_folder`. -/
structure Buffers where
  /-- `name_rev_folder`. -/
  nameRev : Block
  /-- `path_new_rev_folder`. -/
  pathNewRev : Block
  /-- `path_new_origin_folder`. -/
  pathNewOrigin : Block
  deriving DecidableEq

/-- `is_correct_len_folder`, with the buffers after it when it returns true. -/
def isCorrectLenFolder (sys : System σ η) (buffers : Buffers) (dirent : Dirent η) :
    Option Buffers :=
  if dirent.name.strlen > maxLenNameFile then
    let size := dirent.name.strlen - maxLenNameFile + 1
    if sys.realloc dirent.entry 0 && sys.realloc dirent.entry 1 && sys.realloc dirent.entry 2 then
      some ⟨{ buffers.nameRev with size := size }, { buffers.pathNewRev with size := size },
        { buffers.pathNewOrigin with size := size }⟩
    else none
  else some buffers

/-- `reverse_line` on the string in a block. -/
def reverseText (block : Block) : Block :=
  { block with memory := reverseLine block.memory block.text.strlen }

/-- The buffers once the name and the two paths of an entry are in them. -/
def Buffers.build (buffers : Buffers) (origin reverse name : CString) : Buffers where
  nameRev := reverseText (buffers.nameRev.strncpy name name.strlen)
  pathNewRev := buffers.pathNewRev.sprintf (reverse.bytes ++ slash ::
    (reverseText (buffers.nameRev.strncpy name name.strlen)).text.bytes)
  pathNewOrigin := buffers.pathNewOrigin.sprintf (origin.bytes ++ slash :: name.bytes)

/-- The stores of `strncpy` and the two `sprintf` calls. -/
def Buffers.buildNotes (buffers : Buffers) (origin reverse name : CString) : List (Note η) :=
  let nameRev := reverseText (buffers.nameRev.strncpy name name.strlen)
  [.wrote buffers.nameRev.size name.strlen,
    .wrote buffers.pathNewRev.size (reverse.strlen + 1 + nameRev.text.strlen + 1),
    .wrote buffers.pathNewOrigin.size (origin.strlen + 1 + name.strlen + 1),
    .built (buffers.build origin reverse name).pathNewRev.text]

/-- The three `memset` calls: each clears as many bytes as `path_new_origin_folder` has. -/
def Buffers.clear (buffers : Buffers) : Buffers where
  nameRev := buffers.nameRev.clear buffers.pathNewOrigin.text.strlen
  pathNewRev := buffers.pathNewRev.clear buffers.pathNewOrigin.text.strlen
  pathNewOrigin := buffers.pathNewOrigin.clear buffers.pathNewOrigin.text.strlen

/-- The stores of the three `memset` calls. -/
def Buffers.clearNotes (buffers : Buffers) : List (Note η) :=
  [.wrote buffers.nameRev.size buffers.pathNewOrigin.text.strlen,
    .wrote buffers.pathNewRev.size buffers.pathNewOrigin.text.strlen,
    .wrote buffers.pathNewOrigin.size buffers.pathNewOrigin.text.strlen]

/-- A call of `create_reverse_folder`: the entry, the two paths and the machine before it. -/
abbrev FolderCall (σ η : Type) :=
  η → CString → CString → Machine σ η → Option (Status × Machine σ η)

/-- The copy of one entry, with the status so far when it is of neither kind. -/
def copyEntry (sys : System σ η) (folder : FolderCall σ η) (dirent : Dirent η) (ret : Status)
    (buffers : Buffers) (machine : Machine σ η) : Option (Status × Machine σ η) :=
  if dirent.type = .dir ∧ ¬isCurrOrPrevDir dirent.name then
    folder dirent.entry buffers.pathNewOrigin.text buffers.pathNewRev.text machine
  else if dirent.type = .reg then
    some (createReverseFile sys dirent.entry buffers.pathNewOrigin.text buffers.pathNewRev.text
      machine)
  else some (ret, machine)

/-- The loop of `fill_folder`. -/
def fillEntries (sys : System σ η) (folder : FolderCall σ η) (origin reverse : CString) :
    List (Dirent η) → Status → Buffers → Machine σ η → Option (Status × Machine σ η)
  | [], _, _, machine => some (.ok, machine)
  | dirent :: rest, ret, buffers, machine =>
    match isCorrectLenFolder sys buffers dirent with
    | none => some (machine.fail .fillFolder)
    | some buffers =>
      let machine := machine.note (buffers.buildNotes origin reverse dirent.name)
      let buffers := buffers.build origin reverse dirent.name
      if sys.formats dirent.entry then
        (copyEntry sys folder dirent ret buffers machine).bind fun (ret, machine) =>
          if ret = .error ∨ ¬(dirent.type = .dir ∨ dirent.type = .reg) then
            some (machine.fail .fillFolder)
          else
            fillEntries sys folder origin reverse rest ret buffers.clear
              (machine.note buffers.clearNotes)
      else some (machine.fail .fillFolder)

/-- `fill_folder`. -/
def fillFolder (sys : System σ η) (folder : FolderCall σ η) : FolderCall σ η :=
  fun entry origin reverse machine =>
    match sys.opendir entry origin machine.system with
    | none => some (machine.fail .fillFolder)
    | some dirents =>
      match sys.malloc entry 0 maxLenNameFile with
      | none => some (machine.fail .fillFolder)
      | some nameRev =>
        match sys.malloc entry 1 (maxLenNameFile + reverse.strlen) with
        | none => some (machine.fail .fillFolder)
        | some pathNewRev =>
          match sys.malloc entry 2 (maxLenNameFile + origin.strlen) with
          | none => some (machine.fail .fillFolder)
          | some pathNewOrigin =>
            fillEntries sys folder origin reverse dirents .ok
              ⟨⟨maxLenNameFile, nameRev⟩, ⟨maxLenNameFile + reverse.strlen, pathNewRev⟩,
                ⟨maxLenNameFile + origin.strlen, pathNewOrigin⟩⟩ machine

/-- `create_reverse_folder`, which does not look at the status of `fill_folder`; `none` when the
directories are deeper than the first argument. -/
def createReverseFolder (sys : System σ η) : Nat → FolderCall σ η
  | 0 => fun _ _ _ _ => none
  | depth + 1 => fun entry origin reverse machine =>
    match sys.mkdir entry reverse machine.system with
    | none => some (machine.fail .createReverseFolder)
    | some system =>
      let machine := { machine with system := system }.note [.copied entry]
      (fillFolder sys (createReverseFolder sys depth) entry origin reverse machine).map
        fun result => (.ok, result.2)

/-- `maximum_size_path`. -/
def maximumSizePath (args : List CString) : Nat :=
  args.foldl (fun maxSize arg => if maxSize < arg.strlen then arg.strlen else maxSize) 0

/-- `strrchr`: the offset of the last occurrence of a byte. -/
def strrchr (text : CString) (byte : UInt8) : Option Nat :=
  (text.bytes.reverse.idxOf? byte).map fun behind => text.bytes.length - 1 - behind

/-- `find_name_folder`: the path to the folder, of which only the bytes up to the last slash are
stored, the name behind it and the number of bytes stored; `none` is `ERROR`. -/
def findNameFolder (formats : Bool) (path : CString) (pathToFolder : Block) :
    Option (Block × CString × Nat) :=
  match strrchr path slash with
  | some pos => some (pathToFolder.strncpy path (pos + 1), path.drop (pos + 1), pos + 1)
  | none =>
    if formats then some ((pathToFolder.strncpy path 0).sprintf (dot ++ [slash]), path, 3)
    else none

/-- How `run` ends: it returns, or it follows a null pointer. -/
inductive Exit
  | returned (status : Status)
  | crashed
  deriving DecidableEq

/-- The loop of `run` over the arguments, each with the entry it stands for. -/
def runArgs (sys : System σ η) (depth : Nat) :
    List (CString × η) → Option Block → Option Block → Machine σ η → Option (Exit × Machine σ η)
  | [], _, _, machine => some (.returned .ok, machine)
  | (_, _) :: _, _, none, machine => some (.crashed, machine)
  | (arg, entry) :: rest, revFolder, some pathToFolder, machine =>
    match findNameFolder (sys.formats entry) arg pathToFolder with
    | none => some (.returned .error, machine)
    | some (pathToFolder, originFolder, stored) =>
      match revFolder with
      | none => some (.crashed, machine)
      | some revFolder =>
        let revFolder := reverseText (revFolder.strncpy originFolder originFolder.strlen)
        let target := pathToFolder.strcat revFolder.text
        let machine := machine.note
          [.wrote pathToFolder.size stored, .wrote revFolder.size originFolder.strlen,
            .wrote target.size (target.text.strlen + 1), .target target.text]
        (createReverseFolder sys depth entry arg target.text machine).bind fun (status, machine) =>
          match status with
          | .error => some (.returned .error, machine)
          | .ok => runArgs sys depth rest (some revFolder) (some target) machine

/-- `run` on the arguments behind the name of the program, with the memory its two calls of
`malloc` return. -/
def run (sys : System σ η) (depth : Nat) (args : List (CString × η))
    (revFolder pathToFolder : Option (List UInt8)) (machine : Machine σ η) :
    Option (Exit × Machine σ η) :=
  if args.isEmpty then some (.returned .error, machine)
  else
    let maxSize := maximumSizePath (args.map Prod.fst)
    runArgs sys depth args (revFolder.map (Block.mk maxSize)) (pathToFolder.map (Block.mk maxSize))
      machine

section Steps

/-- Where a step of the loop of `fill_folder` leads. -/
inductive Onward (σ η : Type)
  /-- `fill_folder` returns `ERROR`. -/
  | stop (machine : Machine σ η)
  /-- The loop goes on to the next entry. -/
  | next (buffers : Buffers) (machine : Machine σ η)

/-- The machine there. -/
def Onward.machine : Onward σ η → Machine σ η
  | .stop machine | .next _ machine => machine

variable {sys : System σ η} {folder : FolderCall σ η} {entry : η} {origin reverse : CString}
  {dirent : Dirent η} {ret : Status} {buffers : Buffers} {machine : Machine σ η}

/-- Every step the loop can make for an entry, one constructor for each outcome. -/
inductive EntryStep (sys : System σ η) (folder : FolderCall σ η) (origin reverse : CString)
    (dirent : Dirent η) (ret : Status) (buffers : Buffers) (machine : Machine σ η) :
    Onward σ η → Prop
  /-- The buffers cannot be made longer for the name. -/
  | refused (long : isCorrectLenFolder sys buffers dirent = none) :
    EntryStep sys folder origin reverse dirent ret buffers machine
      (.stop (machine.fail .fillFolder).2)
  /-- The paths are not built. -/
  | unbuilt (changed : Buffers) (fits : isCorrectLenFolder sys buffers dirent = some changed)
    (fails : sys.formats dirent.entry = false) :
    EntryStep sys folder origin reverse dirent ret buffers machine
      (.stop ((machine.note (changed.buildNotes origin reverse dirent.name)).fail .fillFolder).2)
  /-- The copy of the entry fails, or the entry is of another type. -/
  | uncopied (changed : Buffers) (status : Status) (middle : Machine σ η)
    (fits : isCorrectLenFolder sys buffers dirent = some changed)
    (formats : sys.formats dirent.entry = true)
    (copy : copyEntry sys folder dirent ret (changed.build origin reverse dirent.name)
      (machine.note (changed.buildNotes origin reverse dirent.name)) = some (status, middle))
    (wrong : status = .error ∨ dirent.type = .other) :
    EntryStep sys folder origin reverse dirent ret buffers machine
      (.stop (middle.fail .fillFolder).2)
  /-- The entry is copied. -/
  | copied (changed : Buffers) (middle : Machine σ η)
    (fits : isCorrectLenFolder sys buffers dirent = some changed)
    (formats : sys.formats dirent.entry = true)
    (copy : copyEntry sys folder dirent ret (changed.build origin reverse dirent.name)
      (machine.note (changed.buildNotes origin reverse dirent.name)) = some (.ok, middle))
    (known : dirent.type ≠ .other) :
    EntryStep sys folder origin reverse dirent ret buffers machine
      (.next (changed.build origin reverse dirent.name).clear
        (middle.note (changed.build origin reverse dirent.name).clearNotes))

/-- What the loop does behind a step. -/
def Onward.rest (sys : System σ η) (folder : FolderCall σ η) (origin reverse : CString)
    (dirents : List (Dirent η)) : Onward σ η → Option (Status × Machine σ η)
  | .stop machine => some (.error, machine)
  | .next buffers machine => fillEntries sys folder origin reverse dirents .ok buffers machine

/-- A type is copied unless it is another one. -/
theorem type_known (type : EntryType) : type = .dir ∨ type = .reg ↔ type ≠ .other := by
  cases type <;> simp

/-- The loop makes a step and then goes on behind it. -/
theorem EntryStep.fillEntries {onward : Onward σ η}
    (step : EntryStep sys folder origin reverse dirent ret buffers machine onward)
    (dirents : List (Dirent η)) :
    fillEntries sys folder origin reverse (dirent :: dirents) ret buffers machine =
      onward.rest sys folder origin reverse dirents := by
  rw [Mirror.fillEntries]
  cases step with
  | refused long =>
    rw [long]
    rfl
  | unbuilt changed fits fails =>
    rw [fits]
    simp only [fails, Bool.false_eq_true, if_false]
    rfl
  | uncopied changed status middle fits formats copy wrong =>
    rw [fits]
    simp only [formats, if_true, copy, Option.bind_some, type_known, not_not, if_pos wrong]
    rfl
  | copied changed middle fits formats copy known =>
    have goes : ¬(Status.ok = .error ∨ dirent.type = .other) := by simp [known]
    rw [fits]
    simp only [formats, if_true, copy, Option.bind_some, type_known, not_not, if_neg goes]
    rfl

/-- There is a step when the copy of the entry ends. -/
theorem exists_entryStep (copies : ∀ changed, isCorrectLenFolder sys buffers dirent = some changed →
      sys.formats dirent.entry = true → ∃ result,
        copyEntry sys folder dirent ret (changed.build origin reverse dirent.name)
          (machine.note (changed.buildNotes origin reverse dirent.name)) = some result) :
    ∃ onward, EntryStep sys folder origin reverse dirent ret buffers machine onward := by
  cases fits : isCorrectLenFolder sys buffers dirent with
  | none => exact ⟨_, .refused fits⟩
  | some changed =>
    cases formats : sys.formats dirent.entry with
    | false => exact ⟨_, .unbuilt changed fits formats⟩
    | true =>
      obtain ⟨⟨status, middle⟩, copy⟩ := copies changed fits formats
      by_cases wrong : status = .error ∨ dirent.type = .other
      · exact ⟨_, .uncopied changed status middle fits formats copy wrong⟩
      · rw [not_or] at wrong
        cases status with
        | error => exact absurd rfl wrong.1
        | ok => exact ⟨_, .copied changed middle fits formats copy wrong.2⟩

/-- The loop goes on with the buffers cleared. -/
theorem EntryStep.buffers_eq {changed onward : Buffers} {middle : Machine σ η}
    (step : EntryStep sys folder origin reverse dirent ret buffers machine (.next onward middle))
    (fits : isCorrectLenFolder sys buffers dirent = some changed) :
    onward = (changed.build origin reverse dirent.name).clear := by
  cases step with
  | copied other middle fits' formats copy known =>
    obtain rfl := Option.some.inj (fits.symm.trans fits')
    rfl

/-- A loop that has ended began with a step. -/
theorem entryStep_of_fillEntries {dirents : List (Dirent η)} {result : Status × Machine σ η}
    (filled : fillEntries sys folder origin reverse (dirent :: dirents) ret buffers machine =
      some result) :
    ∃ onward, EntryStep sys folder origin reverse dirent ret buffers machine onward := by
  apply exists_entryStep
  intro changed fits formats
  rw [fillEntries, fits] at filled
  simp only [formats, if_true] at filled
  obtain ⟨copied, copy, -⟩ := Option.bind_eq_some_iff.mp filled
  exact ⟨copied, copy⟩

/-- `fill_folder` has no listing or no memory and returns `ERROR`, or its loop begins. -/
theorem fillFolder_cases (sys : System σ η) (folder : FolderCall σ η) (entry : η)
    (origin reverse : CString) (machine : Machine σ η) :
    fillFolder sys folder entry origin reverse machine = some (machine.fail .fillFolder) ∨
      ∃ dirents nameRev pathNewRev pathNewOrigin,
        sys.opendir entry origin machine.system = some dirents ∧
        sys.malloc entry 0 maxLenNameFile = some nameRev ∧
        fillFolder sys folder entry origin reverse machine =
          Mirror.fillEntries sys folder origin reverse dirents .ok
            ⟨⟨maxLenNameFile, nameRev⟩, ⟨maxLenNameFile + reverse.strlen, pathNewRev⟩,
              ⟨maxLenNameFile + origin.strlen, pathNewOrigin⟩⟩ machine := by
  unfold fillFolder
  cases sys.opendir entry origin machine.system with
  | none => exact .inl rfl
  | some dirents =>
    cases sys.malloc entry 0 maxLenNameFile with
    | none => exact .inl rfl
    | some nameRev =>
      cases sys.malloc entry 1 (maxLenNameFile + reverse.strlen) with
      | none => exact .inl rfl
      | some pathNewRev =>
        cases sys.malloc entry 2 (maxLenNameFile + origin.strlen) with
        | none => exact .inl rfl
        | some pathNewOrigin =>
          exact .inr ⟨dirents, nameRev, pathNewRev, pathNewOrigin, rfl, rfl, rfl⟩

end Steps

end NsuOs.Mirror
