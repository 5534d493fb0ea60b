import NsuOs.Mirror.Folder

/-!
# Everything a system may answer about a directory

A report holds, for one entry, the answers to every call that is made for it, and below it the
entries that `readdir` returns with their own reports: a directory tree with any pattern of
failures at any depth, with entries of any type and any memory from `malloc`. Entries are known by
their place, the positions that lead to them from the arguments of `run`. A report is clean when
no call for it or below it fails and nothing is of another type; this is said of the report alone.
-/
namespace NsuOs.Mirror

/-- The answers to the calls made for one entry. -/
structure Answers where
  /-- `mkdir` fails. -/
  mkdirFails : Bool
  /-- `opendir` fails. -/
  openFails : Bool
  /-- What each `malloc` of `fill_folder` returns. -/
  memory : Nat → Option (List UInt8)
  /-- Whether each `realloc` of `is_correct_len_folder` succeeds. -/
  reallocs : Nat → Bool
  /-- Whether the formatted output succeeds. -/
  formats : Bool
  /-- `fopen` of the input fails. -/
  inputFails : Bool
  /-- `fopen` of the output fails. -/
  outputFails : Bool
  /-- The answers about the two open files. -/
  stdio : Stdio
  /-- What is in the input. -/
  content : List UInt8

/-- The answers for an entry and the reports of the entries below it. -/
inductive Report
  | mk (answers : Answers) (entries : List (CString × EntryType × Report))

/-- The answers for the entry itself. -/
def Report.answers : Report → Answers
  | .mk answers _ => answers

/-- The entries below it. -/
def Report.entries : Report → List (CString × EntryType × Report)
  | .mk _ entries => entries

/-- An entry: the positions that lead to it, and its report. -/
abbrev Entry := List Nat × Report

/-- What `readdir` returns below a place, from a position on. -/
def children (place : List Nat) : Nat → List (CString × EntryType × Report) → List (Dirent Entry)
  | _, [] => []
  | i, (name, type, report) :: rest =>
    ⟨name, type, (place ++ [i], report)⟩ :: children place (i + 1) rest

/-- The system that answers as reported. -/
def reportSystem : System Unit Entry where
  mkdir entry _ _ := if entry.2.answers.mkdirFails then none else some ()
  opendir entry _ _ :=
    if entry.2.answers.openFails then none else some (children entry.1 0 entry.2.entries)
  malloc entry call _ := entry.2.answers.memory call
  realloc entry call := entry.2.answers.reallocs call
  formats entry := entry.2.answers.formats
  openInput entry _ _ := !entry.2.answers.inputFails
  openOutput entry _ _ := if entry.2.answers.outputFails then none else some ()
  content entry _ _ := entry.2.answers.content
  stdio entry := entry.2.answers.stdio
  close _ _ _ := ()

/-- The number of rounds of `create_reverse_file` for a size. -/
def rounds (size : Nat) : Nat := (size + (bufferSize - 1)) / bufferSize

/-- No call of the C library about a file of a size fails. -/
def Stdio.Passes (io : Stdio) (size : Nat) : Prop :=
  io.seekEndFails = false ∧ io.seekSetFails = false ∧
    ∀ round < rounds size, (io.round round).flagged = false ∧ (io.round round).seekFails = false

/-- No call about a file fails. -/
def Answers.CleanFile (answers : Answers) : Prop :=
  answers.inputFails = false ∧ answers.outputFails = false ∧
    answers.stdio.Passes answers.content.length

/-- The three buffers are got, and the directory can be read. -/
def Answers.CleanStart (answers : Answers) : Prop :=
  answers.openFails = false ∧ answers.memory 0 ≠ none ∧ answers.memory 1 ≠ none ∧
    answers.memory 2 ≠ none

/-- The name fits into the buffers or they can be changed, and the paths can be built. -/
def Answers.CleanName (answers : Answers) (name : CString) : Prop :=
  (name.strlen > maxLenNameFile →
    answers.reallocs 0 = true ∧ answers.reallocs 1 = true ∧ answers.reallocs 2 = true) ∧
    answers.formats = true

mutual

/-- Nothing fails when the directory of a report is filled. -/
def Report.Clean : Report → Prop
  | .mk answers entries => answers.CleanStart ∧ CleanEntries entries

/-- Nothing fails for the entries of a directory, and all are directories or regular files. -/
def CleanEntries : List (CString × EntryType × Report) → Prop
  | [] => True
  | (name, type, report) :: rest =>
    (report.answers.CleanName name ∧
      match type with
      | .dir => isCurrOrPrevDir name = true ∨ (report.answers.mkdirFails = false ∧ report.Clean)
      | .reg => report.answers.CleanFile
      | .other => False) ∧ CleanEntries rest

end

mutual

/-- The entries of the tree below a place. -/
def Report.inside (place : List Nat) : Report → List Entry
  | .mk _ entries => insideEntries place 0 entries

/-- The entries from a position on and everything below them. -/
def insideEntries (place : List Nat) : Nat → List (CString × EntryType × Report) → List Entry
  | _, [] => []
  | i, (name, type, report) :: rest =>
    (if isCurrOrPrevDir name = true ∧ type = .dir then []
      else (place ++ [i], report) :: if type = .dir then report.inside (place ++ [i]) else []) ++
        insideEntries place (i + 1) rest

end

mutual

/-- The length of the longest way down. -/
def Report.depth : Report → Nat
  | .mk _ entries => depthReports entries + 1

/-- The depth of the deepest entry. -/
def depthReports : List (CString × EntryType × Report) → Nat
  | [] => 0
  | (_, _, report) :: rest => max report.depth (depthReports rest)

end

end NsuOs.Mirror
