import NsuOs.Base.LinkedFiles
import NsuOs.Base.Memory

/-!
# The commands on files and symbolic links

`write_to_file_implements` repeats `fwrite` until everything is written, `write_file` copies a file
to the standard output in pieces of at most `BUFFER_SIZE` bytes, and the commands check what a path
leads to before they print or remove. Whatever the C library may decide is an answer of a `Library`:
whether a call fails, where a stream opened with mode `a+` stands at first, and how many bytes each
`fwrite` takes. Nothing makes the loop around `fwrite` end, so it is given a number of rounds, and
has no result when they do not suffice.
-/
namespace NsuOs.Commands

/-- `enum return_status`. -/
inductive ReturnStatus
  | errorHasOccurred
  | okey
  deriving DecidableEq

/-- `BUFFER_SIZE`. -/
def bufferSize : Nat := 256

/-- What the C library answers. -/
structure Library where
  /-- `stat` fails. -/
  statFails : Bool
  /-- `fopen` fails. -/
  openFails : Bool
  /-- `readlink` fails. -/
  readlinkFails : Bool
  /-- `remove` fails. -/
  removeFails : Bool
  /-- A stream opened with mode `a+` stands at the end of the file, not at its start. -/
  startsAtEnd : Bool
  /-- `printf` writes its text. -/
  prints : Bool
  /-- `fseek` fails. -/
  seekFails : Bool
  /-- `fread` sets the error indicator, by the number of the call. -/
  readFails : Nat → Bool
  /-- The number of bytes each `fwrite` takes if it is given as many, by the number of the call. -/
  accepts : Nat → Nat

/-- The value of `int written` for a count. -/
def written (count : Nat) : Int := (Int32.ofNat count).toInt

/-- What a loop around `fwrite` has sent: the number of calls made on the stream, and the offset and
the count of each. -/
structure Sent where
  /-- The number of calls made on the stream. -/
  calls : Nat
  /-- The offset and the count of each piece sent. -/
  pieces : List (Nat × Nat)
  deriving DecidableEq

/-- The offsets of the bytes that were taken, in the order in which they were. -/
def Sent.offsets (sent : Sent) : List Nat :=
  sent.pieces.flatMap fun piece => List.range' piece.1 piece.2

/-- A call of `fwrite` takes some bytes from an offset on. -/
def Sent.piece (sent : Sent) (offset count : Nat) : Sent :=
  ⟨sent.calls + 1, sent.pieces ++ [(offset, count)]⟩

/-- The loop of `write_to_file_implements`: the rounds left, `sum_written` and what was sent. -/
def writeToFileImplements (accepts : Nat → Nat) (sizeWritten : Nat) :
    Nat → Nat → Sent → Option (ReturnStatus × Sent)
  | 0, _, _ => none
  | fuel + 1, sumWritten, sent =>
    if sumWritten < sizeWritten then
      let count := min (accepts sent.calls) (sizeWritten - sumWritten)
      if written count ≤ -1 then some (.errorHasOccurred, sent.piece sumWritten count)
      else
        writeToFileImplements accepts sizeWritten fuel (sumWritten + (written count).toNat)
          (sent.piece sumWritten count)
    else some (.okey, sent)

/-- The standard output: the bytes it took and the number of calls of `fwrite` on it. -/
structure Stdout where
  /-- The bytes written. -/
  bytes : List UInt8
  /-- The number of calls of `fwrite` so far. -/
  calls : Nat
  deriving DecidableEq

/-- The standard output after bytes of a buffer were sent. -/
def Stdout.receive (out : Stdout) (buffer : List UInt8) (sent : Sent) : Stdout :=
  ⟨out.bytes ++ sent.offsets.map fun offset => buffer.getD offset 0, sent.calls⟩

/-- A call of `write_to_file_implements` with the first bytes of a buffer and `stdout`. -/
def writeOut (lib : Library) (fuel : Nat) (buffer : List UInt8) (out : Stdout) :
    Option (ReturnStatus × Stdout) :=
  (writeToFileImplements lib.accepts buffer.length fuel 0 ⟨out.calls, []⟩).map fun (status, sent) =>
    (status, out.receive buffer sent)

/-- The text of a number for `%ld`. -/
def decimal (number : Nat) : List UInt8 :=
  (Nat.toDigits 10 number).map fun digit => UInt8.ofNat digit.toNat

/-- The loop of `write_file`: the number of calls of `fread`, the position and the bytes left. A
`fread` that gets less than it asks for sets the end-of-file indicator. -/
def writeChunks (lib : Library) (fuel : Nat) (content : List UInt8) (round pos bytesLeft : Nat)
    (out : Stdout) : Option (ReturnStatus × Stdout) :=
  if bytesLeft = 0 then some (.okey, out)
  else
    let bytesToRead := min bytesLeft bufferSize
    let buffer := (content.drop pos).take bytesToRead
    if lib.readFails round = true ∨ buffer.length < bytesToRead then
      some (.errorHasOccurred, out)
    else
      (writeOut lib fuel buffer out).bind fun (status, out) =>
        if status = .errorHasOccurred then some (.errorHasOccurred, out)
        else
          writeChunks lib fuel content (round + 1) (pos + buffer.length)
            (bytesLeft - buffer.length) out
termination_by bytesLeft
decreasing_by
  rename_i pending flagged
  have size : min bytesLeft bufferSize ≤ buffer.length := Nat.le_of_not_lt (not_or.mp flagged).2
  change bytesLeft - buffer.length < bytesLeft
  unfold bufferSize at size
  omega

/-- `write_file` on a stream with this content at a position. -/
def writeFile (lib : Library) (fuel : Nat) (content : List UInt8) (pos : Nat) (out : Stdout) :
    Option (ReturnStatus × Stdout) :=
  let fileSize := pos
  let out := if lib.prints then { out with bytes := out.bytes ++ decimal fileSize } else out
  if lib.seekFails then some (.errorHasOccurred, out)
  else writeChunks lib fuel content 0 0 fileSize out

/-- The files, the standard output and the paths that were given to `fopen`. -/
structure Machine where
  /-- The files and their names. -/
  files : LinkedFiles
  /-- The standard output. -/
  out : Stdout
  /-- The paths given to `fopen`, in order. -/
  opened : List CString

/-- `is_file_reg`. -/
def isFileReg (lib : Library) (files : LinkedFiles) (nameFile : CString) : ReturnStatus :=
  if lib.statFails then .errorHasOccurred
  else
    match files.stat nameFile with
    | some (.file _) => .okey
    | _ => .errorHasOccurred

/-- `fopen` with mode `a+`, and the content of the file if it succeeds. -/
def openFile (lib : Library) (path : CString) (machine : Machine) :
    Machine × Option (List UInt8) :=
  let tried := { machine with opened := machine.opened ++ [path] }
  if lib.openFails then (tried, none)
  else
    match machine.files.openAppend path with
    | none => (tried, none)
    | some (files, content) => ({ tried with files := files }, some content)

/-- The file of a path is opened, written to the standard output and closed. -/
def writeOpened (lib : Library) (fuel : Nat) (path : CString) (machine : Machine) :
    Option (ReturnStatus × Machine) :=
  match openFile lib path machine with
  | (machine, none) => some (.errorHasOccurred, machine)
  | (machine, some content) =>
    (writeFile lib fuel content (if lib.startsAtEnd then content.length else 0) machine.out).map
      fun (status, out) => (status, { machine with out := out })

/-- `print_file`. -/
def printFile (lib : Library) (fuel : Nat) (pathNameFile : CString) (machine : Machine) :
    Option (ReturnStatus × Machine) :=
  if isFileReg lib machine.files pathNameFile = .errorHasOccurred then
    some (.errorHasOccurred, machine)
  else writeOpened lib fuel pathNameFile machine

/-- `remove_file`. -/
def removeFile (lib : Library) (pathNameFile : CString) (machine : Machine) :
    ReturnStatus × Machine :=
  if lib.removeFails then (.errorHasOccurred, machine)
  else
    match machine.files.remove pathNameFile with
    | none => (.errorHasOccurred, machine)
    | some files => (.okey, { machine with files := files })

/-- `is_sym_link`, which asks `stat`. -/
def isSymLink (lib : Library) (files : LinkedFiles) (symLink : CString) : ReturnStatus :=
  if lib.statFails then .errorHasOccurred
  else
    match files.stat symLink with
    | some (.link _) => .okey
    | _ => .errorHasOccurred

/-- `readlink` into a buffer of `BUFFER_SIZE` bytes: what it stores, with no terminator. -/
def readTarget (lib : Library) (files : LinkedFiles) (symLink : CString) : Option (List UInt8) :=
  if lib.readlinkFails then none
  else (files.readlink symLink).map fun target => target.bytes.take bufferSize

/-- `print_sym_link` behind its check. -/
def printTarget (lib : Library) (fuel : Nat) (symLink : CString) (machine : Machine) :
    Option (ReturnStatus × Machine) :=
  match readTarget lib machine.files symLink with
  | none => some (.errorHasOccurred, machine)
  | some buffer =>
    (writeOut lib fuel buffer machine.out).map fun (status, out) =>
      (status, { machine with out := out })

/-- `print_sym_link`. -/
def printSymLink (lib : Library) (fuel : Nat) (symLink : CString) (machine : Machine) :
    Option (ReturnStatus × Machine) :=
  if isSymLink lib machine.files symLink = .errorHasOccurred then
    some (.errorHasOccurred, machine)
  else printTarget lib fuel symLink machine

/-- `read_file_from_symbol_link` behind its check, with the memory at its buffer: the path opened is
the string that starts there. -/
def writeTarget (lib : Library) (fuel : Nat) (stack : List UInt8) (symLink : CString)
    (machine : Machine) : Option (ReturnStatus × Machine) :=
  match readTarget lib machine.files symLink with
  | none => some (.errorHasOccurred, machine)
  | some stored =>
    let buffer : Block := (Block.mk bufferSize stack).store stored
    writeOpened lib fuel buffer.text machine

/-- `read_file_from_symbol_link`. -/
def readFileFromSymbolLink (lib : Library) (fuel : Nat) (stack : List UInt8) (symLink : CString)
    (machine : Machine) : Option (ReturnStatus × Machine) :=
  if isSymLink lib machine.files symLink = .errorHasOccurred then
    some (.errorHasOccurred, machine)
  else writeTarget lib fuel stack symLink machine

/-- `remove_sym_link`. -/
def removeSymLink (lib : Library) (symLink : CString) (machine : Machine) :
    ReturnStatus × Machine :=
  if isSymLink lib machine.files symLink = .errorHasOccurred then (.errorHasOccurred, machine)
  else removeFile lib symLink machine

end NsuOs.Commands
