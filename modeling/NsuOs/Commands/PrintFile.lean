import NsuOs.Commands.WriteLoop

/-!
# What `print_file` prints

`write_file` takes the position of the freshly opened stream for the size of the file and prints
that number before anything else. If the stream starts at the end of the file, the number is the
size, and the content follows it. If it starts at the beginning, the number is zero and nothing
follows. In both cases the loop around `fwrite` and the loop over the pieces end, since every call
takes all it is given.
-/
namespace NsuOs.Commands

variable {lib : Library} {content : List UInt8} {machine : Machine} {path : CString}

/-- All calls that `print_file` makes succeed completely. -/
structure Library.Succeeds (lib : Library) : Prop where
  /-- `stat` succeeds. -/
  stat : lib.statFails = false
  /-- `fopen` succeeds. -/
  opens : lib.openFails = false
  /-- `printf` writes its text. -/
  prints : lib.prints = true
  /-- `fseek` succeeds. -/
  seeks : lib.seekFails = false
  /-- No `fread` sets the error indicator. -/
  reads : ∀ round, lib.readFails round = false
  /-- Every `fwrite` takes a full buffer. -/
  takes : ∀ call, bufferSize ≤ lib.accepts call

/-- The position of a stream that was opened with mode `a+`. -/
def Library.position (lib : Library) (content : List UInt8) : Nat :=
  if lib.startsAtEnd then content.length else 0

/-- The position is inside the file. -/
theorem position_le (lib : Library) (content : List UInt8) :
    lib.position content ≤ content.length := by
  unfold Library.position
  split
  · exact Nat.le_refl _
  · exact Nat.zero_le _

/-- A buffer is written in one call of `fwrite`. -/
theorem writeOut_full (succeeds : lib.Succeeds) {buffer : List UInt8}
    (fits : buffer.length ≤ bufferSize) (out : Stdout) :
    ∃ after, writeOut lib 2 buffer out = some (.okey, after) := by
  have short : buffer.length < 2 ^ 31 := Nat.lt_of_le_of_lt fits (by decide)
  have ends : ∃ result, writeToFileImplements lib.accepts buffer.length 2 0 ⟨out.calls, []⟩ =
      some result := by
    rw [writeToFileImplements]
    split
    · have count : min (lib.accepts out.calls) (buffer.length - 0) = buffer.length :=
        Nat.min_eq_right (Nat.le_trans fits (succeeds.takes _))
      have value : written buffer.length = buffer.length := by
        rw [written_of_lt (by omega), Nat.mod_eq_of_lt (by omega)]
      have passes : ¬written buffer.length ≤ -1 := by omega
      have done : ¬0 + (written buffer.length).toNat < buffer.length := by omega
      simp only [count]
      rw [if_neg passes, writeToFileImplements, if_neg done]
      exact ⟨_, rfl⟩
    · exact ⟨_, rfl⟩
  obtain ⟨⟨status, sent⟩, returned⟩ := ends
  have result : writeOut lib 2 buffer out = some (status, out.receive buffer sent) := by
    unfold writeOut
    rw [returned]
    rfl
  obtain ⟨rfl, -⟩ := writeOut_returns short result
  exact ⟨_, result⟩

/-- The loop over the pieces ends. -/
theorem writeChunks_full (succeeds : lib.Succeeds) {pos left : Nat}
    (inside : pos + left ≤ content.length) (round : Nat) (out : Stdout) :
    ∃ after, writeChunks lib 2 content round pos left out = some (.okey, after) := by
  induction left using Nat.strong_induction_on generalizing round pos out with
  | _ left ih =>
    by_cases done : left = 0
    · rw [writeChunks, if_pos done]
      exact ⟨out, rfl⟩
    · have some_byte : 0 < min left bufferSize := Nat.lt_min.mpr ⟨by omega, by decide⟩
      have least : min left bufferSize ≤ left := Nat.min_le_left _ _
      have fits : ((content.drop pos).take (min left bufferSize)).length ≤ bufferSize := by
        rw [length_chunk inside]
        exact Nat.min_le_right _ _
      obtain ⟨middle, first⟩ := writeOut_full succeeds fits out
      rw [writeChunks_step succeeds.reads done inside, first]
      simp only [Option.bind_some, reduceCtorEq, if_false]
      exact ih (left - min left bufferSize) (by omega) (by omega) (round + 1) middle

/-- On a regular file `print_file` is `write_file` on the opened stream. -/
theorem printFile_eq (succeeds : lib.Succeeds)
    (regular : machine.files.stat path = some (.file content)) (fuel : Nat) :
    printFile lib fuel path machine =
      (writeFile lib fuel content (lib.position content) machine.out).map fun result =>
        (result.1, { machine with out := result.2, opened := machine.opened ++ [path] }) := by
  have known : isFileReg lib machine.files path = .okey := by
    unfold isFileReg
    simp only [succeeds.stat, Bool.false_eq_true, if_false, regular]
  have opened : openFile lib path machine =
      ({ machine with opened := machine.opened ++ [path] }, some content) := by
    unfold openFile
    simp only [succeeds.opens, Bool.false_eq_true, if_false,
      LinkedFiles.openAppend_of_stat regular]
  unfold printFile writeOpened
  rw [known, opened]
  rfl

/-- `print_file` ends on a regular file, with `OKEY`. -/
theorem printFile_full (succeeds : lib.Succeeds)
    (regular : machine.files.stat path = some (.file content)) :
    ∃ after, printFile lib 2 path machine = some (.okey, after) := by
  have inside := position_le lib content
  have chunks : ∀ out, ∃ after,
      writeChunks lib 2 content 0 0 (lib.position content) out = some (.okey, after) :=
    fun out => writeChunks_full succeeds (by omega) 0 out
  rw [printFile_eq succeeds regular]
  unfold writeFile
  simp only [succeeds.seeks, succeeds.prints, Bool.false_eq_true, if_false, if_true]
  obtain ⟨after, done⟩ :=
    chunks ⟨machine.out.bytes ++ decimal (lib.position content), machine.out.calls⟩
  rw [done]
  exact ⟨_, rfl⟩

/-- Whatever it returns, it has printed the position and the bytes before it, and the files are as
they were. -/
theorem printFile_output (succeeds : lib.Succeeds)
    (regular : machine.files.stat path = some (.file content)) {fuel : Nat}
    {status : ReturnStatus} {after : Machine}
    (returned : printFile lib fuel path machine = some (status, after)) :
    after.files = machine.files ∧ after.out.bytes = machine.out.bytes ++
      (decimal (lib.position content) ++ content.take (lib.position content)) := by
  rw [printFile_eq succeeds regular] at returned
  obtain ⟨⟨inner, out⟩, done, same⟩ := Option.map_eq_some_iff.mp returned
  obtain ⟨rfl, rfl⟩ := Prod.mk.inj same
  have inside := position_le lib content
  obtain ⟨-, bytes⟩ := writeFile_returns succeeds.seeks succeeds.reads inside done
  refine ⟨rfl, ?_⟩
  rw [Stdout.printed, succeeds.prints, if_pos rfl, List.append_assoc] at bytes
  exact bytes

/-- `print_file` returns `OKEY`, prints exactly the content and leaves the files as they were. -/
def PrintsExactly (lib : Library) (path : CString) (machine : Machine) (content : List UInt8) :
    Prop :=
  ∃ fuel after, printFile lib fuel path machine = some (.okey, after) ∧
    after.out.bytes = machine.out.bytes ++ content ∧ after.files = machine.files

/-- A number has at least one digit. -/
theorem decimal_ne_nil (number : Nat) : decimal number ≠ [] := by
  unfold decimal
  rw [ne_eq, List.map_eq_nil_iff]
  exact Nat.toDigits_ne_nil

/-- What is printed is the content exactly if the stream starts at the beginning and the content is
the digit zero. -/
theorem output_eq_iff (lib : Library) (content : List UInt8) :
    decimal (lib.position content) ++ content.take (lib.position content) = content ↔
      lib.startsAtEnd = false ∧ content = [48] := by
  unfold Library.position
  cases lib.startsAtEnd with
  | true =>
    simp only [if_true, List.take_length, Bool.true_eq_false, false_and, iff_false]
    intro same
    exact decimal_ne_nil _ (List.append_left_eq_self.mp same)
  | false =>
    have zero : decimal 0 = [48] := by decide
    simp only [Bool.false_eq_true, if_false, zero, List.take_zero, List.append_nil, true_and]
    exact eq_comm

/-- For every file system, every path that leads to a regular file, every content and either
position at which a stream may start, `print_file` prints exactly the file only in one case: the
stream starts at the beginning and the file holds the single byte `0`. -/
theorem print_file_exact_iff (lib : Library) (succeeds : lib.Succeeds) (machine : Machine)
    (path : CString) (content : List UInt8)
    (regular : machine.files.stat path = some (.file content)) :
    PrintsExactly lib path machine content ↔ lib.startsAtEnd = false ∧ content = [48] := by
  rw [← output_eq_iff]
  constructor
  · rintro ⟨fuel, after, returned, bytes, -⟩
    obtain ⟨-, printed⟩ := printFile_output succeeds regular returned
    rw [bytes] at printed
    exact (List.append_cancel_left printed).symm
  · intro same
    obtain ⟨after, returned⟩ := printFile_full succeeds regular
    obtain ⟨files, printed⟩ := printFile_output succeeds regular returned
    rw [same] at printed
    exact ⟨2, after, returned, printed, files⟩

/-- The name `p`. -/
def nameP : Name := ⟨[112], by decide, by decide, by decide, by decide, by decide⟩

/-- The path `p`. -/
def pathP : CString := CString.ofBytes [112]

/-- A current folder with one entry `p`, which is not a folder. -/
def lone (value : Inode) (plain : ∀ entries parent, value ≠ .folder entries parent) :
    LinkedFiles where
  inode number := if number = 0 then some (.folder [(nameP, 1)] 0)
    else if number = 1 then some value else none
  root := 0
  current := 0
  next := 2
  rooted := ⟨_, _, rfl⟩
  home := ⟨_, _, rfl⟩
  above := by
    intro number entries parent inside
    split at inside
    · obtain ⟨-, rfl⟩ : [(nameP, 1)] = entries ∧ 0 = parent := by simpa using inside
      exact ⟨_, _, rfl⟩
    · split at inside
      · exact absurd (Option.some.inj inside) (plain entries parent)
      · cases inside
  present := by
    intro number entries parent name entry inside member
    split at inside
    · obtain ⟨rfl, -⟩ : [(nameP, 1)] = entries ∧ 0 = parent := by simpa using inside
      obtain ⟨-, rfl⟩ : name = nameP ∧ entry = 1 := by simpa using member
      simp
    · split at inside
      · exact absurd (Option.some.inj inside) (plain entries parent)
      · cases inside
  unused := by
    intro number beyond
    rw [if_neg (by omega), if_neg (by omega)]

/-- All calls succeed, and streams start at the beginning. -/
def smoothLibrary : Library where
  statFails := false
  openFails := false
  readlinkFails := false
  removeFails := false
  startsAtEnd := false
  prints := true
  seekFails := false
  readFails _ := false
  accepts _ := bufferSize

/-- They do. -/
theorem smoothLibrary_succeeds : smoothLibrary.Succeeds :=
  ⟨rfl, rfl, rfl, rfl, fun _ => rfl, fun _ => Nat.le_refl _⟩

/-- Nothing printed and nothing opened yet, with one file `p` of this content. -/
def withFile (content : List UInt8) : Machine :=
  ⟨lone (.file content) (by simp), ⟨[], 0⟩, []⟩

/-- The path leads to the file. -/
theorem stat_withFile (content : List UInt8) :
    (withFile content).files.stat pathP = some (.file content) := rfl

/-- The file that is printed exactly. -/
theorem print_file_exact_zero :
    smoothLibrary.Succeeds ∧ (withFile [48]).files.stat pathP = some (.file [48]) ∧
      PrintsExactly smoothLibrary pathP (withFile [48]) [48] :=
  ⟨smoothLibrary_succeeds, stat_withFile [48],
    (print_file_exact_iff smoothLibrary smoothLibrary_succeeds (withFile [48]) pathP [48]
      (stat_withFile [48])).mpr ⟨rfl, rfl⟩⟩

/-- Of a file with the byte `a`, a zero is printed, and if streams start at the end, its size
before it. -/
theorem print_file_wrong :
    ¬PrintsExactly smoothLibrary pathP (withFile [97]) [97] ∧
      ¬PrintsExactly { smoothLibrary with startsAtEnd := true } pathP (withFile [97]) [97] := by
  have succeeds : Library.Succeeds { smoothLibrary with startsAtEnd := true } :=
    ⟨rfl, rfl, rfl, rfl, fun _ => rfl, fun _ => Nat.le_refl _⟩
  constructor
  · rintro ⟨fuel, after, returned, bytes, -⟩
    have printed := (printFile_output smoothLibrary_succeeds (stat_withFile [97]) returned).2
    rw [bytes] at printed
    revert printed
    decide
  · rintro ⟨fuel, after, returned, bytes, -⟩
    have printed := (printFile_output succeeds (stat_withFile [97]) returned).2
    rw [bytes] at printed
    revert printed
    decide

end NsuOs.Commands
