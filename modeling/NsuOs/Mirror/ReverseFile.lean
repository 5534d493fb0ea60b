import NsuOs.Base.Memory

/-!
# Reversing lines and files

`reverse_line` swaps the outer bytes inwards, as often as the `int` that holds half the size says.
`create_reverse_file` reads the input in pieces of at most `BUFFER_SIZE` bytes, reverses each piece
and writes it before the pieces already written. What the C library answers in each round is an
input: whether `fread` sets the end-of-file or error indicator, whether `fseek` fails and how many
bytes `fwrite` takes. Without an indicator `fread` has read all it was asked for.
-/
namespace NsuOs.Mirror

/-- `OK` and `ERROR`. -/
inductive Status
  | ok
  | error
  deriving DecidableEq

/-- `BUFFER_SIZE`. -/
def bufferSize : Nat := 256

/-- `swap(&line[first], &line[second])`. -/
def swap (line : List UInt8) (first second : Nat) : List UInt8 :=
  (line.set first (line.getD second 0)).set second (line.getD first 0)

/-- The value of `int mid_len = size / 2`. -/
def midLen (size : Nat) : Nat := (Int32.ofNat (size / 2)).toInt.toNat

/-- `reverse_line`. -/
def reverseLine (line : List UInt8) (size : Nat) : List UInt8 :=
  (List.range (midLen size)).foldl (fun line i => swap line i (size - i - 1)) line

/-- What the C library answers in one round of the loop of `create_reverse_file`. -/
structure Round where
  /-- `feof` or `ferror` is true after `fread`. -/
  flagged : Bool
  /-- `fseek` on the output fails. -/
  seekFails : Bool
  /-- The number of bytes `fwrite` takes, at most the number it is given. -/
  written : Nat
  deriving DecidableEq

/-- What the C library answers in one call of `create_reverse_file`. -/
structure Stdio where
  /-- `fseek` to the end of the input fails. -/
  seekEndFails : Bool
  /-- `fseek` back to its start fails. -/
  seekSetFails : Bool
  /-- The answers in each round of the loop. -/
  round : Nat → Round

/-- The output file: its bytes, and the offset and length of every write to it. -/
structure Output where
  /-- The bytes of the file. -/
  bytes : List UInt8
  /-- The offset and the length of every write. -/
  writes : List (Nat × Nat)
  deriving DecidableEq

/-- Bytes written at an offset; a gap before it is filled with zeros. -/
def writeAt (bytes : List UInt8) (offset : Nat) (data : List UInt8) : List UInt8 :=
  if data = [] then bytes
  else bytes.takeD offset 0 ++ data ++ bytes.drop (offset + data.length)

/-- `fwrite` at an offset. -/
def Output.write (output : Output) (offset : Nat) (data : List UInt8) : Output :=
  ⟨writeAt output.bytes offset data, output.writes ++ [(offset, data.length)]⟩

/-- The value of `ERROR` in a comparison with a `size_t`. -/
def sizeError : Nat := 2 ^ 64 - 1

/-- `bytes_to_read` of a round. -/
def toRead (left : Nat) : Nat := if left < bufferSize then left else bufferSize

/-- A round reads something, not more than is left and not more than the buffer holds. -/
theorem toRead_bounds {left : Nat} (pending : left ≠ 0) :
    0 < toRead left ∧ toRead left ≤ left ∧ toRead left ≤ bufferSize := by
  unfold toRead bufferSize
  split <;> omega

/-- What `fread` reads in a round. -/
def piece (content : List UInt8) (left : Nat) : List UInt8 :=
  (content.drop (content.length - left)).take (toRead left)

/-- The loop of `create_reverse_file` from a round on, with the bytes left to read. -/
def reverseRounds (io : Stdio) (content : List UInt8) (round left : Nat) (output : Output) :
    Status × Output :=
  if left = 0 then (.ok, output)
  else if (io.round round).flagged then (.error, output)
  else
    let buffer := reverseLine (piece content left) (toRead left)
    if (io.round round).seekFails then (.error, output)
    else
      let written := min (io.round round).written (toRead left)
      let output := output.write (left - toRead left) (buffer.take written)
      if written = sizeError then (.error, output)
      else reverseRounds io content (round + 1) (left - toRead left) output
termination_by left
decreasing_by
  have bounds := toRead_bounds ‹_›
  omega

/-- `create_reverse_file` once both files are open: the status and the output when it is
closed. -/
def reverseContent (io : Stdio) (content : List UInt8) : Status × Output :=
  if io.seekEndFails then (.error, ⟨[], []⟩)
  else if io.seekSetFails then (.error, ⟨[], []⟩)
  else reverseRounds io content 0 content.length ⟨[], []⟩

/-- A swap keeps the length. -/
theorem length_swap (line : List UInt8) (first second : Nat) :
    (swap line first second).length = line.length := by
  simp [swap]

/-- What a swap leaves at an index. -/
theorem getD_swap {line : List UInt8} {first second : Nat} (left : first < line.length)
    (right : second < line.length) (j : Nat) :
    (swap line first second).getD j 0 =
      if j = second then line.getD first 0 else if j = first then line.getD second 0
      else line.getD j 0 := by
  unfold swap
  by_cases atSecond : j = second
  · simp [List.getD_eq_getElem?_getD, atSecond, left, right]
  · by_cases atFirst : j = first
    · have apart : first ≠ second := atFirst ▸ atSecond
      simp [List.getD_eq_getElem?_getD, atFirst, left, right, apart, Ne.symm apart]
    · simp [List.getD_eq_getElem?_getD, Ne.symm atFirst, Ne.symm atSecond, atFirst, atSecond]

/-- The first swaps of `reverse_line`. -/
def swaps (line : List UInt8) (size count : Nat) : List UInt8 :=
  (List.range count).foldl (fun line i => swap line i (size - i - 1)) line

/-- One more swap. -/
theorem swaps_succ (line : List UInt8) (size count : Nat) :
    swaps line size (count + 1) = swap (swaps line size count) count (size - count - 1) := by
  simp [swaps, List.range_succ]

/-- Swaps keep the length. -/
theorem length_swaps (line : List UInt8) (size count : Nat) :
    (swaps line size count).length = line.length := by
  induction count with
  | zero => rfl
  | succ count ih => rw [swaps_succ, length_swap, ih]

/-- After some swaps the outer bytes are exchanged and the others stand. -/
theorem getD_swaps {line : List UInt8} {size : Nat} (inside : size ≤ line.length) {count : Nat}
    (half : count ≤ size / 2) (j : Nat) :
    (swaps line size count).getD j 0 =
      if j < size ∧ (j < count ∨ size ≤ j + count) then line.getD (size - 1 - j) 0
      else line.getD j 0 := by
  induction count generalizing j with
  | zero =>
    have untouched : ¬(j < size ∧ (j < 0 ∨ size ≤ j + 0)) := by omega
    rw [if_neg untouched]
    rfl
  | succ count ih =>
    have earlier := ih (by omega)
    have left : count < (swaps line size count).length := by
      rw [length_swaps]
      omega
    have right : size - count - 1 < (swaps line size count).length := by
      rw [length_swaps]
      omega
    rw [swaps_succ, getD_swap left right]
    by_cases upper : j = size - count - 1
    · have origin : size - 1 - j = count := by omega
      have inner : ¬(count < size ∧ (count < count ∨ size ≤ count + count)) := by omega
      have outer : j < size ∧ (j < count + 1 ∨ size ≤ j + (count + 1)) := by omega
      rw [if_pos upper, if_pos outer, earlier, if_neg inner, origin]
    · by_cases lower : j = count
      · have mirrored : size - count - 1 = size - 1 - j := by omega
        have inner : ¬(size - 1 - j < size ∧
            (size - 1 - j < count ∨ size ≤ size - 1 - j + count)) := by
          omega
        have outer : j < size ∧ (j < count + 1 ∨ size ≤ j + (count + 1)) := by omega
        rw [if_neg upper, if_pos lower, if_pos outer, earlier, mirrored, if_neg inner]
      · have same : (j < size ∧ (j < count + 1 ∨ size ≤ j + (count + 1))) ↔
            (j < size ∧ (j < count ∨ size ≤ j + count)) := by
          omega
        rw [if_neg upper, if_neg lower, earlier]
        simp only [same]

/-- Half a size below two to the thirty-second is not changed by its conversion to `int`. -/
theorem midLen_eq {size : Nat} (small : size < 2 ^ 32) : midLen size = size / 2 := by
  have half : size / 2 < 2 ^ 31 := by omega
  unfold midLen
  rw [Int32.toInt_ofNat_of_lt half]
  rfl

/-- `reverse_line` reverses the first bytes of a line and leaves the others. -/
theorem reverseLine_eq {line : List UInt8} {size : Nat} (inside : size ≤ line.length)
    (small : size < 2 ^ 32) :
    reverseLine line size = (line.take size).reverse ++ line.drop size := by
  have unfolded : reverseLine line size = swaps line size (size / 2) := by
    unfold reverseLine swaps
    rw [midLen_eq small]
  have long : (swaps line size (size / 2)).length = line.length := length_swaps line size _
  rw [unfolded]
  apply List.ext_getElem
  · simp only [long, List.length_append, List.length_reverse, List.length_take, List.length_drop]
    omega
  · intro j here _
    have bytes := getD_swaps inside (Nat.le_refl (size / 2)) j
    rw [List.getD_eq_getElem _ _ here] at bytes
    rw [bytes]
    by_cases reversed : j < size
    · have source : size - 1 - j < line.length := by omega
      rw [List.getElem_append_left (by simpa [inside] using reversed)]
      by_cases outer : j < size / 2 ∨ size ≤ j + size / 2
      · rw [if_pos ⟨reversed, outer⟩]
        simp [inside, source, List.getElem_reverse]
      · have middle : size - 1 - j = j := by omega
        have outside : ¬(j < size ∧ (j < size / 2 ∨ size ≤ j + size / 2)) := by omega
        rw [if_neg outside]
        simp [inside, middle, List.getElem_reverse, List.getD_eq_getElem?_getD, middle ▸ source]
    · have outside : ¬(j < size ∧ (j < size / 2 ∨ size ≤ j + size / 2)) := by omega
      have there : j < line.length := by omega
      rw [if_neg outside, List.getElem_append_right (by simp [inside]; omega)]
      have index : size + (j - min size line.length) = j := by omega
      simp [there, index]

/-- No call of the C library fails, and `fwrite` takes all it is given. -/
structure Stdio.Complete (io : Stdio) : Prop where
  /-- `fseek` to the end of the input succeeds. -/
  seekEnd : io.seekEndFails = false
  /-- `fseek` back to its start succeeds. -/
  seekSet : io.seekSetFails = false
  /-- `fread` never sets an indicator. -/
  flagged : ∀ round, (io.round round).flagged = false
  /-- Every `fseek` on the output succeeds. -/
  seek : ∀ round, (io.round round).seekFails = false
  /-- Every `fwrite` takes a full buffer. -/
  written : ∀ round, bufferSize ≤ (io.round round).written

/-- What a write leaves from its offset on. -/
theorem drop_writeAt {bytes data : List UInt8} (nonempty : data ≠ []) (offset : Nat) :
    (writeAt bytes offset data).drop offset = data ++ bytes.drop (offset + data.length) := by
  unfold writeAt
  rw [if_neg nonempty, List.append_assoc, List.drop_append_of_le_length (by simp)]
  simp

/-- A piece has the length asked for. -/
theorem length_piece {content : List UInt8} {left : Nat} (inside : left ≤ content.length)
    (pending : left ≠ 0) : (piece content left).length = toRead left := by
  have bounds := toRead_bounds pending
  simp only [piece, List.length_take, List.length_drop]
  omega

/-- A round in which no call fails writes as much of the reverse of its piece as `fwrite` takes
before the pieces written. -/
theorem reverseRounds_passes {io : Stdio} {content : List UInt8} {round left : Nat}
    (output : Output) (inside : left ≤ content.length) (pending : left ≠ 0)
    (readable : (io.round round).flagged = false) (seeks : (io.round round).seekFails = false) :
    reverseRounds io content round left output =
      reverseRounds io content (round + 1) (left - toRead left)
        (output.write (left - toRead left)
          ((piece content left).reverse.take (io.round round).written)) := by
  have bounds := toRead_bounds pending
  have length := length_piece inside pending
  have small : toRead left < 2 ^ 32 := by
    have limit : bufferSize < 2 ^ 32 := by decide
    omega
  have legal : ¬min (io.round round).written (toRead left) = sizeError := by
    have limit : bufferSize < sizeError := by decide
    omega
  have reversed : reverseLine (piece content left) (toRead left) =
      (piece content left).reverse := by
    rw [reverseLine_eq (by omega) small, ← length]
    simp
  have taken : (piece content left).reverse.take (min (io.round round).written (toRead left)) =
      (piece content left).reverse.take (io.round round).written := by
    have all : (piece content left).reverse.take (toRead left) = (piece content left).reverse := by
      apply List.take_of_length_le
      rw [List.length_reverse, length]
    rw [← List.take_take, all]
  rw [reverseRounds, if_neg pending]
  simp only [readable, seeks, legal, reversed, taken, if_false, Bool.false_eq_true]

/-- A round of a complete call writes the reverse of its piece before the pieces written. -/
theorem reverseRounds_complete {io : Stdio} (complete : io.Complete) {content : List UInt8}
    {round left : Nat} (output : Output) (inside : left ≤ content.length) (pending : left ≠ 0) :
    reverseRounds io content round left output =
      reverseRounds io content (round + 1) (left - toRead left)
        (output.write (left - toRead left) (piece content left).reverse) := by
  have bounds := toRead_bounds pending
  have length := length_piece inside pending
  have enough := complete.written round
  have whole : (piece content left).reverse.take (io.round round).written =
      (piece content left).reverse := by
    apply List.take_of_length_le
    rw [List.length_reverse, length]
    omega
  rw [reverseRounds_passes output inside pending (complete.flagged round) (complete.seek round),
    whole]

/-- What is in the output from the bytes left on is the reverse of what was read. -/
def Output.Holds (output : Output) (content : List UInt8) (left : Nat) : Prop :=
  output.bytes.drop left = (content.take (content.length - left)).reverse

/-- A round carries the reverse of what was read on. -/
theorem Output.Holds.write {output : Output} {content : List UInt8} {left : Nat}
    (holds : output.Holds content left) (inside : left ≤ content.length) (pending : left ≠ 0) :
    (output.write (left - toRead left) (piece content left).reverse).Holds content
      (left - toRead left) := by
  have bounds := toRead_bounds pending
  have length := length_piece inside pending
  have nonempty : (piece content left).reverse ≠ [] := by
    intro empty
    rw [List.reverse_eq_nil_iff] at empty
    rw [empty, List.length_nil] at length
    omega
  have next : left - toRead left + (piece content left).reverse.length = left := by
    rw [List.length_reverse, length]
    omega
  have more : content.length - (left - toRead left) = content.length - left + toRead left := by
    omega
  unfold Output.Holds Output.write
  rw [drop_writeAt nonempty, next, holds, more, List.take_add, List.reverse_append]
  rfl

/-- The rounds of a complete call leave the reverse of the content. -/
theorem reverseRounds_reverse {io : Stdio} (complete : io.Complete) {content : List UInt8}
    {round left : Nat} {output : Output} (inside : left ≤ content.length)
    (holds : output.Holds content left) :
    (reverseRounds io content round left output).1 = .ok ∧
      (reverseRounds io content round left output).2.bytes = content.reverse := by
  induction left using Nat.strong_induction_on generalizing round output with
  | _ left ih =>
    by_cases done : left = 0
    · have reversed : output.bytes = content.reverse := by
        simpa [Output.Holds, done] using holds
      rw [reverseRounds, if_pos done]
      exact ⟨rfl, reversed⟩
    · have bounds := toRead_bounds done
      have shorter : left - toRead left < left := by omega
      rw [reverseRounds_complete complete output inside done]
      exact ih (left - toRead left) shorter (by omega) (holds.write inside done)

/-- A complete call of `create_reverse_file` succeeds and leaves the reverse of the content. -/
theorem reverseContent_reverse {io : Stdio} (complete : io.Complete) (content : List UInt8) :
    (reverseContent io content).1 = .ok ∧
      (reverseContent io content).2.bytes = content.reverse := by
  have empty : (⟨[], []⟩ : Output).Holds content content.length := by
    simp [Output.Holds]
  simp only [reverseContent, complete.seekEnd, complete.seekSet]
  exact reverseRounds_reverse complete (Nat.le_refl _) empty

end NsuOs.Mirror
