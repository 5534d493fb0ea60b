import Mathlib

/-!
# Bytes in memory and C strings

A buffer gives the byte at every offset from its start; the sizes of the C arrays are the
business of the programs that own them. The copying functions follow the C library: `memcpy`
places a block at an offset, `strncpy` stops copying at the first zero byte and fills the rest
of its count with zeros, so what arrives equals what was there exactly when nothing but zeros
follows the first zero.
-/
namespace NsuOs

/-- The bytes at the offsets of a block of memory. -/
abbrev Buffer := Nat → UInt8

namespace Buffer

/-- Memory as `calloc` returns it. -/
def zeros : Buffer := fun _ => 0

/-- The first bytes of a buffer. -/
def read (buffer : Buffer) (count : Nat) : List UInt8 := (List.range count).map buffer

/-- A buffer holding the given bytes, followed by zeros. -/
def ofBytes (bytes : List UInt8) : Buffer := fun i => bytes.getD i 0

/-- `memcpy(dest + offset, src, count)`. -/
def memcpy (dest : Buffer) (offset : Nat) (src : Buffer) (count : Nat) : Buffer :=
  fun i => if offset ≤ i ∧ i < offset + count then src (i - offset) else dest i

/-- `strncpy(dest, src, count)`: bytes after a zero byte are replaced by zeros. -/
def strncpy (dest src : Buffer) (count : Nat) : Buffer :=
  fun i => if i < count then if 0 ∈ read src i then 0 else src i else dest i

@[simp] theorem length_read (buffer : Buffer) (count : Nat) :
    (read buffer count).length = count := by
  simp [read]

/-- One more byte is read at the end. -/
theorem read_succ (buffer : Buffer) (count : Nat) :
    read buffer (count + 1) = read buffer count ++ [buffer count] := by
  simp [read, List.range_succ]

/-- Reading depends on the bytes read only. -/
theorem read_congr {left right : Buffer} {count : Nat} (same : ∀ i < count, left i = right i) :
    read left count = read right count := by
  apply List.map_congr_left
  intro i inside
  exact same i (List.mem_range.mp inside)

/-- A buffer of given bytes reads back as those bytes. -/
theorem read_ofBytes (bytes : List UInt8) : read (ofBytes bytes) bytes.length = bytes := by
  apply List.ext_getElem
  · simp
  · intro i _ inside
    simp [read, ofBytes, inside]

/-- The bytes read, put back into a buffer, are the bytes that were there. -/
theorem ofBytes_read {buffer : Buffer} {count i : Nat} (inside : i < count) :
    ofBytes (read buffer count) i = buffer i := by
  simp [ofBytes, read, inside]

/-- `strncpy` depends on the bytes inside its count only. -/
theorem strncpy_congr {dest left right : Buffer} {count : Nat}
    (same : ∀ i < count, left i = right i) :
    strncpy dest left count = strncpy dest right count := by
  funext i
  by_cases inside : i < count
  · have earlier : read left i = read right i :=
      read_congr fun j before => same j (Nat.lt_trans before inside)
    simp [strncpy, inside, earlier, same i inside]
  · simp [strncpy, inside]

/-- Copying behind the first bytes appends to what is read. -/
theorem read_memcpy (dest : Buffer) (offset : Nat) (bytes : List UInt8) :
    read (memcpy dest offset (ofBytes bytes) bytes.length) (offset + bytes.length) =
      read dest offset ++ bytes := by
  apply List.ext_getElem
  · simp
  · intro i inside _
    rw [length_read] at inside
    by_cases old : i < offset
    · simp [read, memcpy, old, Nat.not_le_of_lt old]
    · have new : i - offset < bytes.length := by omega
      simp [read, memcpy, ofBytes, new, Nat.le_of_not_lt old, inside]

end Buffer

/-- Bytes as `strncpy` delivers them: zeros from the first zero byte on. -/
def cutAtNul (bytes : List UInt8) : List UInt8 :=
  bytes.takeWhile (· != 0) ++ List.replicate (bytes.dropWhile (· != 0)).length 0

/-- Nothing but zero bytes follows the first zero byte. -/
def NulPadded (bytes : List UInt8) : Prop := ∀ byte ∈ bytes.dropWhile (· != 0), byte = 0

instance (bytes : List UInt8) : Decidable (NulPadded bytes) :=
  inferInstanceAs (Decidable (∀ byte ∈ bytes.dropWhile (· != 0), byte = 0))

/-- Cutting a longer list cuts its last byte when a zero came before. -/
theorem cutAtNul_snoc (bytes : List UInt8) (last : UInt8) :
    cutAtNul (bytes ++ [last]) = cutAtNul bytes ++ [if 0 ∈ bytes then 0 else last] := by
  induction bytes with
  | nil =>
    by_cases zero : last = 0
    · simp [cutAtNul, zero]
    · simp [cutAtNul, zero]
  | cons byte rest ih =>
    by_cases zero : byte = 0
    · simp [cutAtNul, zero, ← List.replicate_succ']
    · have apart : (0 : UInt8) ≠ byte := Ne.symm zero
      simp only [cutAtNul] at ih
      simp [cutAtNul, zero, apart, ih]

/-- Cutting keeps the length. -/
theorem length_cutAtNul (bytes : List UInt8) : (cutAtNul bytes).length = bytes.length := by
  have whole := congrArg List.length (List.takeWhile_append_dropWhile (p := (· != 0)) (l := bytes))
  rw [List.length_append] at whole
  simp [cutAtNul, whole]

/-- Cutting changes nothing exactly when only zeros follow the first zero. -/
theorem cutAtNul_eq_self (bytes : List UInt8) : cutAtNul bytes = bytes ↔ NulPadded bytes := by
  have whole := List.takeWhile_append_dropWhile (p := (· != 0)) (l := bytes)
  constructor
  · intro same
    have tails := List.append_cancel_left (same.trans whole.symm)
    intro byte member
    rw [← tails] at member
    exact (List.mem_replicate.mp member).2
  · intro padded
    have tail := List.eq_replicate_iff.mpr ⟨rfl, padded⟩
    rw [cutAtNul, ← tail, whole]

/-- What `strncpy` leaves in the destination. -/
theorem Buffer.read_strncpy (dest src : Buffer) (count : Nat) :
    read (strncpy dest src count) count = cutAtNul (read src count) := by
  have cut : ∀ n ≤ count, read (strncpy dest src count) n = cutAtNul (read src n) := by
    intro n
    induction n with
    | zero => intro _; rfl
    | succ n ih =>
      intro inside
      rw [read_succ, read_succ, cutAtNul_snoc, ih (by omega)]
      simp [strncpy, show n < count by omega]
  exact cut count (Nat.le_refl _)

/-- The text of a C string: bytes without a terminator among them. -/
structure CString where
  /-- The bytes before the terminator. -/
  bytes : List UInt8
  /-- The terminator comes after all of them. -/
  nulFree : 0 ∉ bytes
  deriving DecidableEq

/-- Two strings are the same when their bytes are. -/
theorem CString.ext {left right : CString} (same : left.bytes = right.bytes) : left = right := by
  cases left
  cases right
  simpa using same

/-- The C string at the start of some memory that holds these bytes and then a terminator. -/
def CString.ofBytes (raw : List UInt8) : CString where
  bytes := raw.takeWhile (· != 0)
  nulFree inside := by simpa using List.mem_takeWhile_imp inside

/-- `strlen`. -/
def CString.strlen (text : CString) : Nat := text.bytes.length

/-- Bytes without a zero are their own C string. -/
theorem CString.bytes_ofBytes {raw : List UInt8} (nulFree : 0 ∉ raw) :
    (CString.ofBytes raw).bytes = raw := by
  refine List.takeWhile_eq_self_iff.mpr fun byte member => ?_
  rw [bne_iff_ne]
  rintro rfl
  exact nulFree member

/-- No terminator is among the bytes of two texts. -/
theorem CString.nulFree_append (left right : CString) : 0 ∉ left.bytes ++ right.bytes := by
  rw [List.mem_append, not_or]
  exact ⟨left.nulFree, right.nulFree⟩

/-- One text after another. -/
instance : Append CString where
  append left right := ⟨left.bytes ++ right.bytes, left.nulFree_append right⟩

/-- The bytes of one text after another. -/
@[simp] theorem CString.bytes_append (left right : CString) :
    (left ++ right).bytes = left.bytes ++ right.bytes := rfl

/-- `strcpy`: the text and its terminator; what lies behind stays. -/
def Buffer.strcpy (dest : Buffer) (text : CString) : Buffer :=
  fun i => if i < text.strlen then text.bytes.getD i 0 else if i = text.strlen then 0 else dest i

/-- `strstr`: offset of the first occurrence of a pattern. -/
def strstr (pattern : List UInt8) : List UInt8 → Option Nat
  | [] => if pattern = [] then some 0 else none
  | byte :: rest =>
    if pattern.isPrefixOf (byte :: rest) then some 0 else (strstr pattern rest).map (· + 1)

/-- `memccpy`: the bytes copied up to and including the first stop byte, or `none` when the
count, or the array read from, is exhausted before one. -/
def memccpy (stop : UInt8) : Nat → List UInt8 → Option (List UInt8)
  | 0, _ => none
  | _ + 1, [] => none
  | count + 1, byte :: rest =>
    if byte = stop then some [byte] else (memccpy stop count rest).map (byte :: ·)

end NsuOs
