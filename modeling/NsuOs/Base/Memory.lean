import NsuOs.Base.CString

/-!
# Blocks of memory and the strings in them

The memory at and behind the start of a block is a finite list of bytes followed by zeros, so every
string in it ends. Its size is what was asked for; a store beyond it changes the memory behind the
block and is recorded by those who care. Each store starts at the block or at the end of the string
in it, and a stored string is the one that is read back.
-/
namespace NsuOs

/-- The string from an offset on. -/
def CString.drop (text : CString) (offset : Nat) : CString :=
  ⟨text.bytes.drop offset, fun inside => text.nulFree (List.mem_of_mem_drop inside)⟩

/-- A block: the bytes asked for and the memory from its start on. -/
structure Block where
  /-- The number of bytes asked for. -/
  size : Nat
  /-- The bytes from the start of the block on. -/
  memory : List UInt8
  deriving DecidableEq

namespace Block

/-- The string at the start of a block. -/
def text (block : Block) : CString := CString.ofBytes block.memory

/-- Bytes are stored at the start of a block. -/
def store (block : Block) (bytes : List UInt8) : Block :=
  { block with memory := bytes ++ block.memory.drop bytes.length }

/-- The bytes `strncpy` stores: at most as many as counted, filled up with zeros. -/
def strncpyBytes (source : CString) (count : Nat) : List UInt8 :=
  source.bytes.take count ++ List.replicate (count - source.bytes.length) 0

/-- `strncpy`. -/
def strncpy (block : Block) (source : CString) (count : Nat) : Block :=
  block.store (strncpyBytes source count)

/-- `sprintf` of these bytes: they are stored with a terminator. -/
def sprintf (block : Block) (bytes : List UInt8) : Block := block.store (bytes ++ [0])

/-- `memset` with zero. -/
def clear (block : Block) (count : Nat) : Block := block.store (List.replicate count 0)

/-- `strcat`: the text is stored with its terminator at the end of the string in the block. -/
def strcat (block : Block) (text : CString) : Block :=
  block.store (block.text.bytes ++ text.bytes ++ [0])

/-- Nothing but zeros is in a block. -/
def Blank (block : Block) : Prop := ∀ byte ∈ block.memory.take block.size, byte = 0

/-- A terminator, or the end of what is not zero, comes first. -/
def Ends (memory : List UInt8) : Prop := memory.head?.getD 0 = 0

/-- A terminator stands at an offset. -/
def ZeroAt (memory : List UInt8) (offset : Nat) : Prop := memory.getD offset 0 = 0

instance (memory : List UInt8) (offset : Nat) : Decidable (ZeroAt memory offset) :=
  inferInstanceAs (Decidable (memory.getD offset 0 = 0))

/-- Inside the first bytes a terminator is one of them. -/
theorem zeroAt_append_left {front rest : List UInt8} {offset : Nat}
    (inside : offset < front.length) : ZeroAt (front ++ rest) offset ↔ ZeroAt front offset := by
  unfold ZeroAt
  rw [List.getD_append _ _ _ _ inside]

/-- Behind the first bytes it is one of the others. -/
theorem zeroAt_append_right {front rest : List UInt8} {offset : Nat}
    (behind : front.length ≤ offset) :
    ZeroAt (front ++ rest) offset ↔ ZeroAt rest (offset - front.length) := by
  unfold ZeroAt
  rw [List.getD_append_right _ _ _ _ behind]

/-- The bytes of a string hold no terminator. -/
theorem not_zeroAt {bytes : List UInt8} (nulFree : 0 ∉ bytes) {offset : Nat}
    (inside : offset < bytes.length) : ¬ZeroAt bytes offset := by
  intro zero
  apply nulFree
  rw [← zero, List.getD_eq_getElem _ _ inside]
  exact List.getElem_mem inside

/-- What lies behind some bytes. -/
theorem zeroAt_drop (memory : List UInt8) (count offset : Nat) :
    ZeroAt (memory.drop count) offset ↔ ZeroAt memory (count + offset) := by
  unfold ZeroAt
  rw [List.getD_eq_getElem?_getD, List.getD_eq_getElem?_getD, List.getElem?_drop]

/-- A terminator comes first exactly when it stands at the first offset. -/
theorem ends_drop_iff {memory : List UInt8} {offset : Nat} :
    Ends (memory.drop offset) ↔ ZeroAt memory offset := by
  unfold Ends ZeroAt
  rw [List.head?_drop, List.getD_eq_getElem?_getD]

/-- Memory is its string followed by a terminator and anything. -/
theorem ofBytes_split (memory : List UInt8) :
    ∃ rest, memory = (CString.ofBytes memory).bytes ++ rest ∧ Ends rest := by
  refine ⟨memory.dropWhile (· != 0), ?_, ?_⟩
  · exact (List.takeWhile_append_dropWhile).symm
  · unfold Ends
    cases stops : (memory.dropWhile (· != 0)).head? with
    | none => rfl
    | some byte =>
      have zero := List.head?_dropWhile_not (· != 0) memory
      rw [stops] at zero
      simpa using zero

/-- The string in memory ends by an offset exactly when a terminator stands there or before. -/
theorem strlen_ofBytes_le_iff (memory : List UInt8) (bound : Nat) :
    (CString.ofBytes memory).strlen ≤ bound ↔ ∃ offset ≤ bound, ZeroAt memory offset := by
  obtain ⟨rest, split, ends⟩ := ofBytes_split memory
  constructor
  · intro short
    refine ⟨(CString.ofBytes memory).strlen, short, ?_⟩
    have dropped := congrArg (List.drop (CString.ofBytes memory).bytes.length) split
    rw [List.drop_left] at dropped
    rw [← ends_drop_iff, CString.strlen, dropped]
    exact ends
  · rintro ⟨offset, inside, zero⟩
    by_contra longer
    have early : offset < (CString.ofBytes memory).bytes.length := by
      unfold CString.strlen at longer
      omega
    rw [split, zeroAt_append_left early] at zero
    exact not_zeroAt (CString.ofBytes memory).nulFree early zero

/-- The string read from bytes without a zero behind which a terminator comes. -/
theorem ofBytes_append {bytes rest : List UInt8} (nulFree : 0 ∉ bytes) (ends : Ends rest) :
    (CString.ofBytes (bytes ++ rest)).bytes = bytes := by
  have apart : ∀ byte ∈ bytes, (byte != 0) = true := by
    intro byte member
    rw [bne_iff_ne]
    rintro rfl
    exact nulFree member
  change (bytes ++ rest).takeWhile (· != 0) = bytes
  rw [List.takeWhile_append_of_pos apart]
  cases rest with
  | nil => simp
  | cons byte rest =>
    have zero : byte = 0 := ends
    simp [zero]

/-- What `sprintf` stores is read back. -/
theorem text_sprintf (block : Block) {bytes : List UInt8} (nulFree : 0 ∉ bytes) :
    (block.sprintf bytes).text.bytes = bytes := by
  unfold sprintf store text
  rw [List.append_assoc, List.singleton_append]
  exact ofBytes_append nulFree rfl

/-- A string copied without its terminator is followed by what was there. -/
theorem memory_strncpy_self (block : Block) (source : CString) :
    (block.strncpy source source.strlen).memory =
      source.bytes ++ block.memory.drop source.strlen := by
  simp [strncpy, strncpyBytes, store, CString.strlen]

/-- A store leaves the terminators behind it. -/
theorem zeroAt_store (block : Block) {bytes : List UInt8} {offset : Nat}
    (behind : bytes.length ≤ offset) :
    ZeroAt (block.store bytes).memory offset ↔ ZeroAt block.memory offset := by
  have same : bytes.length + (offset - bytes.length) = offset := by omega
  unfold store
  rw [zeroAt_append_right behind, zeroAt_drop, same]

/-- What `strcat` leaves is both strings. -/
theorem text_strcat (block : Block) (text : CString) :
    (block.strcat text).text.bytes = block.text.bytes ++ text.bytes := by
  have nulFree : 0 ∉ block.text.bytes ++ text.bytes := by
    rw [List.mem_append, not_or]
    exact ⟨block.text.nulFree, text.nulFree⟩
  exact text_sprintf block nulFree

/-- Where terminators stand after `strcat`: behind the string, and farther on where they were. -/
theorem zeroAt_strcat (block : Block) (text : CString) (offset : Nat) :
    ZeroAt (block.strcat text).memory offset ↔
      offset = (block.strcat text).text.strlen ∨
        (block.strcat text).text.strlen < offset ∧ ZeroAt block.memory offset := by
  have length : (block.strcat text).text.strlen = (block.text.bytes ++ text.bytes).length :=
    congrArg List.length (text_strcat block text)
  have nulFree : 0 ∉ block.text.bytes ++ text.bytes := by
    rw [List.mem_append, not_or]
    exact ⟨block.text.nulFree, text.nulFree⟩
  have whole : (block.text.bytes ++ text.bytes ++ [0]).length =
      (block.text.bytes ++ text.bytes).length + 1 := List.length_append
  rw [length]
  unfold strcat
  rcases Nat.lt_trichotomy offset (block.text.bytes ++ text.bytes).length with early | here | late
  · unfold store
    rw [zeroAt_append_left (by omega), zeroAt_append_left early]
    refine iff_of_false (not_zeroAt nulFree early) ?_
    rintro (same | ⟨late, -⟩)
    · omega
    · omega
  · unfold store
    rw [zeroAt_append_left (by omega), zeroAt_append_right (by omega), here]
    simp [ZeroAt]
  · rw [zeroAt_store block (by omega)]
    constructor
    · intro zero
      exact .inr ⟨late, zero⟩
    · rintro (same | ⟨-, zero⟩)
      · omega
      · exact zero

/-- Clearing puts terminators everywhere at the start. -/
theorem zeroAt_clear (block : Block) (count offset : Nat) :
    ZeroAt (block.clear count).memory offset ↔ offset < count ∨ ZeroAt block.memory offset := by
  unfold clear store
  by_cases inside : offset < count
  · have cleared : offset < (List.replicate count (0 : UInt8)).length := by
      rw [List.length_replicate]
      exact inside
    rw [zeroAt_append_left cleared]
    simp [inside, ZeroAt]
  · have behind : (List.replicate count (0 : UInt8)).length ≤ offset := by
      rw [List.length_replicate]
      omega
    have same : count + (offset - count) = offset := by omega
    rw [zeroAt_append_right behind, List.length_replicate, zeroAt_drop, same]
    simp [inside]

/-- Every string in a blank block ends at once. -/
theorem Blank.ends {block : Block} (blank : block.Blank) {offset : Nat}
    (inside : offset < block.size) : Ends (block.memory.drop offset) := by
  unfold Ends
  rw [List.head?_drop]
  cases here : block.memory[offset]? with
  | none => rfl
  | some byte =>
    have found : (block.memory.take block.size)[offset]? = some byte := by
      rw [List.getElem?_take_of_lt inside, here]
    exact blank byte (List.mem_of_getElem? found)

/-- A block is blank again when at least the bytes stored at its start are cleared. -/
theorem blank_clear {block : Block} (blank : block.Blank) {stored : List UInt8} {count : Nat}
    (covered : stored.length ≤ count) (inside : count ≤ block.size) :
    ((block.store stored).clear count).Blank := by
  have memory : ((block.store stored).clear count).memory =
      List.replicate count 0 ++ block.memory.drop count := by
    unfold clear store
    rw [List.length_replicate, List.drop_append, List.drop_drop]
    have nothing : stored.drop count = [] := List.drop_eq_nil_of_le covered
    have offset : stored.length + (count - stored.length) = count := by omega
    simp [nothing, offset]
  have size : ((block.store stored).clear count).size = block.size := rfl
  intro byte member
  rw [memory, size, List.take_append, List.length_replicate] at member
  rcases List.mem_append.mp member with cleared | kept
  · exact (List.mem_replicate.mp (List.mem_of_mem_take cleared)).2
  · rw [List.take_drop] at kept
    have inner := List.mem_of_mem_drop kept
    rw [Nat.add_sub_cancel' inside] at inner
    exact blank byte inner

end Block

end NsuOs
