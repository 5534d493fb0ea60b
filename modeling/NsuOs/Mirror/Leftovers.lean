import NsuOs.Mirror.Disk

/-!
# Names stored without a terminator

`strncpy` with the length of a name stores no terminator, so the string that is read back goes on
with whatever was behind it, and `reverse_line` turns both together. The name comes out reversed
exactly when a terminator already stood behind it. Which offsets hold a terminator does not depend
on what the other bytes are: storing and turning a name leaves those behind it, and clearing adds
those at the start.
-/
namespace NsuOs.Mirror

open NsuOs.Block

/-- `int mid_len` is at most half the size. -/
theorem midLen_le (size : Nat) : midLen size ≤ size / 2 := by
  unfold midLen
  rw [Int32.toInt_ofNat', Int.bmod_def]
  unfold Int32.size
  split <;> omega

/-- The byte `reverse_line` leaves at an index. -/
theorem getD_reverseLine {line : List UInt8} {size : Nat} (inside : size ≤ line.length) (j : Nat) :
    (reverseLine line size).getD j 0 =
      if j < size ∧ (j < midLen size ∨ size ≤ j + midLen size) then line.getD (size - 1 - j) 0
      else line.getD j 0 :=
  getD_swaps inside (midLen_le size) j

/-- `reverse_line` keeps the length. -/
theorem length_reverseLine (line : List UInt8) (size : Nat) :
    (reverseLine line size).length = line.length :=
  length_swaps line size _

/-- Lists of one length with the same bytes at every index are the same. -/
theorem ext_getD {left right : List UInt8} (lengths : left.length = right.length)
    (bytes : ∀ j < left.length, left.getD j 0 = right.getD j 0) : left = right := by
  apply List.ext_getElem lengths
  intro j inside inside'
  have same := bytes j inside
  rwa [List.getD_eq_getElem _ _ inside, List.getD_eq_getElem _ _ inside'] at same

/-- `reverse_line` leaves what is behind the size. -/
theorem reverseLine_append (bytes rest : List UInt8) :
    reverseLine (bytes ++ rest) bytes.length = reverseLine bytes bytes.length ++ rest := by
  have long := length_reverseLine bytes bytes.length
  apply ext_getD
  · simp [length_reverseLine]
  · intro j _
    have fits : bytes.length ≤ (bytes ++ rest).length := by simp
    rw [getD_reverseLine fits]
    by_cases front : j < bytes.length
    · have back : bytes.length - 1 - j < bytes.length := by omega
      have here : j < (reverseLine bytes bytes.length).length := by omega
      rw [List.getD_append _ _ _ _ here, List.getD_append _ _ _ _ front,
        List.getD_append _ _ _ _ back, getD_reverseLine (Nat.le_refl _)]
    · have outside : ¬(j < bytes.length ∧
          (j < midLen bytes.length ∨ bytes.length ≤ j + midLen bytes.length)) := by omega
      rw [if_neg outside, List.getD_append_right _ _ _ _ (by omega),
        List.getD_append_right _ _ _ _ (by omega), long]

/-- `reverse_line` brings in no terminator. -/
theorem nulFree_reverseLine {bytes : List UInt8} (nulFree : 0 ∉ bytes) :
    0 ∉ reverseLine bytes bytes.length := by
  intro member
  obtain ⟨j, inside, zero⟩ := List.mem_iff_getElem.mp member
  have here : (reverseLine bytes bytes.length).getD j 0 = 0 := by
    rw [List.getD_eq_getElem _ _ inside, zero]
  rw [length_reverseLine] at inside
  rw [getD_reverseLine (Nat.le_refl _)] at here
  split at here
  · have back : bytes.length - 1 - j < bytes.length := by omega
    exact not_zeroAt nulFree back here
  · exact not_zeroAt nulFree inside here

/-- The bytes that `reverse_line` does not reach read the same in both directions. For fewer than
two to the thirty-second bytes this is the middle one at most. -/
def Turns (bytes : List UInt8) : Prop :=
  ∀ j, midLen bytes.length ≤ j → j + midLen bytes.length < bytes.length →
    bytes.getD j 0 = bytes.getD (bytes.length - 1 - j) 0

/-- `reverse_line` reverses exactly the strings that turn. -/
theorem reverseLine_eq_iff (bytes : List UInt8) :
    reverseLine bytes bytes.length = bytes.reverse ↔ Turns bytes := by
  have half := midLen_le bytes.length
  have mirrored : ∀ j < bytes.length,
      bytes.reverse.getD j 0 = bytes.getD (bytes.length - 1 - j) 0 := by
    intro j inside
    have back : bytes.length - 1 - j < bytes.length := by omega
    rw [List.getD_eq_getElem _ _ (by rw [List.length_reverse]; exact inside),
      List.getD_eq_getElem _ _ back, List.getElem_reverse]
  constructor
  · intro same j lower upper
    have here := getD_reverseLine (Nat.le_refl bytes.length) j
    rw [same, mirrored j (by omega), if_neg (by omega)] at here
    exact here.symm
  · intro turns
    apply ext_getD
    · rw [length_reverseLine, List.length_reverse]
    · intro j inside
      rw [length_reverseLine] at inside
      rw [getD_reverseLine (Nat.le_refl _), mirrored j inside]
      split
      · rfl
      · exact turns j (by omega) (by omega)

section Stored

variable (block : Block) (name : CString)

/-- The string behind the first bytes of a block. -/
def leftover (block : Block) (count : Nat) : CString := CString.ofBytes (block.memory.drop count)

/-- The string in a block once a name is stored in it. -/
theorem text_stored :
    (block.strncpy name name.strlen).text.bytes =
      name.bytes ++ (leftover block name.strlen).bytes := by
  have apart : ∀ byte ∈ name.bytes, (byte != 0) = true := by
    intro byte member
    rw [bne_iff_ne]
    rintro rfl
    exact name.nulFree member
  change (block.strncpy name name.strlen).memory.takeWhile (· != 0) = _
  rw [memory_strncpy_self, List.takeWhile_append_of_pos apart]
  rfl

/-- The memory once the name is turned: the turned string, and then what was behind it. -/
theorem memory_turned :
    ∃ rest, block.memory.drop name.strlen = (leftover block name.strlen).bytes ++ rest ∧ Ends rest ∧
      (reverseText (block.strncpy name name.strlen)).memory =
        reverseLine (name.bytes ++ (leftover block name.strlen).bytes)
          (name.bytes ++ (leftover block name.strlen).bytes).length ++ rest := by
  obtain ⟨rest, split, ends⟩ := ofBytes_split (block.memory.drop name.strlen)
  refine ⟨rest, split, ends, ?_⟩
  have size : (block.strncpy name name.strlen).text.strlen =
      (name.bytes ++ (leftover block name.strlen).bytes).length :=
    congrArg List.length (text_stored block name)
  have stored : name.bytes ++ block.memory.drop name.strlen =
      name.bytes ++ ((leftover block name.strlen).bytes ++ rest) := congrArg _ split
  unfold reverseText
  rw [memory_strncpy_self, size, ← reverseLine_append, List.append_assoc, ← stored]

/-- The string in the block once the name is turned. -/
theorem text_turned :
    (reverseText (block.strncpy name name.strlen)).text.bytes =
      reverseLine (name.bytes ++ (leftover block name.strlen).bytes)
        (name.bytes ++ (leftover block name.strlen).bytes).length := by
  obtain ⟨rest, -, ends, memory⟩ := memory_turned block name
  have nulFree : 0 ∉ name.bytes ++ (leftover block name.strlen).bytes := by
    rw [List.mem_append, not_or]
    exact ⟨name.nulFree, (leftover block name.strlen).nulFree⟩
  unfold Block.text
  rw [memory]
  exact ofBytes_append (nulFree_reverseLine nulFree) ends

/-- Its length. -/
theorem strlen_turned :
    (reverseText (block.strncpy name name.strlen)).text.strlen =
      name.strlen + (leftover block name.strlen).strlen := by
  have length := congrArg List.length (text_turned block name)
  rw [length_reverseLine, List.length_append] at length
  exact length

/-- Nothing is left over exactly when a terminator stands there. -/
theorem leftover_eq_nil_iff (count : Nat) :
    (leftover block count).bytes = [] ↔ ZeroAt block.memory count := by
  have short := strlen_ofBytes_le_iff (block.memory.drop count) 0
  simp only [Nat.le_zero, zeroAt_drop, exists_eq_left, Nat.add_zero] at short
  rw [← short]
  exact List.length_eq_zero_iff.symm

/-- A name comes out reversed exactly when a terminator stands behind it and `reverse_line` turns
it. -/
theorem text_turned_iff :
    (reverseText (block.strncpy name name.strlen)).text = reversed name ↔
      ZeroAt block.memory name.strlen ∧ Turns name.bytes := by
  rw [← leftover_eq_nil_iff, ← reverseLine_eq_iff]
  constructor
  · intro same
    have bytes := congrArg CString.bytes same
    rw [text_turned] at bytes
    have lengths := congrArg List.length bytes
    rw [length_reverseLine] at lengths
    have nothing : (leftover block name.strlen).bytes = [] := by
      rw [← List.length_eq_zero_iff]
      simp only [reversed, List.length_append, List.length_reverse] at lengths
      omega
    rw [nothing, List.append_nil] at bytes
    exact ⟨nothing, bytes⟩
  · rintro ⟨nothing, turned⟩
    apply CString.ext
    rw [text_turned, nothing, List.append_nil]
    exact turned

/-- Where terminators stand once a name is stored and turned. -/
theorem zeroAt_turned (offset : Nat) :
    ZeroAt (reverseText (block.strncpy name name.strlen)).memory offset ↔
      name.strlen ≤ offset ∧ ZeroAt block.memory offset := by
  obtain ⟨rest, split, -, memory⟩ := memory_turned block name
  have nulFree : 0 ∉ name.bytes ++ (leftover block name.strlen).bytes := by
    rw [List.mem_append, not_or]
    exact ⟨name.nulFree, (leftover block name.strlen).nulFree⟩
  have behind := zeroAt_drop block.memory name.strlen (offset - name.strlen)
  rw [split] at behind
  have length : (name.bytes ++ (leftover block name.strlen).bytes).length =
      name.strlen + (leftover block name.strlen).bytes.length := by
    rw [List.length_append]
    rfl
  rw [memory]
  by_cases early : offset < (name.bytes ++ (leftover block name.strlen).bytes).length
  · have inside : offset < (reverseLine (name.bytes ++ (leftover block name.strlen).bytes)
        (name.bytes ++ (leftover block name.strlen).bytes).length).length := by
      rw [length_reverseLine]
      exact early
    rw [zeroAt_append_left inside]
    refine iff_of_false (not_zeroAt (nulFree_reverseLine nulFree) inside) ?_
    rintro ⟨after, zero⟩
    have same : name.strlen + (offset - name.strlen) = offset := by omega
    have within : offset - name.strlen < (leftover block name.strlen).bytes.length := by omega
    rw [same, zeroAt_append_left within] at behind
    exact not_zeroAt (leftover block name.strlen).nulFree within (behind.mpr zero)
  · have after : name.strlen ≤ offset := by omega
    have same : name.strlen + (offset - name.strlen) = offset := by omega
    have beyond : (leftover block name.strlen).bytes.length ≤ offset - name.strlen := by omega
    have index : offset - (name.strlen + (leftover block name.strlen).bytes.length) =
        offset - name.strlen - (leftover block name.strlen).bytes.length := by omega
    rw [zeroAt_append_right (by rw [length_reverseLine]; omega), length_reverseLine, length, index]
    rw [same, zeroAt_append_right beyond] at behind
    rw [behind]
    simp [after]

end Stored

end NsuOs.Mirror
