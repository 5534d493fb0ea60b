import NsuOs.Base.CString

/-!
# Searching in strings

`strstr` finds the first place at which a pattern begins; `memccpy` copies up to the first stop
byte. A text is searched in parts: what is found in the first part is found in the whole, and when
nothing begins in the first part the search goes on behind it.
-/
namespace NsuOs

/-- One more byte is read at the start. -/
theorem Buffer.read_succ_front (buffer : Buffer) (count : Nat) :
    buffer.read (count + 1) = buffer 0 :: Buffer.read (fun i => buffer (i + 1)) count := by
  simp [Buffer.read, List.range_succ_eq_map, Function.comp_def]

/-- `memccpy` copies up to and including the first stop byte. -/
theorem memccpy_of_first {stop : UInt8} {first count size : Nat} {buffer : Buffer}
    (here : buffer first = stop) (earlier : ∀ i < first, buffer i ≠ stop) (inside : first < count)
    (available : count ≤ size) :
    memccpy stop count (buffer.read size) = some (buffer.read (first + 1)) := by
  induction first generalizing buffer count size with
  | zero =>
    obtain ⟨count, rfl⟩ : ∃ less, count = less + 1 := ⟨count - 1, by omega⟩
    obtain ⟨size, rfl⟩ : ∃ less, size = less + 1 := ⟨size - 1, by omega⟩
    rw [Buffer.read_succ_front, memccpy, if_pos here]
    simp [Buffer.read]
  | succ first ih =>
    obtain ⟨count, rfl⟩ : ∃ less, count = less + 1 := ⟨count - 1, by omega⟩
    obtain ⟨size, rfl⟩ : ∃ less, size = less + 1 := ⟨size - 1, by omega⟩
    have other : buffer 0 ≠ stop := earlier 0 (by omega)
    have later : ∀ i < first, buffer (i + 1) ≠ stop := fun i early => earlier (i + 1) (by omega)
    have rest : memccpy stop count (Buffer.read (fun i => buffer (i + 1)) size) =
        some (Buffer.read (fun i => buffer (i + 1)) (first + 1)) :=
      ih here later (by omega) (by omega)
    rw [Buffer.read_succ_front, memccpy, if_neg other, rest,
      Buffer.read_succ_front buffer (first + 1)]
    rfl

/-- `memccpy` returns a null pointer when no stop byte is among the bytes counted. -/
theorem memccpy_of_none {stop : UInt8} {count size : Nat} {buffer : Buffer}
    (none : ∀ i < count, buffer i ≠ stop) : memccpy stop count (buffer.read size) = .none := by
  induction count generalizing buffer size with
  | zero => rfl
  | succ count ih =>
    cases size with
    | zero => rfl
    | succ size =>
      have other : buffer 0 ≠ stop := none 0 (by omega)
      have later : ∀ i < count, buffer (i + 1) ≠ stop := fun i early => none (i + 1) (by omega)
      rw [Buffer.read_succ_front, memccpy, if_neg other, ih later]
      rfl

/-- A pattern is found at the first place where it begins. -/
theorem strstr_eq_some {pattern text : List UInt8} {p : Nat} :
    strstr pattern text = some p ↔
      p ≤ text.length ∧ pattern <+: text.drop p ∧ ∀ q < p, ¬pattern <+: text.drop q := by
  induction text generalizing p with
  | nil =>
    simp only [strstr, Option.ite_none_right_eq_some, Option.some.injEq, List.length_nil,
      List.drop_nil, List.prefix_nil]
    constructor
    · rintro ⟨rfl, rfl⟩
      simp
    · rintro ⟨zero, empty, -⟩
      exact ⟨empty, by omega⟩
  | cons byte rest ih =>
    rw [strstr]
    by_cases here : pattern <+: byte :: rest
    · rw [if_pos (List.isPrefixOf_iff_prefix.mpr here)]
      constructor
      · intro found
        obtain rfl := Option.some.inj found
        exact ⟨Nat.zero_le _, here, by simp⟩
      · rintro ⟨-, -, first⟩
        cases p with
        | zero => rfl
        | succ p => exact absurd here (first 0 (by omega))
    · rw [if_neg (by rwa [List.isPrefixOf_iff_prefix]), Option.map_eq_some_iff]
      constructor
      · rintro ⟨q, found, rfl⟩
        obtain ⟨inside, begins, first⟩ := ih.mp found
        refine ⟨by simpa using inside, begins, ?_⟩
        intro q' early
        cases q' with
        | zero => exact here
        | succ q' => exact first q' (by omega)
      · rintro ⟨inside, begins, first⟩
        cases p with
        | zero => exact absurd begins here
        | succ p =>
          refine ⟨p, ih.mpr ⟨by simpa using inside, begins, ?_⟩, rfl⟩
          intro q early
          exact first (q + 1) (by omega)

/-- A pattern is not found exactly when it begins nowhere. -/
theorem strstr_eq_none {pattern text : List UInt8} :
    strstr pattern text = none ↔ ∀ q ≤ text.length, ¬pattern <+: text.drop q := by
  induction text with
  | nil =>
    simp only [strstr, ite_eq_right_iff, reduceCtorEq, imp_false, List.length_nil, List.drop_nil,
      List.prefix_nil]
    exact ⟨fun nonempty _ _ => nonempty, fun nowhere => nowhere 0 (Nat.le_refl 0)⟩
  | cons byte rest ih =>
    rw [strstr]
    by_cases here : pattern <+: byte :: rest
    · rw [if_pos (List.isPrefixOf_iff_prefix.mpr here)]
      exact iff_of_false (by simp) fun nowhere => nowhere 0 (Nat.zero_le _) here
    · rw [if_neg (by rwa [List.isPrefixOf_iff_prefix]), Option.map_eq_none_iff, ih]
      constructor
      · intro nowhere q inside
        cases q with
        | zero => exact here
        | succ q => exact nowhere q (by simpa using inside)
      · intro nowhere q inside
        exact nowhere (q + 1) (by simpa using inside)

/-- What is found in the first part of a text is found in the text. -/
theorem strstr_append_of_some {pattern front back : List UInt8} {p : Nat}
    (found : strstr pattern front = some p) : strstr pattern (front ++ back) = some p := by
  obtain ⟨inside, begins, first⟩ := strstr_eq_some.mp found
  have bound := begins.length_le
  rw [List.length_drop] at bound
  refine strstr_eq_some.mpr ⟨by simp; omega, ?_, ?_⟩
  · rw [List.drop_append_of_le_length inside]
    exact begins.trans (List.prefix_append _ _)
  · intro q early begins'
    rw [List.drop_append_of_le_length (by omega)] at begins'
    refine first q early (List.prefix_of_prefix_length_le begins' (List.prefix_append _ _) ?_)
    rw [List.length_drop]
    omega

/-- A pattern that is not in the first part of a text and cannot reach over its end is found where
the second part begins with it. -/
theorem strstr_append_of_none {pattern front back : List UInt8} {last : UInt8}
    (missing : strstr pattern (front ++ [last]) = none) (apart : last ∉ pattern)
    (begins : pattern <+: back) :
    strstr pattern (front ++ [last] ++ back) = some (front ++ [last]).length := by
  have nowhere := strstr_eq_none.mp missing
  refine strstr_eq_some.mpr ⟨by simp, ?_, ?_⟩
  · rw [List.drop_left]
    exact begins
  · intro q early here
    rw [List.drop_append_of_le_length (Nat.le_of_lt early)] at here
    rcases Nat.le_total pattern.length ((front ++ [last]).drop q).length with short | long
    · exact nowhere q (Nat.le_of_lt early)
        (List.prefix_of_prefix_length_le here (List.prefix_append _ _) short)
    · have within := List.prefix_of_prefix_length_le (List.prefix_append _ _) here long
      have inside : q ≤ front.length := by simpa [Nat.lt_succ_iff] using early
      rw [List.drop_append_of_le_length inside] at within
      exact apart (within.subset (by simp))

end NsuOs
