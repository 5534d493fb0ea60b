import NsuOs.Base.Search
import NsuOs.Proxy.Handler

/-!
# The host name of a request

`execute_client_request` looks for `Host:` anywhere in the request, skips six bytes and copies up to
the next carriage return into `host`. None of the results is tested. The accesses of these
statements are listed as the C library makes them; they are all allowed exactly when the request has
a host value that fits, and for a well-formed request the value is that of its `Host` line unless an
earlier `Host:` hides it.
-/
namespace NsuOs.Proxy

/-- What the extraction of the host name does with memory. -/
inductive HostAccess
  /-- The null pointer `strstr` returned is used. -/
  | nullSearch
  /-- `memccpy` reads the array `request` at an offset. -/
  | read (offset : Nat)
  /-- The array `host` is written at an index. -/
  | write (index : Nat)
  /-- The null pointer `memccpy` returned is used. -/
  | nullCopy
  deriving DecidableEq

/-- The accesses of `memccpy` for the first bytes from an offset on. -/
def copyAccesses (start count : Nat) : List HostAccess :=
  (List.range count).flatMap fun i => [.read (start + i), .write i]

/-- The accesses of the extraction, with the write of the terminator at the end. -/
def Locals.hostAccesses (locals : Locals) : List HostAccess :=
  match strstr hostText locals.request.bytes with
  | none => [.nullSearch]
  | some found =>
    match memccpy 13 hostSize (Buffer.read (fun i => locals.array (found + 6 + i)) hostSize) with
    | none => copyAccesses (found + 6) hostSize ++ [.nullCopy]
    | some copied => copyAccesses (found + 6) copied.length ++ [.write (copied.length - 1)]

/-- An access is allowed: it does not use a null pointer, read behind the terminator of the request
or write outside `host`. -/
def HostAccess.Allowed (request : CString) : HostAccess → Prop
  | .nullSearch | .nullCopy => False
  | .read offset => offset ≤ request.strlen
  | .write index => index < hostSize

instance (request : CString) (access : HostAccess) : Decidable (access.Allowed request) :=
  match access with
  | .nullSearch => inferInstanceAs (Decidable False)
  | .nullCopy => inferInstanceAs (Decidable False)
  | .read offset => inferInstanceAs (Decidable (offset ≤ request.strlen))
  | .write index => inferInstanceAs (Decidable (index < hostSize))

/-- A request has a host value: behind the first `Host:` and one more byte these bytes and a
carriage return stand, and both fit into `host`. -/
def HostValue (text value : List UInt8) : Prop :=
  ∃ found rest, strstr hostText text = some found ∧ text.drop (found + 6) = value ++ 13 :: rest ∧
    13 ∉ value ∧ value.length < hostSize

section Extraction

variable {locals : Locals} {found : Nat} {value rest : List UInt8}

/-- The array `request` holds the request up to its terminator. -/
theorem Locals.array_eq (locals : Locals) {i : Nat} (inside : i ≤ locals.request.strlen) :
    locals.array i = locals.request.bytes.getD i 0 := by
  unfold Locals.array Buffer.strcpy
  by_cases early : i < locals.request.strlen
  · rw [if_pos early]
  · have last : i = locals.request.strlen := by omega
    rw [if_neg early, if_pos last, last]
    simp [CString.strlen]

/-- The bytes from a place in the request on, as `memccpy` meets them. -/
theorem Locals.array_drop (split : locals.request.bytes.drop found = value ++ 13 :: rest) :
    found + value.length < locals.request.strlen ∧
      (∀ i < value.length, locals.array (found + i) = value.getD i 0) ∧
      locals.array (found + value.length) = 13 := by
  have total := congrArg List.length split
  simp only [List.length_drop, List.length_append, List.length_cons] at total
  have bound : found + value.length < locals.request.strlen := by
    unfold CString.strlen
    omega
  have bytes : ∀ i, locals.request.bytes.getD (found + i) 0 = (value ++ 13 :: rest).getD i 0 := by
    intro i
    rw [← split]
    simp
  refine ⟨bound, ?_, ?_⟩
  · intro i inside
    rw [locals.array_eq (by omega), bytes]
    simp [inside, List.getElem?_append_left inside]
  · rw [locals.array_eq (by omega), bytes]
    simp

/-- The first bytes behind a place are the value there. -/
theorem Locals.read_value (split : locals.request.bytes.drop found = value ++ 13 :: rest) :
    Buffer.read (fun i => locals.array (found + i)) value.length = value := by
  obtain ⟨-, bytes, -⟩ := array_drop split
  apply List.ext_getElem
  · simp
  · intro i _ inside
    simp [Buffer.read, bytes i inside, inside]

/-- `memccpy` copies a value and the carriage return behind it, if its count allows. -/
theorem Locals.memccpy_value (split : locals.request.bytes.drop found = value ++ 13 :: rest)
    (free : 13 ∉ value) {count : Nat} (fits : count ≤ hostSize) :
    memccpy 13 count (Buffer.read (fun i => locals.array (found + i)) hostSize) =
      if value.length < count then some (value ++ [13]) else none := by
  obtain ⟨-, bytes, stops⟩ := array_drop split
  have apart : ∀ i < value.length, locals.array (found + i) ≠ 13 := by
    intro i inside same
    rw [bytes i inside] at same
    simp only [List.getD_eq_getElem?_getD, List.getElem?_eq_getElem inside,
      Option.getD_some] at same
    exact free (same ▸ List.getElem_mem inside)
  by_cases inside : value.length < count
  · have copied : memccpy 13 count (Buffer.read (fun i => locals.array (found + i)) hostSize) =
        some (Buffer.read (fun i => locals.array (found + i)) (value.length + 1)) :=
      memccpy_of_first stops apart inside fits
    rw [if_pos inside, copied, Buffer.read_succ, read_value split, stops]
  · rw [if_neg inside]
    apply memccpy_of_none
    intro i early
    exact apart i (by omega)

/-- The accesses of a copy are allowed exactly when it ends before the terminator of the request
and inside `host`. -/
theorem copyAccesses_allowed {request : CString} {start count : Nat} :
    (∀ access ∈ copyAccesses start count, access.Allowed request) ↔
      count = 0 ∨ start + count ≤ request.strlen + 1 ∧ count ≤ hostSize := by
  constructor
  · intro allowed
    rcases Nat.eq_zero_or_pos count with zero | positive
    · exact .inl zero
    · right
      have member : count - 1 ∈ List.range count := List.mem_range.mpr (by omega)
      have reads : start + (count - 1) ≤ request.strlen :=
        allowed (.read (start + (count - 1))) (List.mem_flatMap.mpr ⟨_, member, by simp⟩)
      have writes : count - 1 < hostSize :=
        allowed (.write (count - 1)) (List.mem_flatMap.mpr ⟨_, member, by simp⟩)
      omega
  · intro bounds access member
    obtain ⟨i, early, here⟩ := List.mem_flatMap.mp member
    have inside : i < count := List.mem_range.mp early
    have reads : start + i ≤ request.strlen := by omega
    have writes : i < hostSize := by omega
    simp only [List.mem_cons, List.not_mem_nil, or_false] at here
    rcases here with rfl | rfl
    · exact reads
    · exact writes

/-- The bytes from an offset in the request on begin with a value and a carriage return when the
array has its first carriage return there before the terminator. -/
theorem Locals.drop_eq {first : Nat} (stops : locals.array (found + first) = 13)
    (earlier : ∀ i < first, locals.array (found + i) ≠ 13)
    (inside : found + first ≤ locals.request.strlen) :
    ∃ value rest, locals.request.bytes.drop found = value ++ 13 :: rest ∧ 13 ∉ value ∧
      value.length = first := by
  have byte := locals.array_eq inside
  rw [stops] at byte
  have present : found + first < locals.request.bytes.length := by
    by_contra beyond
    rw [List.getD_eq_default _ _ (by omega)] at byte
    cases byte
  have here : (locals.request.bytes.drop found)[first]? = some 13 := by
    rw [List.getElem?_drop, List.getElem?_eq_getElem present]
    simpa [present] using byte.symm
  obtain ⟨within, at_⟩ := List.getElem?_eq_some_iff.mp here
  refine ⟨(locals.request.bytes.drop found).take first, (locals.request.bytes.drop found).drop
    (first + 1), ?_, ?_, ?_⟩
  · rw [← at_, ← List.drop_eq_getElem_cons within, List.take_append_drop]
  · intro member
    obtain ⟨i, early, same⟩ := List.getElem_of_mem member
    have before : i < first := by
      rw [List.length_take] at early
      omega
    have place : found + i < locals.request.bytes.length := by omega
    apply earlier i before
    rw [locals.array_eq (Nat.le_of_lt place), List.getD_eq_getElem _ _ place]
    simpa only [List.getElem_take, List.getElem_drop] using same
  · rw [List.length_take]
    omega

/-- A copy that stops at a carriage return stops at the first one. -/
theorem Locals.first_return
    (copies : memccpy 13 hostSize
      (Buffer.read (fun i => locals.array (found + i)) hostSize) ≠ none) :
    ∃ first < hostSize, locals.array (found + first) = 13 ∧
      ∀ i < first, locals.array (found + i) ≠ 13 := by
  have present : ∃ i, i < hostSize ∧ locals.array (found + i) = 13 := by
    by_contra absent
    apply copies
    apply memccpy_of_none
    intro i early same
    exact absent ⟨i, early, same⟩
  obtain ⟨inside, stops⟩ := Nat.find_spec present
  refine ⟨Nat.find present, inside, stops, ?_⟩
  intro i early same
  exact Nat.find_min present early ⟨by omega, same⟩

/-- Where all accesses are allowed there is a host value. -/
theorem Locals.value_of_allowed
    (allowed : ∀ access ∈ locals.hostAccesses, access.Allowed locals.request) :
    ∃ value, HostValue locals.request.bytes value := by
  unfold Locals.hostAccesses at allowed
  split at allowed
  next => exact (allowed .nullSearch (by simp)).elim
  next found begins =>
  split at allowed
  next => exact (allowed .nullCopy (by simp)).elim
  next copied copies =>
  obtain ⟨first, inside, stops, earlier⟩ :=
    Locals.first_return (Option.ne_none_iff_exists'.mpr ⟨copied, copies⟩)
  have whole : memccpy 13 hostSize (Buffer.read (fun i => locals.array (found + 6 + i)) hostSize) =
      some (Buffer.read (fun i => locals.array (found + 6 + i)) (first + 1)) :=
    memccpy_of_first stops earlier inside (Nat.le_refl _)
  obtain rfl := Option.some.inj (copies.symm.trans whole)
  have bounds := copyAccesses_allowed.mp fun access member =>
    allowed access (List.mem_append_left _ member)
  rw [Buffer.length_read] at bounds
  obtain ⟨value, rest, split, free, size⟩ := Locals.drop_eq stops earlier (by omega)
  exact ⟨value, found, rest, begins, split, free, by omega⟩

/-- Where there is a host value all accesses are allowed. -/
theorem HostValue.allowed (holds : HostValue locals.request.bytes value) :
    ∀ access ∈ locals.hostAccesses, access.Allowed locals.request := by
  obtain ⟨found, rest, begins, split, free, fits⟩ := holds
  obtain ⟨inside, -, -⟩ := Locals.array_drop split
  have copies := Locals.memccpy_value split free (Nat.le_refl hostSize)
  rw [if_pos fits] at copies
  have size : (value ++ [13]).length = value.length + 1 := by simp
  intro access member
  simp only [Locals.hostAccesses, begins, copies, List.mem_append, List.mem_singleton] at member
  rcases member with copying | rfl
  · apply copyAccesses_allowed.mpr ?_ access copying
    rw [size]
    omega
  · show (value ++ [13]).length - 1 < hostSize
    rw [size]
    omega

/-- For every request the extraction makes only allowed accesses if and only if the request has a
host value. -/
theorem host_defined_iff (locals : Locals) :
    (∀ access ∈ locals.hostAccesses, access.Allowed locals.request) ↔
      ∃ value, HostValue locals.request.bytes value := by
  constructor
  · exact Locals.value_of_allowed
  · rintro ⟨value, holds⟩
    exact holds.allowed

/-- The request `GET / HTTP/1.0` with no header. -/
def hostlessLocals : Locals where
  clientSocket := 4
  request0 := 0
  request := .ofBytes [71, 69, 84, 32, 47, 32, 72, 84, 84, 80, 47, 49, 46, 48, 13, 10, 13, 10]
  stack := .zeros

/-- A request without a `Host:` makes `memccpy` work on the null pointer `strstr` returned. -/
theorem hostless_undefined :
    ¬∀ access ∈ hostlessLocals.hostAccesses, access.Allowed hostlessLocals.request := by
  decide

end Extraction

/-! ## Well-formed requests -/

/-- A carriage return and a line feed. -/
def crlf : List UInt8 := [13, 10]

/-- ` HTTP/1.0`. -/
def httpVersion : List UInt8 := [32, 72, 84, 84, 80, 47, 49, 46, 48]

/-- A method or a URL: not empty, without a space and without a carriage return. -/
def IsWord (word : List UInt8) : Prop := word ≠ [] ∧ 32 ∉ word ∧ 13 ∉ word

/-- A header line: not empty and without a carriage return. -/
def IsLine (line : List UInt8) : Prop := line ≠ [] ∧ 13 ∉ line

instance (word : List UInt8) : Decidable (IsWord word) :=
  inferInstanceAs (Decidable (word ≠ [] ∧ 32 ∉ word ∧ 13 ∉ word))

instance (line : List UInt8) : Decidable (IsLine line) :=
  inferInstanceAs (Decidable (line ≠ [] ∧ 13 ∉ line))

/-- A well-formed HTTP/1.0 request with exactly one `Host` line. -/
structure HttpRequest where
  /-- The method. -/
  method : List UInt8
  /-- The URL. -/
  url : List UInt8
  /-- The header lines before the `Host` line. -/
  before : List (List UInt8)
  /-- The value of the `Host` line. -/
  host : List UInt8
  /-- The header lines behind the `Host` line. -/
  after : List (List UInt8)
  /-- The method is a word. -/
  method_word : IsWord method
  /-- The URL is a word. -/
  url_word : IsWord url
  /-- The other header lines are lines. -/
  lines : ∀ line ∈ before ++ after, IsLine line
  /-- No other header line is a `Host` line. -/
  single : ∀ line ∈ before ++ after, ¬hostText ++ [32] <+: line
  /-- The value has no carriage return. -/
  host_free : 13 ∉ host
  /-- The value, a carriage return and a terminator fit into `host`. -/
  host_short : host.length ≤ hostSize - 2

namespace HttpRequest

variable {request : HttpRequest} {locals : Locals} {found : Nat}

/-- Lines, each ended by a carriage return and a line feed. -/
def ended (lines : List (List UInt8)) : List UInt8 := lines.flatMap (· ++ crlf)

/-- The request line. -/
def requestLine (request : HttpRequest) : List UInt8 :=
  request.method ++ 32 :: request.url ++ httpVersion

/-- The request line and the header lines before the `Host` line. -/
def head (request : HttpRequest) : List UInt8 := ended (request.requestLine :: request.before)

/-- The bytes of the request: behind the head the `Host` line, the other header lines and an empty
line. -/
def text (request : HttpRequest) : List UInt8 :=
  request.head ++ (hostText ++ 32 :: (request.host ++ crlf ++ ended request.after ++ crlf))

/-- The first `Host:` before the `Host` line, if there is one, has the value of the `Host` line. -/
def Unhidden (request : HttpRequest) : Prop :=
  ∀ found, strstr hostText request.head = some found →
    request.host ++ [13] <+: request.head.drop (found + 6)

/-- The head ends with a carriage return and a line feed. -/
theorem head_ends (request : HttpRequest) : ∃ start, request.head = start ++ [13] ++ [10] := by
  obtain ⟨lines, last, split⟩ : ∃ lines last, request.requestLine :: request.before =
      lines ++ [last] := by
    rcases List.eq_nil_or_concat' (request.requestLine :: request.before) with empty | snoc
    · cases empty
    · exact snoc
  refine ⟨ended lines ++ last, ?_⟩
  unfold head
  rw [split]
  simp [ended, crlf]

/-- A `Host:` in the head ends before its last carriage return: behind it and one more byte there is
the last line feed alone, or a carriage return. -/
theorem head_drop (begins : hostText <+: request.head.drop found) :
    found + 6 ≤ request.head.length ∧
      (request.head.drop (found + 6) = [10] ∨ 13 ∈ request.head.drop (found + 6)) := by
  obtain ⟨start, ends⟩ := request.head_ends
  have colon : request.head[found + 4]? = some 58 := by
    obtain ⟨rest, split⟩ := begins
    rw [← List.getElem?_drop, ← split]
    rfl
  rw [ends] at colon ⊢
  have early : found + 4 < start.length := by
    by_contra late
    rw [List.append_assoc, List.getElem?_append_right (by omega)] at colon
    rcases Nat.lt_trichotomy (found + 4 - start.length) 1 with zero | one | more
    · rw [Nat.lt_one_iff.mp zero] at colon
      cases colon
    · rw [one] at colon
      cases colon
    · rw [List.getElem?_eq_none (by simp; omega)] at colon
      cases colon
  refine ⟨by simp; omega, ?_⟩
  rw [List.append_assoc]
  rcases Nat.lt_or_ge start.length (found + 6) with beyond | inside
  · have last : found + 6 = start.length + 1 := by omega
    exact .inl (by rw [last, List.drop_append]; simp)
  · exact .inr (by rw [List.drop_append_of_le_length inside]; simp)

/-- Of two values up to a carriage return, one begins the other only if they are the same. -/
theorem prefix_return {left right rest : List UInt8} (free : 13 ∉ left) (free' : 13 ∉ right) :
    left ++ [13] <+: right ++ 13 :: rest ↔ left = right := by
  constructor
  · rintro ⟨more, same⟩
    have words := congrArg (List.takeWhile (· != 13)) same
    have plain : ∀ word : List UInt8, 13 ∉ word → ∀ byte ∈ word, (byte != 13) = true := by
      intro word absent byte member
      rw [bne_iff_ne]
      rintro rfl
      exact absent member
    rw [List.append_assoc, List.takeWhile_append_of_pos (plain left free),
      List.takeWhile_append_of_pos (plain right free')] at words
    simpa using words
  · rintro rfl
    exact ⟨rest, by simp⟩

/-- The host a handler extracts is a given value exactly when the text behind the first `Host:`
and one more byte begins with that value and a carriage return. -/
theorem extracted_iff (fits : locals.request.strlen < maxBufferSize)
    (begins : strstr hostText locals.request.bytes = some found)
    (returns : 13 ∈ locals.request.bytes.drop (found + 6)) {host : List UInt8}
    (free : 13 ∉ host) (short : host.length < hostSize) :
    locals.host.map CString.bytes = some host ↔
      host ++ [13] <+: locals.request.bytes.drop (found + 6) := by
  obtain ⟨value, rest, split, free'⟩ := List.eq_append_cons_of_mem returns
  obtain ⟨inside, -, -⟩ := Locals.array_drop split
  have copies := Locals.memccpy_value split free' (Nat.min_le_left hostSize
    (maxBufferSize - (found + 6)))
  have nulFree : 0 ∉ value := by
    intro zero
    have member : 0 ∈ locals.request.bytes.drop (found + 6) := by
      rw [split]
      exact List.mem_append_left _ zero
    exact locals.request.nulFree (List.mem_of_mem_drop member)
  rw [split, prefix_return free free']
  simp only [Locals.host, begins, Option.bind_eq_bind, Option.bind_some, copies]
  by_cases small : value.length < hostSize
  · rw [if_pos (by omega)]
    simp only [Option.bind_some, Option.map_some, List.dropLast_concat,
      CString.bytes_ofBytes nulFree, Option.some.injEq]
    exact eq_comm
  · rw [if_neg (by omega)]
    refine iff_of_false (by intro wrong; cases wrong) ?_
    rintro rfl
    exact small short

/-- The value of a `Host` line is shorter than the array `host`. -/
theorem host_lt (request : HttpRequest) : request.host.length < hostSize := by
  have bound := request.host_short
  unfold hostSize at bound ⊢
  omega

/-- Without an earlier `Host:` the host name is the value of the `Host` line. -/
theorem extracted_alone (received : locals.request.bytes = request.text)
    (fits : locals.request.strlen < maxBufferSize) (missing : strstr hostText request.head = none) :
    locals.host.map CString.bytes = some request.host := by
  have free := request.host_free
  obtain ⟨start, ends⟩ := request.head_ends
  have begins : strstr hostText locals.request.bytes = some request.head.length := by
    rw [received, text]
    rw [ends] at missing ⊢
    exact strstr_append_of_none missing (by decide) (List.prefix_append _ _)
  have behind : locals.request.bytes.drop (request.head.length + 6) =
      request.host ++ 13 :: 10 :: (ended request.after ++ crlf) := by
    rw [received, text, ← List.drop_drop, List.drop_left]
    simp [hostText, crlf]
  rw [extracted_iff fits begins (by rw [behind]; simp) free request.host_lt, behind]
  exact (prefix_return free free).mpr rfl

/-- An earlier `Host:` gives the host name: it is the value of the `Host` line exactly when the same
value stands there. -/
theorem extracted_earlier (received : locals.request.bytes = request.text)
    (fits : locals.request.strlen < maxBufferSize)
    (search : strstr hostText request.head = some found) :
    locals.host.map CString.bytes = some request.host ↔
      request.host ++ [13] <+: request.head.drop (found + 6) := by
  have free := request.host_free
  have begins : strstr hostText locals.request.bytes = some found := by
    rw [received]
    exact strstr_append_of_some search
  obtain ⟨inside, ending⟩ := head_drop (strstr_eq_some.mp search).2.1
  have behind : locals.request.bytes.drop (found + 6) = request.head.drop (found + 6) ++
      (hostText ++ 32 :: (request.host ++ crlf ++ ended request.after ++ crlf)) := by
    rw [received, text, List.drop_append_of_le_length inside]
  rcases ending with feed | returns
  · have line : locals.request.bytes.drop (found + 6) = (10 :: hostText ++ 32 :: request.host) ++
        13 :: 10 :: (ended request.after ++ crlf) := by
      rw [behind, feed]
      simp [crlf]
    have free' : 13 ∉ 10 :: hostText ++ 32 :: request.host := by
      simp [hostText, free]
    rw [extracted_iff fits begins (by rw [line]; simp) free request.host_lt, line, feed,
      prefix_return free free']
    refine iff_of_false ?_ ?_
    · intro same
      have lengths := congrArg List.length same
      simp at lengths
      omega
    · rintro ⟨more, same⟩
      cases host : request.host with
      | nil => simp [host] at same
      | cons byte rest => simp [host] at same
  · obtain ⟨value, rest, split, free'⟩ := List.eq_append_cons_of_mem returns
    have member : 13 ∈ locals.request.bytes.drop (found + 6) := by
      rw [behind]
      exact List.mem_append_left _ returns
    rw [extracted_iff fits begins member free request.host_lt, behind, split, List.append_assoc,
      List.cons_append, prefix_return free free', prefix_return free free']

/-- For every well-formed request that fits into the array of the handler, the host name is the
value of its `Host` line if and only if no earlier `Host:` hides it. -/
theorem host_extracted_iff (request : HttpRequest) (locals : Locals)
    (received : locals.request.bytes = request.text) (fits : request.text.length < maxBufferSize) :
    locals.host.map CString.bytes = some request.host ↔ request.Unhidden := by
  have fits' : locals.request.strlen < maxBufferSize := by
    unfold CString.strlen
    rw [received]
    exact fits
  cases search : strstr hostText request.head with
  | none =>
    have unhidden : request.Unhidden := by
      intro found here
      rw [search] at here
      cases here
    exact iff_of_true (extracted_alone received fits' search) unhidden
  | some found =>
    have hidden : request.Unhidden ↔ request.host ++ [13] <+: request.head.drop (found + 6) := by
      unfold Unhidden
      rw [search]
      simp
    rw [extracted_earlier received fits' search, hidden]

/-- A request for `/` with an unrelated header before its `Host` line. -/
def plainRequest : HttpRequest where
  method := [71, 69, 84]
  url := [47]
  before := [[65, 58, 32, 98]]
  host := [104]
  after := []
  method_word := by decide
  url_word := by decide
  lines := by decide
  single := by decide
  host_free := by decide
  host_short := by decide

/-- A request whose URL holds `Host:`. -/
def hiddenRequest : HttpRequest where
  method := [71, 69, 84]
  url := [47, 63, 72, 111, 115, 116, 58, 101, 118, 105, 108]
  before := []
  host := [104]
  after := []
  method_word := by decide
  url_word := by decide
  lines := by decide
  single := by decide
  host_free := by decide
  host_short := by decide

/-- A handler that received a request. -/
def received (request : HttpRequest) : Locals := ⟨4, 0, .ofBytes request.text, .zeros⟩

/-- The host name of a plain request is extracted. -/
theorem plain_extracted :
    (received plainRequest).host.map CString.bytes = some plainRequest.host := by
  apply (host_extracted_iff plainRequest (received plainRequest) (by decide) (by decide)).mpr
  intro found here
  have missing : strstr hostText plainRequest.head = none := by decide
  rw [missing] at here
  cases here

/-- The URL `/?Host:evil` takes the place of the `Host` line. -/
theorem hidden_not_extracted :
    ¬∀ (request : HttpRequest) (locals : Locals), locals.request.bytes = request.text →
      request.text.length < maxBufferSize →
        locals.host.map CString.bytes = some request.host := by
  intro claim
  have same := claim hiddenRequest (received hiddenRequest) (by decide) (by decide)
  revert same
  decide

end HttpRequest

end NsuOs.Proxy
