import NsuOs.Proxy.System

/-!
# The buffers of a request

A request is read into a block of `accept_new_client`, terminated there, formatted into the buffer
of `logg_char`, copied into the array of the handler and hashed. Every index written or scanned on
the way is listed. `read` may return as many bytes as the block has, and then the terminator is
written behind it; with one byte less every index lies inside its buffer.
-/
namespace NsuOs.Proxy

/-- The buffers a request passes through. -/
inductive RequestBuffer
  /-- `request` of `accept_new_client`. -/
  | block
  /-- `buf` of `logg_char`. -/
  | log
  /-- `request` of `execute_client_request`. -/
  | copy
  deriving DecidableEq

/-- `LOG_BUFFER_SIZE`. -/
def logBufferSize : Nat := 4096

/-- The sizes of the buffers. -/
def RequestBuffer.size : RequestBuffer → Nat
  | .block => maxBufferSize
  | .log => logBufferSize + 100
  | .copy => maxBufferSize

/-- An index of a buffer that is written or scanned. -/
structure Touch where
  /-- The buffer. -/
  buffer : RequestBuffer
  /-- The index. -/
  index : Nat
  deriving DecidableEq

/-- The index lies inside the buffer. -/
def Touch.Inside (touch : Touch) : Prop := touch.index < touch.buffer.size

/-- The first indices of a buffer, in order. -/
def touches (buffer : RequestBuffer) (count : Nat) : List Touch :=
  (List.range count).map (Touch.mk buffer)

/-- A string is stored in a buffer or scanned there, with its terminator. -/
def stringTouches (buffer : RequestBuffer) (text : CString) : List Touch :=
  touches buffer (text.strlen + 1)

/-- The string `%s %s` makes. -/
def formatted (msg info : CString) : CString where
  bytes := msg.bytes ++ 32 :: info.bytes
  nulFree := by
    have left := msg.nulFree
    have right := info.nulFree
    simp [left, right]

/-- `logg_char` on a request: `sprintf` scans it and stores the formatted string, which `logg`
prints in a colour other than red. -/
def loggChar (msg info : CString) : List Touch :=
  stringTouches .block info ++ stringTouches .log (formatted msg info) ++
    stringTouches .log (formatted msg info)

/-- The message `Received request:` and a line feed. -/
def receivedMessage : CString :=
  .ofBytes [82, 101, 99, 101, 105, 118, 101, 100, 32, 114, 101, 113, 117, 101, 115, 116, 58, 10]

/-- `read_request` from the result of its `read` on: the indices it touches, and the string in the
block when it succeeds. -/
def readRequest : Option (List UInt8) → List Touch × Option CString
  | none | some [] => ([], none)
  | some (byte :: rest) =>
    let bytes := byte :: rest
    let request := CString.ofBytes bytes
    (touches .block bytes.length ++ [⟨.block, bytes.length⟩] ++ loggChar receivedMessage request,
      some request)

/-- `execute_client_request` on a request: `strcpy`, `hash` in `find_in_cache`, and after a miss
`hash` in `add_request`. -/
def copyRequest (request : CString) (found : Bool) : List Touch :=
  stringTouches .block request ++ stringTouches .copy request ++ stringTouches .copy request ++
    if found then [] else stringTouches .block request

/-- The whole way of a request, from the result of `read` on. -/
def requestPath (got : Option (List UInt8)) (found : Bool) : List Touch :=
  match readRequest got with
  | (touched, none) => touched
  | (touched, some request) => touched ++ copyRequest request found

section Bounds

variable {buffer : RequestBuffer} {count : Nat} {text : CString} {bytes : List UInt8} {found : Bool}

/-- The first indices lie inside a buffer that is as long. -/
theorem touches_inside (fits : count ≤ buffer.size) :
    ∀ touch ∈ touches buffer count, touch.Inside := by
  intro touch member
  obtain ⟨index, early, rfl⟩ := List.mem_map.mp member
  have bound : index < count := List.mem_range.mp early
  show index < buffer.size
  omega

/-- A string lies inside a buffer that has a place for its terminator. -/
theorem stringTouches_inside (fits : text.strlen < buffer.size) :
    ∀ touch ∈ stringTouches buffer text, touch.Inside := touches_inside fits

/-- A string read from bytes is not longer than these. -/
theorem strlen_ofBytes_le (bytes : List UInt8) : (CString.ofBytes bytes).strlen ≤ bytes.length :=
  (List.takeWhile_prefix _).length_le

/-- A formatted string is longer than the message and the request by a space. -/
theorem strlen_formatted (msg info : CString) :
    (formatted msg info).strlen = msg.strlen + info.strlen + 1 := by
  simp [formatted, CString.strlen]
  omega

/-- Logging a request that fits stays inside the buffers. -/
theorem loggChar_inside (fits : text.strlen < maxBufferSize) :
    ∀ touch ∈ loggChar receivedMessage text, touch.Inside := by
  have block : text.strlen < RequestBuffer.block.size := fits
  have message : receivedMessage.strlen = 18 := by decide
  have log : (formatted receivedMessage text).strlen < RequestBuffer.log.size := by
    have size : RequestBuffer.log.size = maxBufferSize + 100 := rfl
    rw [strlen_formatted, message, size]
    omega
  intro touch member
  rcases List.mem_append.mp member with early | printed
  · rcases List.mem_append.mp early with scanned | stored
    · exact stringTouches_inside block touch scanned
    · exact stringTouches_inside log touch stored
  · exact stringTouches_inside log touch printed

/-- Copying and hashing a request that fits stays inside the buffers. -/
theorem copyRequest_inside (fits : text.strlen < maxBufferSize) :
    ∀ touch ∈ copyRequest text found, touch.Inside := by
  have block : text.strlen < RequestBuffer.block.size := fits
  have copy : text.strlen < RequestBuffer.copy.size := fits
  intro touch member
  rcases List.mem_append.mp member with early | missed
  · rcases List.mem_append.mp early with copied | hashed
    · rcases List.mem_append.mp copied with scanned | stored
      · exact stringTouches_inside block touch scanned
      · exact stringTouches_inside copy touch stored
    · exact stringTouches_inside copy touch hashed
  · cases found with
    | true => cases missed
    | false => exact stringTouches_inside block touch missed

/-- The terminator is written behind the bytes read. -/
theorem terminator_touched (nonempty : bytes ≠ []) :
    ⟨.block, bytes.length⟩ ∈ requestPath (some bytes) found := by
  obtain ⟨byte, rest, rfl⟩ := List.exists_cons_of_ne_nil nonempty
  simp [requestPath, readRequest]

/-- A request shorter than the block stays inside the buffers. -/
theorem requestPath_inside {got : Option (List UInt8)}
    (short : ∀ bytes, got = some bytes → bytes.length < maxBufferSize) :
    ∀ touch ∈ requestPath got found, touch.Inside := by
  intro touch member
  rcases got with - | - | ⟨byte, rest⟩
  · cases member
  · cases member
  · have count : (byte :: rest).length < maxBufferSize := short _ rfl
    have fits := Nat.lt_of_le_of_lt (strlen_ofBytes_le (byte :: rest)) count
    rcases List.mem_append.mp member with reading | copying
    · rcases List.mem_append.mp reading with received | logged
      · have size : (byte :: rest).length + 1 ≤ RequestBuffer.block.size := count
        rcases List.mem_append.mp received with stored | terminated
        · exact touches_inside (Nat.le_of_lt size) touch stored
        · rw [List.mem_singleton.mp terminated]
          exact size
      · exact loggChar_inside fits touch logged
    · exact copyRequest_inside fits touch copying

/-- For every result of `read` the request stays inside the buffers on its way if and only if `read`
did not return as many bytes as the block has. -/
theorem request_inside_iff (got : Option (List UInt8)) (found : Bool) :
    (∀ touch ∈ requestPath got found, touch.Inside) ↔
      ∀ bytes, got = some bytes → bytes.length < maxBufferSize := by
  constructor
  · rintro inside bytes rfl
    by_cases empty : bytes = []
    · rw [empty]
      decide
    · exact inside _ (terminator_touched empty)
  · exact requestPath_inside

/-- A request as long as the block is terminated behind it. -/
theorem full_request_overruns :
    ¬∀ (got : Option (List UInt8)) (found : Bool),
      (∀ bytes, got = some bytes → bytes.length ≤ maxBufferSize) →
        ∀ touch ∈ requestPath got found, touch.Inside := by
  intro claim
  have full : (List.replicate maxBufferSize (65 : UInt8)).length = maxBufferSize :=
    List.length_replicate
  have nonempty : List.replicate maxBufferSize (65 : UInt8) ≠ [] := by
    intro empty
    rw [empty] at full
    cases full
  have returned : ∀ bytes, some (List.replicate maxBufferSize (65 : UInt8)) = some bytes →
      bytes.length ≤ maxBufferSize := by
    rintro bytes ⟨⟩
    exact full.le
  have inside : (List.replicate maxBufferSize (65 : UInt8)).length < maxBufferSize :=
    claim _ false returned _ (terminator_touched nonempty)
  rw [full] at inside
  exact Nat.lt_irrefl _ inside

end Bounds

end NsuOs.Proxy
