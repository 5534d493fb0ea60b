import NsuOs.Base.FirstWins
import NsuOs.Base.Run
import NsuOs.Proxy.CacheList

/-!
# The cache under any interleaving of its users

Handlers look requests up, allocate and fill records of their own and push them; each call is
one step, and a run is any list of such steps by any number of handlers. Addresses come back
after a record is given up, so a record is identified by its allocation.

The abstract cache is the list of the pushed fetches in which the first one for each hash wins.
`Store.Inv` ties the linked records to it: the chain behind the head is exactly that list, and
every linked record holds the hash, the length and the bytes of its fetch.
-/
namespace NsuOs.Proxy

open NsuOs.Run

/-- What one handler does for one request it fetches from the remote server. -/
structure Fetch where
  /-- The handler's request string. -/
  request : CString
  /-- Its cache record. -/
  record : Ptr
  /-- The response buffer of the record. -/
  response : Ptr
  /-- Allocation number of the record; the buffer has the next one. -/
  number : Nat
  /-- Chunks stored so far. -/
  chunks : List (List UInt8)
  /-- `all_bytes_read`. -/
  allBytesRead : Nat

/-- The bytes stored so far. -/
def Fetch.body (fetch : Fetch) : List UInt8 := fetch.chunks.flatten

/-- The key of a fetch is the hash of its request. -/
def Fetch.key (fetch : Fetch) : UInt64 := hash fetch.request

/-- The fetch after one more chunk. -/
def Fetch.addChunk (fetch : Fetch) (chunk : List UInt8) : Fetch :=
  { fetch with
    chunks := fetch.chunks ++ [chunk]
    allBytesRead := fetch.allBytesRead + chunk.length }

/-- The cache and the fetches of its users. -/
structure Store where
  /-- The memory of all records and buffers. -/
  mem : Memory
  /-- The list head, the variable `cache`. -/
  cache : Ptr
  /-- The fetch each handler is filling. -/
  pending : Nat → Option Fetch
  /-- Fetches whose record was passed to `push_record`, in the order of the calls. -/
  pushed : List Fetch

/-- One call by some handler, with what the allocator returned. -/
inductive Op where
  /-- `find_in_cache` into a buffer from `calloc`. -/
  | find (req : CString)
  /-- `malloc`, `init_cache_record` and `add_request` by a handler. -/
  | fetch (handler : Nat) (req : CString) (record response : Ptr) (garbage : Cache)
  /-- `add_response` at the running offset. -/
  | add (handler : Nat) (chunk : List UInt8)
  /-- `add_size` and `push_record`. -/
  | push (handler : Nat)

namespace Store

/-- The lookup a handler makes in `send_from_cache`. -/
def find (store : Store) (req : CString) : Lookup :=
  findInCache store.mem store.cache req Buffer.zeros

/-- Store a fetch as the one a handler is filling. -/
def setPending (store : Store) (handler : Nat) (fetch : Option Fetch) : Nat → Option Fetch :=
  fun other => if other = handler then fetch else store.pending other

/-- `malloc`, `init_cache_record` and `add_request`. -/
def beginFetch (store : Store) (handler : Nat) (req : CString) (record response : Ptr)
    (garbage : Cache) : Option Store := do
  let mem ← initCacheRecord (store.mem.alloc record (.record garbage)) record response
  let mem ← addRequest mem record req
  some { store with
    mem := mem
    pending := store.setPending handler
      (some ⟨req, record, response, store.mem.made, [], 0⟩) }

/-- `add_response(record, buffer, all_bytes_read, bytes_read)` and the new offset. -/
def addChunk (store : Store) (handler : Nat) (fetch : Fetch) (chunk : List UInt8) :
    Option Store := do
  let mem ← addResponse store.mem fetch.record chunk fetch.allBytesRead
  some { store with
    mem := mem
    pending := store.setPending handler (some (fetch.addChunk chunk)) }

/-- `add_size(record, all_bytes_read)` and `push_record(cache, record)`. -/
def finishFetch (store : Store) (handler : Nat) (fetch : Fetch) : Option Store := do
  let mem ← addSize store.mem fetch.record fetch.allBytesRead
  let mem ← pushRecord mem store.cache fetch.record
  some { store with
    mem := mem
    pending := store.setPending handler none
    pushed := store.pushed ++ [fetch] }

/-- One call. The allocator returns unused addresses, `read` returns 1 to `MAX_BUFFER_SIZE` bytes
and the response stays inside its buffer; a handler fills one record at a time. -/
def next (store : Store) : Op → Option Store
  | .find req =>
    match store.find req with
    | .fault => none
    | _ => some store
  | .fetch handler req record response garbage =>
    if store.pending handler = none ∧ store.mem.Unused record ∧ store.mem.Unused response ∧
        record ≠ response then
      store.beginFetch handler req record response garbage
    else none
  | .add handler chunk => do
    let fetch ← store.pending handler
    if 0 < chunk.length ∧ chunk.length ≤ maxBufferSize ∧
        fetch.allBytesRead + chunk.length ≤ cacheBufferSize then
      store.addChunk handler fetch chunk
    else none
  | .push handler => do
    let fetch ← store.pending handler
    store.finishFetch handler fetch

/-- The store after `init_cache`, with whatever `malloc` left in the head. -/
def start (mem : Memory) (cache : Ptr) (garbage : Cache) : Store where
  mem := initCache mem cache garbage
  cache := cache
  pending _ := none
  pushed := []

/-- The abstract cache: the first fetch pushed for each hash, in push order. -/
def linked (store : Store) : List Fetch := FirstWins.insertAll Fetch.key store.pushed

/-- A fetch of the run, still being filled or already pushed. -/
def Has (store : Store) (fetch : Fetch) : Prop :=
  fetch ∈ store.pushed ∨ ∃ handler, store.pending handler = some fetch

end Store

/-- Memory holds the record of a fetch with the given fields, and its buffer with the bytes
stored so far. -/
structure Owns (mem : Memory) (fetch : Fetch) (cell : Cache) : Prop where
  /-- The record is where the fetch keeps it. -/
  record : recordAt mem fetch.record = some cell
  /-- It is the record this fetch allocated. -/
  recordNumber : mem.number fetch.record = some fetch.number
  /-- Its key is the hash of the request. -/
  request : cell.request = fetch.key
  /-- It points to the buffer of the fetch. -/
  response : cell.response = fetch.response
  /-- The buffer starts with the bytes stored. -/
  bytes : ∃ buffer, bytesAt mem fetch.response = some buffer ∧
    Buffer.read buffer fetch.allBytesRead = fetch.body
  /-- It is the buffer this fetch allocated. -/
  bytesNumber : mem.number fetch.response = some (fetch.number + 1)
  /-- `malloc` did not fail. -/
  nonnull : fetch.record ≠ null
  /-- `all_bytes_read` counts the bytes stored. -/
  size : fetch.allBytesRead = fetch.body.length

/-- A record and its buffer survive every change elsewhere. -/
theorem Owns.frame {mem other : Memory} {fetch : Fetch} {cell : Cache}
    (owns : Owns mem fetch cell)
    (same : ∀ p, p = fetch.record ∨ p = fetch.response →
      other.get p = mem.get p ∧ other.number p = mem.number p) : Owns other fetch cell := by
  have record := same fetch.record (Or.inl rfl)
  have response := same fetch.response (Or.inr rfl)
  obtain ⟨buffer, bytes, stored⟩ := owns.bytes
  exact
    { owns with
      record := (recordAt_congr record.1).trans owns.record
      recordNumber := record.2.trans owns.recordNumber
      bytes := ⟨buffer, (bytesAt_congr response.1).trans bytes, stored⟩
      bytesNumber := response.2.trans owns.bytesNumber }

/-- Two fetches whose records were allocated apart share neither record nor buffer. -/
theorem Owns.apart {mem : Memory} {first second : Fetch} {cell cell' : Cache}
    (owns : Owns mem first cell) (owns' : Owns mem second cell')
    (different : first.number ≠ second.number) :
    first.record ≠ second.record ∧ first.response ≠ second.response ∧
      first.record ≠ second.response ∧ first.response ≠ second.record := by
  obtain ⟨buffer, bytes, -⟩ := owns.bytes
  obtain ⟨buffer', bytes', -⟩ := owns'.bytes
  refine ⟨fun same => ?_, fun same => ?_, record_ne_bytes owns.record bytes',
    (record_ne_bytes owns'.record bytes).symm⟩
  · have numbers := owns.recordNumber
    rw [same, owns'.recordNumber] at numbers
    exact different (Option.some.inj numbers).symm
  · have numbers := owns.bytesNumber
    rw [same, owns'.bytesNumber] at numbers
    have shifted := Option.some.inj numbers
    omega

/-- Copying a chunk behind the bytes stored so far appends it to what the buffer holds. -/
theorem Owns.addChunk {mem : Memory} {fetch : Fetch} {cell : Cache} {buffer : Buffer}
    (owns : Owns mem fetch cell) (chunk : List UInt8)
    (bytes : bytesAt mem fetch.response = some buffer)
    (stored : Buffer.read buffer fetch.allBytesRead = fetch.body) :
    Owns (mem.set fetch.response (.bytes (Buffer.memcpy buffer fetch.allBytesRead
      (Buffer.ofBytes chunk) chunk.length))) (fetch.addChunk chunk) cell := by
  have elsewhere : fetch.record ≠ fetch.response := record_ne_bytes owns.record bytes
  exact
    { record := (recordAt_congr (get_set_of_ne elsewhere)).trans owns.record
      recordNumber := by simpa [Fetch.addChunk] using owns.recordNumber
      request := owns.request
      response := owns.response
      bytes := by
        refine ⟨_, bytesAt_set (get_of_bytesAt bytes), ?_⟩
        rw [Fetch.addChunk, Buffer.read_memcpy, stored]
        simp [Fetch.body]
      bytesNumber := by simpa [Fetch.addChunk] using owns.bytesNumber
      nonnull := owns.nonnull
      size := by simp [Fetch.addChunk, Fetch.body, owns.size] }

namespace Store

variable {store : Store}

/-- Looking up what a handler is filling. -/
@[simp] theorem setPending_apply (handler other : Nat) (fetch : Option Fetch) :
    store.setPending handler fetch other =
      if other = handler then fetch else store.pending other := rfl

/-- The records of all fetches were allocated one by one, after allocation `low`: each push was of
a record of its own, and handlers fill records that nobody else fills or has pushed. -/
structure Numbered (low made : Nat) (pending : Nat → Option Fetch) (pushed : List Fetch) :
    Prop where
  /-- Records were allocated after `low`, each with its buffer. -/
  later : ∀ fetch, fetch ∈ pushed ∨ (∃ handler, pending handler = some fetch) →
    low < fetch.number ∧ fetch.number + 1 < made
  /-- Every push was of a record of its own. -/
  pushedApart : (pushed.map Fetch.number).Nodup
  /-- A record being filled was not pushed. -/
  pendingApart : ∀ handler fetch, pending handler = some fetch →
    fetch.number ∉ pushed.map Fetch.number
  /-- Handlers fill records of their own. -/
  handlerApart : ∀ handler handler' fetch fetch', pending handler = some fetch →
    pending handler' = some fetch' → fetch.number = fetch'.number → handler = handler'

section Numbered

variable {low made : Nat} {pushed : List Fetch}

/-- A handler may begin a fetch with the next allocations. -/
theorem Numbered.begin (numbers : Numbered low made store.pending pushed) (above : low < made)
    (handler : Nat) {fetch : Fetch} (number : fetch.number = made) :
    Numbered low (made + 2) (store.setPending handler (some fetch)) pushed where
  later other has := by
    rcases has with old | ⟨handler', pending⟩
    · have bounds := numbers.later other (Or.inl old)
      omega
    · simp only [setPending_apply] at pending
      split at pending
      · obtain rfl := Option.some.inj pending
        omega
      · have bounds := numbers.later other (Or.inr ⟨handler', pending⟩)
        omega
  pushedApart := numbers.pushedApart
  pendingApart handler' other pending := by
    simp only [setPending_apply] at pending
    split at pending
    · obtain rfl := Option.some.inj pending
      intro member
      obtain ⟨old, isPushed, same⟩ := List.mem_map.mp member
      have bounds := numbers.later old (Or.inl isPushed)
      omega
    · exact numbers.pendingApart handler' other pending
  handlerApart first second one two pending pending' same := by
    simp only [setPending_apply] at pending pending'
    split at pending <;> split at pending'
    · simp_all
    · obtain rfl := Option.some.inj pending
      have bounds := numbers.later two (Or.inr ⟨second, pending'⟩)
      omega
    · obtain rfl := Option.some.inj pending'
      have bounds := numbers.later one (Or.inr ⟨first, pending⟩)
      omega
    · exact numbers.handlerApart first second one two pending pending' same

/-- Filling a record does not change whose it is. -/
theorem Numbered.refill (numbers : Numbered low made store.pending pushed) {handler : Nat}
    {fetch filled : Fetch} (pending : store.pending handler = some fetch)
    (number : filled.number = fetch.number) :
    Numbered low made (store.setPending handler (some filled)) pushed := by
  have stands : ∀ handler' other, store.setPending handler (some filled) handler' = some other →
      ∃ old, store.pending handler' = some old ∧ old.number = other.number := by
    intro handler' other pending'
    simp only [setPending_apply] at pending'
    split at pending'
    · rename_i here
      obtain rfl := Option.some.inj pending'
      exact ⟨fetch, here ▸ pending, number.symm⟩
    · exact ⟨other, pending', rfl⟩
  exact
    { later := by
        intro other has
        rcases has with old | ⟨handler', pending'⟩
        · exact numbers.later other (Or.inl old)
        · obtain ⟨old, was, same⟩ := stands handler' other pending'
          rw [← same]
          exact numbers.later old (Or.inr ⟨handler', was⟩)
      pushedApart := numbers.pushedApart
      pendingApart := by
        intro handler' other pending'
        obtain ⟨old, was, same⟩ := stands handler' other pending'
        rw [← same]
        exact numbers.pendingApart handler' old was
      handlerApart := by
        intro first second one two pending₁ pending₂ same
        obtain ⟨old₁, was₁, same₁⟩ := stands first one pending₁
        obtain ⟨old₂, was₂, same₂⟩ := stands second two pending₂
        exact numbers.handlerApart first second old₁ old₂ was₁ was₂
          (same₁.trans (same.trans same₂.symm)) }

/-- Pushing a record takes it from its handler. -/
theorem Numbered.push (numbers : Numbered low made store.pending pushed) {handler : Nat}
    {fetch : Fetch} (pending : store.pending handler = some fetch) :
    Numbered low made (store.setPending handler none) (pushed ++ [fetch]) where
  later other has := by
    rcases has with old | ⟨handler', pending'⟩
    · rcases List.mem_append.mp old with before | last
      · exact numbers.later other (Or.inl before)
      · rw [List.mem_singleton.mp last]
        exact numbers.later fetch (Or.inr ⟨handler, pending⟩)
    · simp only [setPending_apply] at pending'
      split at pending'
      · exact nomatch pending'
      · exact numbers.later other (Or.inr ⟨handler', pending'⟩)
  pushedApart := by
    rw [List.map_append, List.map_singleton]
    refine List.nodup_append.mpr ⟨numbers.pushedApart, List.nodup_singleton _, ?_⟩
    rintro n before m last rfl
    rw [List.mem_singleton.mp last] at before
    exact numbers.pendingApart handler fetch pending before
  pendingApart handler' other pending' := by
    simp only [setPending_apply] at pending'
    split at pending'
    · exact nomatch pending'
    · rename_i different
      rw [List.map_append, List.map_singleton, List.mem_append, List.mem_singleton]
      rintro (before | same)
      · exact numbers.pendingApart handler' other pending' before
      · exact different (numbers.handlerApart handler' handler other fetch pending' pending same)
  handlerApart first second one two pending₁ pending₂ same := by
    simp only [setPending_apply] at pending₁ pending₂
    split at pending₁
    · exact nomatch pending₁
    · split at pending₂
      · exact nomatch pending₂
      · exact numbers.handlerApart first second one two pending₁ pending₂ same

end Numbered

/-- The head as `init_cache` left it, and the frees before that. -/
structure Origin where
  /-- Contents of the head, uninitialised except for the link. -/
  garbage : Cache
  /-- Allocation number of the head. -/
  number : Nat
  /-- Calls of `free` made before. -/
  before : List (Ptr × Option Nat)

/-- What holds between any two calls. -/
structure Inv (origin : Origin) (store : Store) : Prop where
  /-- The head keeps its uninitialised fields. -/
  head : ∃ link, recordAt store.mem store.cache = some { origin.garbage with next := link }
  /-- The head is the record allocated by `init_cache`. -/
  headNumber : store.mem.number store.cache = some origin.number
  /-- The list is the head followed by the records of the abstract cache. -/
  chain : Chain (recordAt store.mem) Cache.next store.cache
    (store.cache :: store.linked.map Fetch.record)
  /-- Linked records hold what their fetch stored. -/
  kept : ∀ fetch ∈ store.linked, ∃ cell, Owns store.mem fetch cell ∧
    cell.responseLen = fetch.allBytesRead
  /-- Records being filled belong to their handler and are linked to nothing. -/
  filling : ∀ handler fetch, store.pending handler = some fetch →
    ∃ cell, Owns store.mem fetch cell ∧ cell.next = null
  /-- The fetches have records of their own, allocated after the head. -/
  numbers : Numbered origin.number store.mem.made store.pending store.pushed
  /-- A record that was pushed and is not linked has been freed with its buffer. -/
  dropped : ∀ fetch ∈ store.pushed, fetch ∉ store.linked →
    fetch.number ∈ store.mem.freed ∧ fetch.number + 1 ∈ store.mem.freed
  /-- Every call of `free` ended a live block. -/
  frees : ∃ since, store.mem.frees = origin.before ++ since ∧ ∀ entry ∈ since, entry.2 ≠ none

variable {origin : Origin}

/-- Linked fetches were pushed. -/
theorem mem_pushed_of_mem_linked {fetch : Fetch} (member : fetch ∈ store.linked) :
    fetch ∈ store.pushed :=
  FirstWins.mem_of_mem_insertAll member

/-- A linked record and a record being filled were allocated apart. -/
theorem Inv.linked_ne_pending (inv : Inv origin store) {handler : Nat} {fetch other : Fetch}
    (pending : store.pending handler = some fetch) (member : other ∈ store.linked) :
    other.number ≠ fetch.number := by
  intro same
  apply inv.numbers.pendingApart handler fetch pending
  rw [← same]
  exact List.mem_map_of_mem (mem_pushed_of_mem_linked member)

/-- The head is neither the record nor the buffer of a fetch. -/
theorem Inv.head_ne (inv : Inv origin store) {fetch : Fetch} {cell : Cache}
    (owns : Owns store.mem fetch cell) (has : store.Has fetch) :
    store.cache ≠ fetch.record ∧ store.cache ≠ fetch.response := by
  obtain ⟨link, head⟩ := inv.head
  obtain ⟨buffer, bytes, -⟩ := owns.bytes
  refine ⟨fun same => ?_, record_ne_bytes head bytes⟩
  have number := inv.headNumber
  rw [same, owns.recordNumber] at number
  have older := (inv.numbers.later fetch has).1
  have equal := Option.some.inj number
  omega

/-- The invariant holds after `init_cache`. -/
theorem inv_start {mem : Memory} {cache : Ptr} (unused : mem.Unused cache) (garbage : Cache) :
    Inv ⟨garbage, mem.made, mem.frees⟩ (start mem cache garbage) where
  head := ⟨null, by simp [start, initCache, recordAt]⟩
  headNumber := by simp [start, initCache]
  chain := ⟨rfl, unused.1, { garbage with next := null }, by simp [start, initCache, recordAt], rfl⟩
  kept := by simp [linked, start]
  filling := by simp [start]
  numbers :=
    { later := by simp [start]
      pushedApart := List.nodup_nil
      pendingApart := by simp [start]
      handlerApart := by simp [start] }
  dropped := by simp [start]
  frees := ⟨[], by simp [start, initCache], by simp⟩

/-- Memory after a handler has allocated, initialised and keyed its record. -/
def begun (mem : Memory) (req : CString) (record response : Ptr) (garbage : Cache) : Memory :=
  (((mem.alloc record (.record garbage)).alloc response (.bytes Buffer.zeros)).set record
    (.record { garbage with response := response, next := null })).set record
    (.record ⟨hash req, response, garbage.responseLen, null⟩)

/-- A fetch begins by allocating and initialising its record. -/
theorem beginFetch_eq (store : Store) {record response : Ptr} (handler : Nat) (req : CString)
    (garbage : Cache) (apart : record ≠ response) :
    store.beginFetch handler req record response garbage = some { store with
      mem := begun store.mem req record response garbage
      pending := store.setPending handler
        (some ⟨req, record, response, store.mem.made, [], 0⟩) } := by
  simp [beginFetch, begun, initCacheRecord, addRequest, recordAt, apart]

/-- Everything beginning a fetch does to memory. -/
theorem begun_mem (mem : Memory) {record response : Ptr} (req : CString) (garbage : Cache)
    (apart : record ≠ response) :
    recordAt (begun mem req record response garbage) record =
        some ⟨hash req, response, garbage.responseLen, null⟩ ∧
      bytesAt (begun mem req record response garbage) response = some Buffer.zeros ∧
      (begun mem req record response garbage).number record = some mem.made ∧
      (begun mem req record response garbage).number response = some (mem.made + 1) ∧
      ∀ q, q ≠ record → q ≠ response →
        (begun mem req record response garbage).get q = mem.get q ∧
        (begun mem req record response garbage).number q = mem.number q := by
  refine ⟨?_, ?_, ?_, ?_, ?_⟩
  · simp [begun, recordAt, apart]
  · simp [begun, bytesAt, apart.symm]
  · simp [begun, apart]
  · simp [begun]
  · intro q notRecord notResponse
    simp [begun, notRecord, notResponse]

/-- A live block is at neither of two unused addresses. -/
theorem ne_of_live {mem : Memory} {p q : Ptr} {n : Nat} (unused : mem.Unused q)
    (live : mem.number p = some n) : p ≠ q := by
  rintro rfl
  rw [unused.2] at live
  exact nomatch live

/-- Starting a fetch keeps the invariant. -/
theorem Inv.beginFetch (inv : Inv origin store) {handler : Nat} {req : CString}
    {record response : Ptr} {garbage : Cache} {after : Store}
    (freshRecord : store.mem.Unused record) (freshResponse : store.mem.Unused response)
    (apart : record ≠ response)
    (step : store.beginFetch handler req record response garbage = some after) :
    Inv origin after := by
  obtain ⟨cell, buffer, recordNumber, bytesNumber, others⟩ :=
    begun_mem store.mem req garbage apart
  obtain rfl := Option.some.inj ((beginFetch_eq store handler req garbage apart).symm.trans step)
  let mem := begun store.mem req record response garbage
  have untouched : ∀ p n, store.mem.number p = some n →
      mem.get p = store.mem.get p ∧ mem.number p = store.mem.number p := fun p n live =>
    others p (ne_of_live freshRecord live) (ne_of_live freshResponse live)
  have owned : ∀ fetch cell, Owns store.mem fetch cell → Owns mem fetch cell := by
    intro fetch cell owns
    refine owns.frame fun p which => ?_
    rcases which with rfl | rfl
    · exact untouched _ _ owns.recordNumber
    · exact untouched _ _ owns.bytesNumber
  have headSame := untouched _ _ inv.headNumber
  exact
    { head := by
        obtain ⟨link, head⟩ := inv.head
        exact ⟨link, (recordAt_congr headSame.1).trans head⟩
      headNumber := headSame.2.trans inv.headNumber
      chain := by
        refine inv.chain.congr fun p member => ?_
        rcases List.mem_cons.mp member with rfl | linked
        · rw [recordAt_congr headSame.1]
        · obtain ⟨other, isLinked, rfl⟩ := List.mem_map.mp linked
          obtain ⟨cell, owns, -⟩ := inv.kept other isLinked
          rw [recordAt_congr (untouched _ _ owns.recordNumber).1]
      kept := by
        intro other isLinked
        obtain ⟨cell, owns, size⟩ := inv.kept other isLinked
        exact ⟨cell, owned other cell owns, size⟩
      filling := by
        intro other fetch pending
        simp only [setPending_apply] at pending
        split at pending
        · obtain rfl := Option.some.inj pending
          exact ⟨_, { record := cell, recordNumber := recordNumber, request := rfl, response := rfl,
                      bytes := ⟨_, buffer, rfl⟩, bytesNumber := bytesNumber,
                      nonnull := freshRecord.1, size := rfl }, rfl⟩
        · obtain ⟨cell, owns, ends⟩ := inv.filling other fetch pending
          exact ⟨cell, owned fetch cell owns, ends⟩
      numbers := inv.numbers.begin (Heap.number_lt_made inv.headNumber) handler rfl
      dropped := inv.dropped
      frees := inv.frees }

/-- A change confined to the record and the buffer of one fetch spares the head and every other
fetch. -/
theorem Inv.spares (inv : Inv origin store) {fetch : Fetch} {cell : Cache} {mem : Memory}
    (has : store.Has fetch) (owns : Owns store.mem fetch cell)
    (agree : ∀ p, p ≠ fetch.record → p ≠ fetch.response →
      mem.get p = store.mem.get p ∧ mem.number p = store.mem.number p) :
    (mem.get store.cache = store.mem.get store.cache ∧
      mem.number store.cache = store.mem.number store.cache) ∧
    ∀ other cell', other.number ≠ fetch.number → Owns store.mem other cell' →
      Owns mem other cell' := by
  have head := inv.head_ne owns has
  refine ⟨agree _ head.1 head.2, fun other cell' different owns' => ?_⟩
  have apart := owns'.apart owns different
  refine owns'.frame fun p which => ?_
  rcases which with rfl | rfl
  · exact agree _ apart.1 apart.2.2.1
  · exact agree _ apart.2.2.2 apart.2.1

/-- The list is untouched when the head and the linked records are. -/
theorem Inv.chain_spared (inv : Inv origin store) {mem : Memory}
    (head : mem.get store.cache = store.mem.get store.cache)
    (others : ∀ fetch ∈ store.linked, ∃ cell, Owns store.mem fetch cell ∧ Owns mem fetch cell) :
    Chain (recordAt mem) Cache.next store.cache (store.cache :: store.linked.map Fetch.record) := by
  refine inv.chain.congr fun p member => ?_
  rcases List.mem_cons.mp member with rfl | linked
  · rw [recordAt_congr head]
  · obtain ⟨fetch, isLinked, rfl⟩ := List.mem_map.mp linked
    obtain ⟨cell, before, now⟩ := others fetch isLinked
    rw [before.record, now.record]

/-- Storing a chunk overwrites the buffer of the fetch and nothing else. -/
theorem addChunk_eq {fetch : Fetch} {cell : Cache} {buffer : Buffer} (handler : Nat)
    (chunk : List UInt8) (record : recordAt store.mem fetch.record = some cell)
    (response : cell.response = fetch.response)
    (bytes : bytesAt store.mem fetch.response = some buffer) :
    store.addChunk handler fetch chunk = some { store with
      mem := store.mem.set fetch.response (.bytes (Buffer.memcpy buffer fetch.allBytesRead
        (Buffer.ofBytes chunk) chunk.length))
      pending := store.setPending handler (some (fetch.addChunk chunk)) } := by
  simp [addChunk, addResponse, record, response, bytes]

/-- Storing a chunk keeps the invariant. -/
theorem Inv.addChunk (inv : Inv origin store) {handler : Nat} {fetch : Fetch} {after : Store}
    {chunk : List UInt8} (pending : store.pending handler = some fetch)
    (step : store.addChunk handler fetch chunk = some after) : Inv origin after := by
  obtain ⟨cell, owns, ends⟩ := inv.filling handler fetch pending
  obtain ⟨buffer, bytes, stored⟩ := owns.bytes
  obtain rfl := Option.some.inj
    ((addChunk_eq handler chunk owns.record owns.response bytes).symm.trans step)
  let mem := store.mem.set fetch.response (.bytes (Buffer.memcpy buffer fetch.allBytesRead
    (Buffer.ofBytes chunk) chunk.length))
  have has : store.Has fetch := Or.inr ⟨handler, pending⟩
  have elsewhere : ∀ p, p ≠ fetch.response →
      mem.get p = store.mem.get p ∧ mem.number p = store.mem.number p := fun p apart => by
    simp [mem, apart]
  obtain ⟨headSame, others⟩ := inv.spares has owns fun p _ notResponse => elsewhere p notResponse
  have spared : ∀ other ∈ store.linked, ∀ cell', Owns store.mem other cell' →
      Owns mem other cell' := fun other isLinked cell' owns' =>
    others other cell' (inv.linked_ne_pending pending isLinked) owns'
  exact
    { head := by
        obtain ⟨link, head⟩ := inv.head
        exact ⟨link, (recordAt_congr headSame.1).trans head⟩
      headNumber := headSame.2.trans inv.headNumber
      chain := by
        refine inv.chain_spared headSame.1 fun other isLinked => ?_
        obtain ⟨cell', owns', -⟩ := inv.kept other isLinked
        exact ⟨cell', owns', spared other isLinked cell' owns'⟩
      kept := by
        intro other isLinked
        obtain ⟨cell', owns', size⟩ := inv.kept other isLinked
        exact ⟨cell', spared other isLinked cell' owns', size⟩
      filling := by
        intro other fetch' pending'
        simp only [setPending_apply] at pending'
        split at pending'
        · obtain rfl := Option.some.inj pending'
          exact ⟨cell, owns.addChunk chunk bytes stored, ends⟩
        · rename_i different
          obtain ⟨cell', owns', ends'⟩ := inv.filling other fetch' pending'
          refine ⟨cell', others fetch' cell' (fun same => different ?_) owns', ends'⟩
          exact inv.numbers.handlerApart other handler fetch' fetch pending' pending same
      numbers := inv.numbers.refill pending rfl
      dropped := inv.dropped
      frees := inv.frees }

end Store

/-- The record of a fetch together with its cell. -/
def rowOf (mem : Memory) (fetch : Fetch) : Ptr × Cache :=
  (fetch.record, (recordAt mem fetch.record).getD ⟨0, null, 0, null⟩)

/-- The row of a fetch whose record is live. -/
theorem rowOf_eq {mem : Memory} {fetch : Fetch} {cell : Cache}
    (here : recordAt mem fetch.record = some cell) : rowOf mem fetch = (fetch.record, cell) := by
  simp [rowOf, here]

/-- `push_record` on a list of given fetches: a duplicate is given up, a new key is linked behind
the last record. -/
theorem pushRecord_eq {mem : Memory} {cache : Ptr} {fetches : List Fetch} {fetch : Fetch}
    {cell : Cache}
    (chain : Chain (recordAt mem) Cache.next cache (cache :: fetches.map Fetch.record))
    (cells : ∀ other ∈ fetches, ∃ cell, recordAt mem other.record = some cell ∧
      cell.request = other.key)
    (record : recordAt mem fetch.record = some cell) (request : cell.request = fetch.key) :
    (fetch.key ∈ fetches.map Fetch.key ∧
      pushRecord mem cache fetch.record = dropRecord mem fetch.record) ∨
    (fetch.key ∉ fetches.map Fetch.key ∧ ∃ front last lastCell,
      cache :: fetches.map Fetch.record = front ++ [last] ∧ recordAt mem last = some lastCell ∧
      pushRecord mem cache fetch.record =
        some (mem.set last (.record { lastCell with next := fetch.record }))) := by
  obtain ⟨-, headCell, head⟩ := chain.live List.mem_cons_self
  let rows := fetches.map (rowOf mem)
  have whole : ((cache, headCell) :: rows).map Prod.fst = cache :: fetches.map Fetch.record := by
    simp [rows, rowOf, Function.comp_def]
  have keys : rows.map (·.2.request) = fetches.map Fetch.key := by
    simp only [rows, List.map_map]
    refine List.map_congr_left fun other member => ?_
    obtain ⟨cell, here, key⟩ := cells other member
    simp [rowOf_eq here, key]
  have live : ∀ row ∈ rows, recordAt mem row.1 = some row.2 := by
    intro row member
    obtain ⟨other, isOther, rfl⟩ := List.mem_map.mp member
    obtain ⟨cell, here, -⟩ := cells other isOther
    rw [rowOf_eq here, here]
  have short := chain.length_le fun q value here => lt_bound_of_recordAt here
  have enough : rows.length < mem.bound + 1 := by
    have counts := congrArg List.length whole
    simp only [List.length_map, List.length_cons] at counts short
    omega
  have walk := pushLoop_chain fetch.record cell.request rows (mem.bound + 1) (cache, headCell)
    enough (by rw [whole]; exact chain) (by
      intro row member
      rcases List.mem_cons.mp member with rfl | later
      · exact head
      · exact live row later)
  have unfolded : pushRecord mem cache fetch.record =
      pushLoop mem fetch.record cell.request (mem.bound + 1) cache := by
    simp [pushRecord, record]
  rw [keys, request] at walk
  rw [unfolded, request]
  by_cases duplicate : fetch.key ∈ fetches.map Fetch.key
  · left
    rw [if_pos duplicate] at walk
    exact ⟨duplicate, walk⟩
  · right
    rw [if_neg duplicate] at walk
    have nonempty : (cache, headCell) :: rows ≠ [] := List.cons_ne_nil _ _
    refine ⟨duplicate, (((cache, headCell) :: rows).dropLast).map Prod.fst,
      (((cache, headCell) :: rows).getLast nonempty).1,
      (((cache, headCell) :: rows).getLast nonempty).2, ?_, ?_, walk⟩
    · rw [← whole]
      conv_lhs => rw [← List.dropLast_append_getLast nonempty]
      simp
    · have lastMember := List.getLast_mem nonempty
      rcases List.mem_cons.mp lastMember with isHead | later
      · rw [isHead]
        exact head
      · exact live _ later

/-- Changing the link of one record keeps every fetch's record apart from that link. -/
theorem Owns.relink {mem : Memory} {fetch : Fetch} {cell lastCell : Cache} {last target : Ptr}
    (owns : Owns mem fetch cell) (live : recordAt mem last = some lastCell) :
    Owns (mem.set last (.record { lastCell with next := target })) fetch
      { cell with next := if fetch.record = last then target else cell.next } := by
  obtain ⟨buffer, bytes, stored⟩ := owns.bytes
  have notBytes : fetch.response ≠ last := (record_ne_bytes live bytes).symm
  exact
    { record := by
        by_cases here : fetch.record = last
        · have same : lastCell = cell := by
            rw [← here] at live
            exact Option.some.inj (live.symm.trans owns.record)
          rw [here, recordAt_set (get_of_recordAt live), same, if_pos rfl]
        · rw [recordAt_congr (get_set_of_ne here), owns.record, if_neg here]
      recordNumber := by simpa using owns.recordNumber
      request := owns.request
      response := owns.response
      bytes := ⟨buffer, (bytesAt_congr (get_set_of_ne notBytes)).trans bytes, stored⟩
      bytesNumber := by simpa using owns.bytesNumber
      nonnull := owns.nonnull
      size := owns.size }

namespace Store

variable {origin : Origin} {store : Store}

/-- `add_size` completes the record and touches nothing else. -/
theorem addSize_eq {fetch : Fetch} {cell : Cache} (owns : Owns store.mem fetch cell) :
    ∃ mem, addSize store.mem fetch.record fetch.allBytesRead = some mem ∧
      Owns mem fetch { cell with responseLen := fetch.allBytesRead } ∧
      mem.made = store.mem.made ∧ mem.frees = store.mem.frees ∧
      ∀ p, p ≠ fetch.record → mem.get p = store.mem.get p ∧
        mem.number p = store.mem.number p := by
  obtain ⟨buffer, bytes, stored⟩ := owns.bytes
  have elsewhere : fetch.response ≠ fetch.record := (record_ne_bytes owns.record bytes).symm
  refine ⟨store.mem.set fetch.record (.record { cell with responseLen := fetch.allBytesRead }),
    by simp [addSize, owns.record], ?_, rfl, rfl, fun p apart => by simp [apart]⟩
  exact
    { record := recordAt_set (get_of_recordAt owns.record)
      recordNumber := by simpa using owns.recordNumber
      request := owns.request
      response := owns.response
      bytes := ⟨buffer, (bytesAt_congr (get_set_of_ne elsewhere)).trans bytes, stored⟩
      bytesNumber := by simpa using owns.bytesNumber
      nonnull := owns.nonnull
      size := owns.size }

/-- The duplicate branch frees the buffer and then the record of the fetch. -/
theorem dropRecord_eq {mem : Memory} {fetch : Fetch} {cell : Cache}
    (owns : Owns mem fetch cell) :
    ∃ after, dropRecord mem fetch.record = some after ∧ after.made = mem.made ∧
      after.frees = mem.frees ++
        [(fetch.response, some (fetch.number + 1)), (fetch.record, some fetch.number)] ∧
      ∀ p, p ≠ fetch.record → p ≠ fetch.response →
        after.get p = mem.get p ∧ after.number p = mem.number p := by
  obtain ⟨buffer, bytes, -⟩ := owns.bytes
  have elsewhere : fetch.record ≠ fetch.response := record_ne_bytes owns.record bytes
  refine ⟨(mem.free fetch.response).free fetch.record, ?_, rfl, ?_, ?_⟩
  · simp [dropRecord, deleteCacheRecord, owns.record, owns.response]
  · simp [owns.bytesNumber, elsewhere, owns.recordNumber]
  · intro p notRecord notResponse
    simp [notRecord, notResponse]

/-- The store after a push that left this memory. -/
def afterPush (store : Store) (handler : Nat) (fetch : Fetch) (mem : Memory) : Store :=
  { store with
    mem := mem
    pending := store.setPending handler none
    pushed := store.pushed ++ [fetch] }

/-- Pushing is one insertion into the abstract cache. -/
theorem linked_afterPush (handler : Nat) (fetch : Fetch) (mem : Memory) :
    (store.afterPush handler fetch mem).linked =
      FirstWins.insert Fetch.key store.linked fetch :=
  FirstWins.insertAll_snoc _ _

/-- What a handler other than the pushing one fills after the push it filled before. -/
theorem pending_afterPush {handler other : Nat} {fetch fetch' : Fetch} {mem : Memory}
    (pending : (store.afterPush handler fetch mem).pending other = some fetch') :
    other ≠ handler ∧ store.pending other = some fetch' := by
  simp only [afterPush, setPending_apply] at pending
  split at pending
  · exact nomatch pending
  · rename_i different
    exact ⟨different, pending⟩

/-- A push that finds its key frees the record and keeps the list. -/
theorem Inv.push_duplicate (inv : Inv origin store) {handler : Nat} {fetch : Fetch} {cell : Cache}
    {mem : Memory} (pending : store.pending handler = some fetch)
    (owns : Owns store.mem fetch cell) (duplicate : fetch.key ∈ store.linked.map Fetch.key)
    (made : mem.made = store.mem.made)
    (frees : mem.frees = store.mem.frees ++
      [(fetch.response, some (fetch.number + 1)), (fetch.record, some fetch.number)])
    (agree : ∀ p, p ≠ fetch.record → p ≠ fetch.response →
      mem.get p = store.mem.get p ∧ mem.number p = store.mem.number p) :
    Inv origin (store.afterPush handler fetch mem) := by
  obtain ⟨headSame, others⟩ := inv.spares (Or.inr ⟨handler, pending⟩) owns agree
  have same : (store.afterPush handler fetch mem).linked = store.linked := by
    rw [linked_afterPush, FirstWins.insert, if_pos duplicate]
  have spared : ∀ other ∈ store.linked, ∀ cell', Owns store.mem other cell' →
      Owns mem other cell' := fun other isLinked cell' owns' =>
    others other cell' (inv.linked_ne_pending pending isLinked) owns'
  have freed : mem.freed = store.mem.freed ++ [fetch.number + 1, fetch.number] := by
    simp [Heap.freed, frees]
  exact
    { head := by
        obtain ⟨link, head⟩ := inv.head
        exact ⟨link, (recordAt_congr headSame.1).trans head⟩
      headNumber := headSame.2.trans inv.headNumber
      chain := by
        rw [same]
        refine inv.chain_spared headSame.1 fun other isLinked => ?_
        obtain ⟨cell', owns', -⟩ := inv.kept other isLinked
        exact ⟨cell', owns', spared other isLinked cell' owns'⟩
      kept := by
        rw [same]
        intro other isLinked
        obtain ⟨cell', owns', size⟩ := inv.kept other isLinked
        exact ⟨cell', spared other isLinked cell' owns', size⟩
      filling := by
        intro other fetch' pending'
        obtain ⟨different, was⟩ := pending_afterPush pending'
        obtain ⟨cell', owns', ends⟩ := inv.filling other fetch' was
        refine ⟨cell', others fetch' cell' (fun equal => different ?_) owns', ends⟩
        exact inv.numbers.handlerApart other handler fetch' fetch was pending equal
      numbers := by
        rw [show (store.afterPush handler fetch mem).mem.made = store.mem.made from made]
        exact inv.numbers.push pending
      dropped := by
        intro other isPushed notLinked
        rw [same] at notLinked
        simp only [show (store.afterPush handler fetch mem).mem.freed =
          store.mem.freed ++ [fetch.number + 1, fetch.number] from freed]
        rcases List.mem_append.mp isPushed with before | last
        · obtain ⟨record, buffer⟩ := inv.dropped other before notLinked
          exact ⟨List.mem_append_left _ record, List.mem_append_left _ buffer⟩
        · rw [List.mem_singleton.mp last]
          simp
      frees := by
        obtain ⟨since, log, live⟩ := inv.frees
        refine ⟨since ++ [(fetch.response, some (fetch.number + 1)),
          (fetch.record, some fetch.number)], ?_, ?_⟩
        · rw [show (store.afterPush handler fetch mem).mem.frees = mem.frees from rfl, frees, log,
            List.append_assoc]
        · intro entry member
          rcases List.mem_append.mp member with before | now
          · exact live entry before
          · simp only [List.mem_cons, List.not_mem_nil, or_false] at now
            rcases now with rfl | rfl <;> simp }

/-- A record that is being filled is neither the head nor in the list. -/
theorem Inv.pending_outside (inv : Inv origin store) {handler : Nat} {fetch : Fetch} {cell : Cache}
    (pending : store.pending handler = some fetch) (owned : Owns store.mem fetch cell) :
    fetch.record ∉ store.cache :: store.linked.map Fetch.record := by
  intro member
  rcases List.mem_cons.mp member with isHead | isLinked
  · exact (inv.head_ne owned (Or.inr ⟨handler, pending⟩)).1 isHead.symm
  · obtain ⟨other, isLinked, same⟩ := List.mem_map.mp isLinked
    obtain ⟨cell', owns', -⟩ := inv.kept other isLinked
    exact (owns'.apart owned (inv.linked_ne_pending pending isLinked)).1 same

/-- A push of a new key links the record behind the last one. -/
theorem Inv.push_new (inv : Inv origin store) {handler : Nat} {fetch : Fetch}
    {cell lastCell : Cache} {sized : Memory} {front : List Ptr} {last : Ptr}
    (pending : store.pending handler = some fetch) (owned : Owns store.mem fetch cell)
    (owns : Owns sized fetch { cell with responseLen := fetch.allBytesRead })
    (ends : cell.next = null) (new : fetch.key ∉ store.linked.map Fetch.key)
    (made : sized.made = store.mem.made) (frees : sized.frees = store.mem.frees)
    (agree : ∀ p, p ≠ fetch.record → sized.get p = store.mem.get p ∧
      sized.number p = store.mem.number p)
    (whole : store.cache :: store.linked.map Fetch.record = front ++ [last])
    (live : recordAt sized last = some lastCell) :
    Inv origin (store.afterPush handler fetch
      (sized.set last (.record { lastCell with next := fetch.record }))) := by
  have has : store.Has fetch := Or.inr ⟨handler, pending⟩
  obtain ⟨headSame, others⟩ := inv.spares has owned fun p notRecord _ => agree p notRecord
  have appended : (store.afterPush handler fetch
      (sized.set last (.record { lastCell with next := fetch.record }))).linked =
        store.linked ++ [fetch] := by
    rw [linked_afterPush, FirstWins.insert, if_neg new]
  have spared : ∀ other ∈ store.linked, ∀ cell', Owns store.mem other cell' →
      Owns sized other cell' := fun other isLinked cell' owns' =>
    others other cell' (inv.linked_ne_pending pending isLinked) owns'
  have inList : last ∈ store.cache :: store.linked.map Fetch.record := by
    rw [whole]
    simp
  have notLast : fetch.record ≠ last := by
    rintro rfl
    exact inv.pending_outside pending owned inList
  have chain := inv.chain_spared headSame.1 fun other isLinked => by
    obtain ⟨cell', owns', -⟩ := inv.kept other isLinked
    exact ⟨cell', owns', spared other isLinked cell' owns'⟩
  obtain ⟨link, head⟩ := inv.head
  have headSized : recordAt sized store.cache = some { origin.garbage with next := link } :=
    (recordAt_congr headSame.1).trans head
  exact
    { head := by
        by_cases isLast : store.cache = last
        · refine ⟨fetch.record, ?_⟩
          have same := live
          rw [← isLast, headSized] at same
          obtain rfl := Option.some.inj same
          change recordAt (sized.set last _) store.cache = _
          rw [isLast, recordAt_set (get_of_recordAt live)]
        · exact ⟨link, (recordAt_congr (get_set_of_ne isLast)).trans headSized⟩
      headNumber := by
        change (sized.set last _).number store.cache = _
        rw [Heap.number_set]
        exact headSame.2.trans inv.headNumber
      chain := by
        rw [appended]
        have listed : store.cache :: (store.linked ++ [fetch]).map Fetch.record =
            front ++ [last, fetch.record] := by
          rw [List.map_append, ← List.cons_append, whole]
          simp
        rw [whole] at chain
        change Chain (recordAt (sized.set last _)) Cache.next store.cache (store.cache :: _)
        rw [listed]
        have distinct := chain.nodup
        refine chain.link (fun q member => ?_) (recordAt_set (get_of_recordAt live)) rfl
          owned.nonnull ((recordAt_congr (get_set_of_ne notLast)).trans owns.record) ends
        have notHere : q ≠ last := by
          rintro rfl
          exact (List.nodup_append.mp distinct).2.2 q member q (List.mem_singleton.mpr rfl) rfl
        rw [recordAt_congr (get_set_of_ne notHere)]
      kept := by
        rw [appended]
        intro other member
        rcases List.mem_append.mp member with isLinked | isNew
        · obtain ⟨cell', owns', size⟩ := inv.kept other isLinked
          exact ⟨_, (spared other isLinked cell' owns').relink live, size⟩
        · rw [List.mem_singleton.mp isNew]
          exact ⟨_, owns.relink live, rfl⟩
      filling := by
        intro other fetch' pending'
        obtain ⟨different, was⟩ := pending_afterPush pending'
        obtain ⟨cell', owns', ends'⟩ := inv.filling other fetch' was
        have apart : fetch'.number ≠ fetch.number := fun equal =>
          different (inv.numbers.handlerApart other handler fetch' fetch was pending equal)
        have elsewhere : fetch'.record ≠ last := by
          rintro rfl
          exact inv.pending_outside was owns' inList
        refine ⟨_, (others fetch' cell' apart owns').relink live, ?_⟩
        simp [elsewhere, ends']
      numbers := by
        change Numbered _ sized.made _ _
        rw [made]
        exact inv.numbers.push pending
      dropped := by
        intro other isPushed notLinked
        rw [appended] at notLinked
        change _ ∈ (sized.set last _).frees.filterMap Prod.snd ∧
          _ ∈ (sized.set last _).frees.filterMap Prod.snd
        rw [Heap.frees_set, frees]
        rcases List.mem_append.mp isPushed with before | last
        · exact inv.dropped other before fun isLinked =>
            notLinked (List.mem_append_left _ isLinked)
        · exact absurd (List.mem_append_right _ last) notLinked
      frees := by
        obtain ⟨since, log, live⟩ := inv.frees
        exact ⟨since, frees.trans log, live⟩ }

/-- What a push of a filled record does: `add_size` completes it, and then it is given up as a
duplicate or linked behind the last record. -/
theorem Inv.push_cases (inv : Inv origin store) {handler : Nat} {fetch : Fetch} {cell : Cache}
    (pending : store.pending handler = some fetch) (owned : Owns store.mem fetch cell) :
    ∃ sized, addSize store.mem fetch.record fetch.allBytesRead = some sized ∧
      Owns sized fetch { cell with responseLen := fetch.allBytesRead } ∧
      sized.made = store.mem.made ∧ sized.frees = store.mem.frees ∧
      (∀ p, p ≠ fetch.record → sized.get p = store.mem.get p ∧
        sized.number p = store.mem.number p) ∧
      ((fetch.key ∈ store.linked.map Fetch.key ∧
        pushRecord sized store.cache fetch.record = dropRecord sized fetch.record) ∨
      (fetch.key ∉ store.linked.map Fetch.key ∧ ∃ front last lastCell,
        store.cache :: store.linked.map Fetch.record = front ++ [last] ∧
        recordAt sized last = some lastCell ∧
        pushRecord sized store.cache fetch.record =
          some (sized.set last (.record { lastCell with next := fetch.record })))) := by
  obtain ⟨sized, sizing, owns, made, frees, agree⟩ := addSize_eq owned
  have has : store.Has fetch := Or.inr ⟨handler, pending⟩
  obtain ⟨headSame, others⟩ := inv.spares has owned fun p notRecord _ => agree p notRecord
  have linkedOwned : ∀ other ∈ store.linked, ∃ cell', Owns store.mem other cell' ∧
      Owns sized other cell' := by
    intro other isLinked
    obtain ⟨cell', owns', -⟩ := inv.kept other isLinked
    exact ⟨cell', owns', others other cell' (inv.linked_ne_pending pending isLinked) owns'⟩
  have cells : ∀ other ∈ store.linked, ∃ cell', recordAt sized other.record = some cell' ∧
      cell'.request = other.key := by
    intro other isLinked
    obtain ⟨cell', -, owns'⟩ := linkedOwned other isLinked
    exact ⟨cell', owns'.record, owns'.request⟩
  exact ⟨sized, sizing, owns, made, frees, agree,
    pushRecord_eq (inv.chain_spared headSame.1 linkedOwned) cells owns.record owns.request⟩

/-- A push never goes wrong: it ends, and the invariant holds afterwards. -/
theorem Inv.finishFetch (inv : Inv origin store) {handler : Nat} {fetch : Fetch}
    (pending : store.pending handler = some fetch) :
    ∃ mem, store.finishFetch handler fetch = some (store.afterPush handler fetch mem) ∧
      Inv origin (store.afterPush handler fetch mem) := by
  obtain ⟨cell, owned, ends⟩ := inv.filling handler fetch pending
  obtain ⟨sized, sizing, owns, made, frees, agree, cases⟩ := inv.push_cases pending owned
  rcases cases with ⟨duplicate, result⟩ | ⟨new, front, last, lastCell, whole, live, result⟩
  · obtain ⟨mem, dropping, made', frees', agree'⟩ := dropRecord_eq owns
    refine ⟨mem, ?_, inv.push_duplicate pending owned duplicate (made'.trans made)
      (frees'.trans (by rw [frees])) fun p notRecord notResponse => ?_⟩
    · simp [Store.finishFetch, sizing, result, dropping, afterPush]
    · exact ⟨(agree' p notRecord notResponse).1.trans (agree p notRecord).1,
        (agree' p notRecord notResponse).2.trans (agree p notRecord).2⟩
  · exact ⟨_, by simp [Store.finishFetch, sizing, result, afterPush],
      inv.push_new pending owned owns ends new made frees agree whole live⟩

/-- Every call keeps the invariant. -/
theorem Inv.next (inv : Inv origin store) {op : Op} {after : Store}
    (step : store.next op = some after) : Inv origin after := by
  cases op with
  | find req =>
    simp only [Store.next] at step
    split at step
    · exact nomatch step
    · obtain rfl := Option.some.inj step
      exact inv
  | fetch handler req record response garbage =>
    simp only [Store.next] at step
    split at step
    · rename_i fresh
      exact inv.beginFetch fresh.2.1 fresh.2.2.1 fresh.2.2.2 step
    · exact nomatch step
  | add handler chunk =>
    simp only [Store.next, Option.bind_eq_bind, Option.bind_eq_some_iff] at step
    obtain ⟨fetch, pending, stored⟩ := step
    split at stored
    · exact inv.addChunk pending stored
    · exact nomatch stored
  | push handler =>
    simp only [Store.next, Option.bind_eq_bind, Option.bind_eq_some_iff] at step
    obtain ⟨fetch, pending, pushing⟩ := step
    obtain ⟨mem, result, kept⟩ := inv.finishFetch pending
    obtain rfl := Option.some.inj (result.symm.trans pushing)
    exact kept

/-- The invariant holds along every run. -/
theorem inv_run {mem : Memory} {cache : Ptr} {garbage : Cache} {trace : List Op}
    (unused : mem.Unused cache)
    (run : exec Store.next (start mem cache garbage) trace = some store) :
    Inv ⟨garbage, mem.made, mem.frees⟩ store :=
  exec_invariant (fun _ _ _ inv step => inv.next step) (inv_start unused garbage) run

/-- What a lookup returns: the head's contents when they happen to match, and otherwise the bytes
of the first fetch pushed for the hash, as `strncpy` copies them. -/
theorem Inv.find_eq (inv : Inv origin store) (req : CString) :
    store.find req =
      if origin.garbage.request = hash req then
        copyResponse store.mem store.cache origin.garbage Buffer.zeros
      else
        match FirstWins.lookup Fetch.key (hash req) store.pushed with
        | none => .miss
        | some fetch => .hit fetch.record fetch.allBytesRead
            (Buffer.strncpy Buffer.zeros (Buffer.ofBytes fetch.body) fetch.allBytesRead) := by
  obtain ⟨link, head⟩ := inv.head
  let rows := store.linked.map (rowOf store.mem)
  have whole : ((store.cache, { origin.garbage with next := link }) :: rows).map Prod.fst =
      store.cache :: store.linked.map Fetch.record := by
    simp [rows, rowOf, Function.comp_def]
  have short := inv.chain.length_le fun q value here => lt_bound_of_recordAt here
  have walk := @findLoop_chain store.mem (hash req) Buffer.zeros
    ((store.cache, { origin.garbage with next := link }) :: rows) (store.mem.bound + 1) store.cache
    (by
      simp only [List.length_cons, List.length_map, rows] at short ⊢
      omega)
    (by rw [whole]; exact inv.chain)
    (by
      intro row member
      rcases List.mem_cons.mp member with rfl | later
      · exact head
      · obtain ⟨fetch, isLinked, rfl⟩ := List.mem_map.mp later
        obtain ⟨cell, owns, -⟩ := inv.kept fetch isLinked
        rw [rowOf_eq owns.record, owns.record])
  rw [Store.find, findInCache, walk]
  by_cases matched : origin.garbage.request = hash req
  · simp only [List.find?_cons, matched, decide_true, if_true]
    rfl
  · rw [if_neg matched]
    have found : rows.find? (fun row => decide (row.2.request = hash req)) =
        (FirstWins.lookup Fetch.key (hash req) store.pushed).map (rowOf store.mem) := by
      rw [← FirstWins.lookup_insertAll, List.find?_map]
      congr 1
      refine List.find?_congr fun fetch isLinked => ?_
      obtain ⟨cell, owns, -⟩ := inv.kept fetch isLinked
      simp [rowOf_eq owns.record, owns.request]
    simp only [List.find?_cons, matched, decide_false, found]
    cases first : FirstWins.lookup Fetch.key (hash req) store.pushed with
    | none => rfl
    | some fetch =>
      rw [← FirstWins.lookup_insertAll] at first
      obtain ⟨cell, owns, size⟩ := inv.kept fetch (List.mem_of_find?_eq_some first)
      obtain ⟨buffer, bytes, stored⟩ := owns.bytes
      simp only [Option.map_some, rowOf_eq owns.record]
      unfold copyResponse
      rw [size]
      by_cases empty : fetch.allBytesRead = 0
      · rw [if_pos (by omega), empty]
        rfl
      · rw [if_neg (by omega), if_neg (by omega), owns.response, bytes]
        simp only [Int.toNat_natCast]
        congr 1
        refine Buffer.strncpy_congr fun i inside => ?_
        rw [← stored, Buffer.ofBytes_read inside]

end Store
end NsuOs.Proxy
