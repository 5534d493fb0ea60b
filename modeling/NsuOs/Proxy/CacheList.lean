import NsuOs.Base.Heap
import NsuOs.Base.CString

/-!
# The cache list of the proxy

The functions of `cache_list.h`, and `init_cache` and `destroy_cache` of `proxy.c`, over a heap
of records and byte buffers. Each body between the lock and the unlock of `cache_mutex` is one
function here. An access through a pointer to no live block of the right kind is undefined in
the source and `none` (or `Lookup.fault`) here. The traversals take the heap's bound as fuel: a
walk of more steps has met a record twice and would never end.
-/
namespace NsuOs.Proxy

/-- `MAX_BUFFER_SIZE`. -/
def maxBufferSize : Nat := 4096

/-- `CACHE_BUFFER_SIZE`. -/
def cacheBufferSize : Nat := 1024 * 1024 * 64

/-- `NOT_FOUND_CACHE`. -/
def notFoundCache : Int := -1

/-- `struct cache`. -/
structure Cache where
  /-- The hash of the request, the only trace of it that is kept. -/
  request : UInt64
  /-- The response buffer. -/
  response : Ptr
  /-- Number of response bytes (`ssize_t`). -/
  responseLen : Int
  /-- The next record. -/
  next : Ptr
  deriving DecidableEq

/-- A block of the heap. -/
inductive Block where
  /-- A list record. -/
  | record (cache : Cache)
  /-- A response buffer. -/
  | bytes (buffer : Buffer)

/-- The memory the cache lives in. -/
abbrev Memory := Heap Block

/-- The record a pointer designates. -/
def recordAt (mem : Memory) (p : Ptr) : Option Cache :=
  match mem.get p with
  | some (.record cache) => some cache
  | _ => none

/-- The byte buffer a pointer designates. -/
def bytesAt (mem : Memory) (p : Ptr) : Option Buffer :=
  match mem.get p with
  | some (.bytes buffer) => some buffer
  | _ => none

/-- One character of `hash`: a `char` is sign-extended to `unsigned long`. -/
def hashByte (hash : UInt64) (char : UInt8) : UInt64 :=
  ((hash <<< 5) + hash) + char.toInt8.toInt64.toUInt64

/-- `hash`. -/
def hash (str : CString) : UInt64 := str.bytes.foldl hashByte 0

/-- `init_cache_record` on an allocated record, with the address `calloc` returned. -/
def initCacheRecord (mem : Memory) (record response : Ptr) : Option Memory := do
  let cache ← recordAt mem record
  some ((mem.alloc response (.bytes Buffer.zeros)).set record
    (.record { cache with response := response, next := null }))

/-- `add_request`. -/
def addRequest (mem : Memory) (record : Ptr) (req : CString) : Option Memory := do
  let cache ← recordAt mem record
  some (mem.set record (.record { cache with request := hash req }))

/-- `add_response`: copy `resp` to `curPosition`. -/
def addResponse (mem : Memory) (record : Ptr) (resp : List UInt8) (curPosition : Nat) :
    Option Memory := do
  let cache ← recordAt mem record
  let buffer ← bytesAt mem cache.response
  some (mem.set cache.response
    (.bytes (Buffer.memcpy buffer curPosition (Buffer.ofBytes resp) resp.length)))

/-- `add_size`. -/
def addSize (mem : Memory) (record : Ptr) (size : Int) : Option Memory := do
  let cache ← recordAt mem record
  some (mem.set record (.record { cache with responseLen := size }))

/-- `delete_cache_record`. -/
def deleteCacheRecord (mem : Memory) (record : Ptr) : Option Memory := do
  let cache ← recordAt mem record
  some (mem.free cache.response)

/-- What a call of `find_in_cache` does. -/
inductive Lookup where
  /-- Undefined behaviour, or a walk that does not end. -/
  | fault
  /-- The result `NOT_FOUND_CACHE`. -/
  | miss
  /-- The record that matched, the length returned and the contents of `copy`. -/
  | hit (record : Ptr) (len : Int) (copy : Buffer)

/-- The matching branch of `find_in_cache`. A negative length becomes a huge `size_t`. -/
def copyResponse (mem : Memory) (cur : Ptr) (cache : Cache) (copy : Buffer) : Lookup :=
  if cache.responseLen = 0 then .hit cur 0 copy
  else if cache.responseLen < 0 then .fault
  else
    match bytesAt mem cache.response with
    | none => .fault
    | some buffer =>
      .hit cur cache.responseLen (Buffer.strncpy copy buffer cache.responseLen.toNat)

/-- The loop of `find_in_cache`. -/
def findLoop (mem : Memory) (reqHash : UInt64) (copy : Buffer) : Nat → Ptr → Lookup
  | 0, _ => .fault
  | fuel + 1, cur =>
    if cur = null then .miss
    else
      match recordAt mem cur with
      | none => .fault
      | some cache =>
        if cache.request = reqHash then copyResponse mem cur cache copy
        else findLoop mem reqHash copy fuel cache.next

/-- `find_in_cache`. -/
def findInCache (mem : Memory) (start : Ptr) (req : CString) (copy : Buffer) : Lookup :=
  findLoop mem (hash req) copy (mem.bound + 1) start

/-- The duplicate branch of `push_record`: the new record is given up. -/
def dropRecord (mem : Memory) (record : Ptr) : Option Memory :=
  (deleteCacheRecord mem record).map (·.free record)

/-- The loop of `push_record`: it advances before it compares, so `start` is never compared. -/
def pushLoop (mem : Memory) (record : Ptr) (request : UInt64) : Nat → Ptr → Option Memory
  | 0, _ => none
  | fuel + 1, cur => do
    let cache ← recordAt mem cur
    if cache.next = null then some (mem.set cur (.record { cache with next := record }))
    else do
      let other ← recordAt mem cache.next
      if other.request = request then dropRecord mem record
      else pushLoop mem record request fuel cache.next

/-- `push_record`. -/
def pushRecord (mem : Memory) (start record : Ptr) : Option Memory := do
  let cache ← recordAt mem record
  pushLoop mem record cache.request (mem.bound + 1) start

/-- `init_cache` with the address and the uninitialised contents `malloc` returned. -/
def initCache (mem : Memory) (cache : Ptr) (garbage : Cache) : Memory :=
  mem.alloc cache (.record { garbage with next := null })

/-- The loop of `destroy_cache`. -/
def destroyLoop : Nat → Memory → Ptr → Option Memory
  | 0, _, _ => none
  | fuel + 1, mem, cur =>
    if cur = null then some mem
    else do
      let mem ← deleteCacheRecord mem cur
      let cache ← recordAt mem cur
      destroyLoop fuel (mem.free cur) cache.next

/-- `destroy_cache`. -/
def destroyCache (mem : Memory) (cache : Ptr) : Option Memory :=
  destroyLoop (mem.bound + 1) mem cache

section Reads

variable {mem : Memory} {p q : Ptr}

/-- A pointer to a record points to a block. -/
theorem get_of_recordAt {cache : Cache} (here : recordAt mem p = some cache) :
    mem.get p = some (.record cache) := by
  unfold recordAt at here
  split at here
  · rename_i stored live
    rw [live, Option.some.inj here]
  · exact nomatch here

/-- A pointer to bytes points to a block. -/
theorem get_of_bytesAt {buffer : Buffer} (here : bytesAt mem p = some buffer) :
    mem.get p = some (.bytes buffer) := by
  unfold bytesAt at here
  split at here
  · rename_i stored live
    rw [live, Option.some.inj here]
  · exact nomatch here

/-- No address holds a record and bytes. -/
theorem record_ne_bytes {cache : Cache} {buffer : Buffer} (record : recordAt mem p = some cache)
    (bytes : bytesAt mem q = some buffer) : p ≠ q := by
  rintro rfl
  have both := (get_of_recordAt record).symm.trans (get_of_bytesAt bytes)
  exact nomatch both

/-- Equal blocks are equal records. -/
theorem recordAt_congr {other : Memory} (same : other.get q = mem.get q) :
    recordAt other q = recordAt mem q := by
  simp [recordAt, same]

/-- Equal blocks are equal buffers. -/
theorem bytesAt_congr {other : Memory} (same : other.get q = mem.get q) :
    bytesAt other q = bytesAt mem q := by
  simp [bytesAt, same]

/-- Overwriting a live block with a record leaves that record there. -/
theorem recordAt_set {block : Block} {cache : Cache} (live : mem.get p = some block) :
    recordAt (mem.set p (.record cache)) p = some cache := by
  simp [recordAt, live]

/-- Overwriting a live block with bytes leaves those bytes there. -/
theorem bytesAt_set {block : Block} {buffer : Buffer} (live : mem.get p = some block) :
    bytesAt (mem.set p (.bytes buffer)) p = some buffer := by
  simp [bytesAt, live]

/-- Overwriting one block leaves the others. -/
theorem get_set_of_ne {block : Block} (apart : q ≠ p) :
    (mem.set p block).get q = mem.get q := by
  simp [apart]

/-- A live record lies below the bound. -/
theorem lt_bound_of_recordAt {cache : Cache} (here : recordAt mem p = some cache) :
    p < mem.bound :=
  Heap.lt_bound (get_of_recordAt here)

end Reads

section Walks

variable {mem : Memory}

/-- `find_in_cache` stops at the first record of the chain whose request matches. -/
theorem findLoop_chain (reqHash : UInt64) (copy : Buffer) (rows : List (Ptr × Cache))
    (fuel : Nat) (cur : Ptr) (enough : rows.length < fuel)
    (chain : Chain (recordAt mem) Cache.next cur (rows.map Prod.fst))
    (cells : ∀ row ∈ rows, recordAt mem row.1 = some row.2) :
    findLoop mem reqHash copy fuel cur =
      match rows.find? (fun row => decide (row.2.request = reqHash)) with
      | none => .miss
      | some row => copyResponse mem row.1 row.2 copy := by
  induction rows generalizing fuel cur with
  | nil =>
    obtain ⟨fuel, rfl⟩ : ∃ n, fuel = n + 1 := ⟨fuel - 1, by simp at enough; omega⟩
    have ended : cur = null := chain
    simp [findLoop, ended]
  | cons row rest ih =>
    obtain ⟨fuel, rfl⟩ : ∃ n, fuel = n + 1 := ⟨fuel - 1, by simp at enough; omega⟩
    obtain ⟨at_, nonnull, value, here, later⟩ := chain
    have cell := cells row List.mem_cons_self
    have same : value = row.2 := Option.some.inj (here.symm.trans cell)
    subst at_
    rw [same] at later
    have remaining : rest.length < fuel := by simpa using enough
    by_cases matched : row.2.request = reqHash
    · simp [findLoop, nonnull, cell, matched]
    · simp only [findLoop, nonnull, cell, matched, if_false, List.find?_cons, decide_false]
      exact ih fuel row.2.next remaining later
        fun other member => cells other (List.mem_cons_of_mem row member)

/-- `push_record` gives the record up when a later record of the chain has its request, and
otherwise links it behind the last one. -/
theorem pushLoop_chain (record : Ptr) (request : UInt64) (rows : List (Ptr × Cache))
    (fuel : Nat) (first : Ptr × Cache) (enough : rows.length < fuel)
    (chain : Chain (recordAt mem) Cache.next first.1 ((first :: rows).map Prod.fst))
    (cells : ∀ row ∈ first :: rows, recordAt mem row.1 = some row.2) :
    pushLoop mem record request fuel first.1 =
      if request ∈ rows.map (·.2.request) then dropRecord mem record
      else
        let last := (first :: rows).getLast (List.cons_ne_nil _ _)
        some (mem.set last.1 (.record { last.2 with next := record })) := by
  induction rows generalizing fuel first with
  | nil =>
    obtain ⟨fuel, rfl⟩ : ∃ n, fuel = n + 1 := ⟨fuel - 1, by simp at enough; omega⟩
    obtain ⟨-, -, value, here, ended⟩ := chain
    have cell := cells first List.mem_cons_self
    have same : value = first.2 := Option.some.inj (here.symm.trans cell)
    rw [same] at ended
    have last : first.2.next = null := ended
    simp [pushLoop, cell, last]
  | cons row rest ih =>
    obtain ⟨fuel, rfl⟩ : ∃ n, fuel = n + 1 := ⟨fuel - 1, by simp at enough; omega⟩
    obtain ⟨-, -, value, here, later⟩ := chain
    have cell := cells first List.mem_cons_self
    have same : value = first.2 := Option.some.inj (here.symm.trans cell)
    rw [same] at later
    have pointed : first.2.next = row.1 := later.1
    have nonnull : row.1 ≠ null := later.2.1
    have rowCell := cells row (List.mem_cons_of_mem first List.mem_cons_self)
    by_cases matched : row.2.request = request
    · simp [pushLoop, cell, pointed, nonnull, rowCell, matched]
    · have remaining : rest.length < fuel := by simpa using enough
      rw [pointed] at later
      have next := ih fuel row remaining later
        fun other member => cells other (List.mem_cons_of_mem first member)
      have apart : request ≠ row.2.request := Ne.symm matched
      simp only [pushLoop, cell, pointed, nonnull, rowCell, matched, Option.bind_eq_bind,
        Option.bind_some, if_false, next, List.map_cons, List.mem_cons, apart, false_or,
        List.getLast_cons_cons]

end Walks

end NsuOs.Proxy
