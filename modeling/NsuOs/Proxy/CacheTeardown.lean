import NsuOs.Proxy.CacheStore

/-!
# What `destroy_cache` leaves behind

`destroy_cache` frees the response and then the record of every element of the list, the head
included, whose response pointer nobody has set. Where that pointer is null, the call follows and
frees no bad pointer whatever the handlers did before: every record that was linked is freed with
its buffer, every duplicate was freed by its own push, and what survives are the records that were
fetched and never pushed, of handlers still at work or gone on an error.
-/
namespace NsuOs.Proxy

open NsuOs.Run

/-- The pointers `destroy_cache` passes to `free` for some list elements. -/
def freedRows (rows : List (Ptr × Cache)) : List Ptr :=
  rows.flatMap fun row => [row.2.response, row.1]

/-- The loop of `destroy_cache` frees the elements of a chain one by one. -/
theorem destroyLoop_chain {rows : List (Ptr × Cache)} {fuel : Nat} {mem : Memory} {start : Ptr}
    (enough : rows.length < fuel)
    (chain : Chain (recordAt mem) Cache.next start (rows.map Prod.fst))
    (cells : ∀ row ∈ rows, recordAt mem row.1 = some row.2)
    (spared : ∀ row ∈ rows, ∀ other ∈ rows, row.2.response ≠ other.1) :
    destroyLoop fuel mem start = some (mem.freeAll (freedRows rows)) := by
  induction rows generalizing fuel mem start with
  | nil =>
    obtain ⟨fuel, rfl⟩ := Nat.exists_eq_succ_of_ne_zero (Nat.ne_of_gt enough)
    have ends : start = null := chain
    simp [destroyLoop, ends, freedRows, Heap.freeAll]
  | cons row rest ih =>
    obtain ⟨fuel, rfl⟩ := Nat.exists_eq_succ_of_ne_zero (Nat.ne_of_gt (Nat.zero_lt_of_lt enough))
    have outside : row.1 ∉ rest.map Prod.fst := (List.nodup_cons.mp chain.nodup).1
    have here := cells row List.mem_cons_self
    have own := spared row List.mem_cons_self row List.mem_cons_self
    obtain ⟨rfl, nonnull, cell, found, later⟩ := chain
    obtain rfl : row.2 = cell := Option.some.inj (here.symm.trans found)
    have kept : ∀ other ∈ rest,
        recordAt ((mem.free row.2.response).free row.1) other.1 = recordAt mem other.1 := by
      intro other member
      have apart : other.1 ≠ row.1 := by
        intro same
        exact outside (same ▸ List.mem_map_of_mem member)
      have apart' : other.1 ≠ row.2.response :=
        Ne.symm (spared row List.mem_cons_self other (List.mem_cons_of_mem row member))
      simp [recordAt, apart, apart']
    have still : recordAt (mem.free row.2.response) row.1 = some row.2 := by
      simpa [recordAt, Ne.symm own] using here
    have onward : Chain (recordAt ((mem.free row.2.response).free row.1)) Cache.next row.2.next
        (rest.map Prod.fst) := by
      apply later.congr
      intro p member
      obtain ⟨other, within, rfl⟩ := List.mem_map.mp member
      rw [kept other within]
    have shorter : rest.length < fuel := by simpa using enough
    have tail := ih shorter onward
      (fun other member =>
        (kept other member).trans (cells other (List.mem_cons_of_mem row member)))
      (fun first member second member' =>
        spared first (List.mem_cons_of_mem row member) second (List.mem_cons_of_mem row member'))
    simp only [destroyLoop, nonnull, if_false, deleteCacheRecord, here, Option.bind_eq_bind,
      Option.bind_some, still, tail]
    rfl

namespace Store

variable {origin : Origin} {store after : Store}

/-- Every allocation since the head is the head, or the record or the buffer of a fetch, and
nothing lives at the null pointer. -/
structure Covered (origin : Origin) (store : Store) : Prop where
  /-- Every allocation since is the head or belongs to a fetch. -/
  fetched : ∀ k, origin.number ≤ k → k < store.mem.made →
    k = origin.number ∨ ∃ fetch, store.Has fetch ∧ (k = fetch.number ∨ k = fetch.number + 1)
  /-- Nothing lives at the null pointer. -/
  nothing : store.mem.get null = none

/-- Nothing has been fetched after `init_cache`. -/
theorem covered_start {mem : Memory} {cache : Ptr} (unused : mem.Unused cache)
    (nothing : mem.get null = none) (garbage : Cache) :
    Covered ⟨garbage, mem.made, mem.frees⟩ (start mem cache garbage) where
  fetched k above below := by
    left
    have low : mem.made ≤ k := above
    have high : k < mem.made + 1 := below
    change k = mem.made
    omega
  nothing := by
    have apart : null ≠ cache := Ne.symm unused.1
    simp [start, initCache, apart, nothing]

/-- A fetch that goes on under the same number keeps the account. -/
theorem Covered.of_has (covered : Covered origin store) (made : after.mem.made = store.mem.made)
    (nothing : after.mem.get null = none)
    (has : ∀ fetch, store.Has fetch → ∃ later, after.Has later ∧ later.number = fetch.number) :
    Covered origin after where
  fetched k above below := by
    rcases covered.fetched k above (by omega) with head | ⟨fetch, known, number⟩
    · exact .inl head
    · obtain ⟨later, still, same⟩ := has fetch known
      exact .inr ⟨later, still, by rwa [same]⟩
  nothing := nothing

/-- A new fetch is of the two allocations it makes. -/
theorem Covered.beginFetch (covered : Covered origin store) {handler : Nat} {req : CString}
    {record response : Ptr} {garbage : Cache} (idle : store.pending handler = none)
    (freshRecord : store.mem.Unused record) (freshResponse : store.mem.Unused response)
    (apart : record ≠ response)
    (step : store.beginFetch handler req record response garbage = some after) :
    Covered origin after := by
  obtain ⟨-, -, -, -, others⟩ := begun_mem store.mem req garbage apart
  obtain rfl := Option.some.inj ((beginFetch_eq store handler req garbage apart).symm.trans step)
  constructor
  · intro k above below
    have bound : k < store.mem.made + 2 := below
    by_cases old : k < store.mem.made
    · rcases covered.fetched k above old with head | ⟨fetch, known, number⟩
      · exact .inl head
      · refine .inr ⟨fetch, ?_, number⟩
        rcases known with pushed | ⟨other, pending⟩
        · exact .inl pushed
        · have different : other ≠ handler := by
            rintro rfl
            rw [idle] at pending
            cases pending
          exact .inr ⟨other, by simpa [different] using pending⟩
    · refine .inr ⟨⟨req, record, response, store.mem.made, [], 0⟩, .inr ⟨handler, by simp⟩, ?_⟩
      simp only
      omega
  · rw [(others null (Ne.symm freshRecord.1) (Ne.symm freshResponse.1)).1]
    exact covered.nothing

/-- A fetch that goes from its handler to the list, or is given up, was known before. -/
theorem has_of_moved {handler : Nat} {fetch filled : Fetch} {pending : Nat → Option Fetch}
    {pushed : List Fetch} {mem : Memory} (known : store.pending handler = some fetch)
    (number : filled.number = fetch.number) (grows : ∀ old ∈ store.pushed, old ∈ pushed)
    (others : ∀ other, other ≠ handler → pending other = store.pending other)
    (here : filled ∈ pushed ∨ pending handler = some filled) :
    ∀ old, store.Has old → ∃ later,
      Store.Has ⟨mem, store.cache, pending, pushed⟩ later ∧ later.number = old.number := by
  rintro old (member | ⟨other, held⟩)
  · exact ⟨old, .inl (grows old member), rfl⟩
  · by_cases same : other = handler
    · subst same
      obtain rfl := Option.some.inj (known.symm.trans held)
      rcases here with member | still
      · exact ⟨filled, .inl member, number⟩
      · exact ⟨filled, .inr ⟨other, still⟩, number⟩
    · exact ⟨old, .inr ⟨other, (others other same).trans held⟩, rfl⟩

/-- Every call keeps the account. -/
theorem Covered.next (covered : Covered origin store) (inv : Inv origin store) {op : Op}
    (step : store.next op = some after) : Covered origin after := by
  cases op with
  | find req =>
    simp only [Store.next] at step
    split at step
    · cases step
    · obtain rfl := Option.some.inj step
      exact covered
  | fetch handler req record response garbage =>
    simp only [Store.next] at step
    split at step
    · rename_i fresh
      exact covered.beginFetch fresh.1 fresh.2.1 fresh.2.2.1 fresh.2.2.2 step
    · cases step
  | add handler chunk =>
    simp only [Store.next, Option.bind_eq_bind, Option.bind_eq_some_iff] at step
    obtain ⟨fetch, pending, stored⟩ := step
    split at stored
    · obtain ⟨cell, owns, -⟩ := inv.filling handler fetch pending
      obtain ⟨buffer, bytes, -⟩ := owns.bytes
      obtain rfl := Option.some.inj
        ((addChunk_eq handler chunk owns.record owns.response bytes).symm.trans stored)
      have number : (fetch.addChunk chunk).number = fetch.number := rfl
      refine covered.of_has rfl ?_ (has_of_moved pending number (fun _ => id) ?_ (.inr ?_))
      · simp [covered.nothing]
      · intro other different
        simp [different]
      · exact if_pos rfl
    · cases stored
  | push handler =>
    simp only [Store.next, Option.bind_eq_bind, Option.bind_eq_some_iff] at step
    obtain ⟨fetch, pending, pushing⟩ := step
    obtain ⟨cell, owned, -⟩ := inv.filling handler fetch pending
    obtain ⟨sized, sizing, owns, made, -, agree, cases⟩ := inv.push_cases pending owned
    have nothing : sized.get null = none := by
      rw [(agree null (Ne.symm owned.nonnull)).1]
      exact covered.nothing
    have moved : ∀ mem, ∀ old, store.Has old → ∃ later,
        (store.afterPush handler fetch mem).Has later ∧ later.number = old.number := by
      intro mem
      refine has_of_moved pending rfl ?_ ?_ (.inl (by simp))
      · intro old member
        exact List.mem_append_left _ member
      · intro other different
        simp [different]
    rcases cases with ⟨-, result⟩ | ⟨-, front, last, lastCell, -, -, result⟩
    · have done : dropRecord sized fetch.record =
          some ((sized.free fetch.response).free fetch.record) := by
        simp [dropRecord, deleteCacheRecord, owns.record, owned.response]
      have after' : store.finishFetch handler fetch = some (store.afterPush handler fetch
          ((sized.free fetch.response).free fetch.record)) := by
        simp [Store.finishFetch, sizing, result, done, afterPush]
      obtain rfl := Option.some.inj (after'.symm.trans pushing)
      refine covered.of_has made ?_ (moved _)
      simp [afterPush, nothing]
    · have after' : store.finishFetch handler fetch = some (store.afterPush handler fetch
          (sized.set last (.record { lastCell with next := fetch.record }))) := by
        simp [Store.finishFetch, sizing, result, afterPush]
      obtain rfl := Option.some.inj (after'.symm.trans pushing)
      refine covered.of_has made ?_ (moved _)
      simp [afterPush, nothing]

/-- The account holds along every run. -/
theorem covered_run {mem : Memory} {cache : Ptr} {garbage : Cache} {trace : List Op}
    (unused : mem.Unused cache) (nothing : mem.get null = none)
    (run : exec Store.next (start mem cache garbage) trace = some store) :
    Covered ⟨garbage, mem.made, mem.frees⟩ store := by
  refine exec_induct (motive := fun _ store => Covered ⟨garbage, mem.made, mem.frees⟩ store)
    (covered_start unused nothing garbage) ?_ run
  intro earlier middle op finish before held step
  exact held.next (inv_run unused before) step

/-- The elements of the list with their contents. -/
def rows (store : Store) (head : Cache) : List (Ptr × Cache) :=
  (store.cache, head) :: store.linked.map (rowOf store.mem)

/-- The pointers that are freed: the head with its pointer, and every linked record with its
buffer. -/
theorem Inv.mem_freedRows (inv : Inv origin store) {head : Cache} {p : Ptr} :
    p ∈ freedRows (store.rows head) ↔ p = head.response ∨ p = store.cache ∨
      ∃ fetch ∈ store.linked, p = fetch.record ∨ p = fetch.response := by
  have cells : ∀ fetch ∈ store.linked, (rowOf store.mem fetch).1 = fetch.record ∧
      (rowOf store.mem fetch).2.response = fetch.response := by
    intro fetch member
    obtain ⟨cell, owns, -⟩ := inv.kept fetch member
    rw [rowOf_eq owns.record]
    exact ⟨rfl, owns.response⟩
  simp only [freedRows, rows, List.flatMap_cons, List.mem_append, List.mem_cons, List.not_mem_nil,
    or_false, List.mem_flatMap, List.mem_map]
  constructor
  · rintro ((leftover | head) | ⟨row, ⟨fetch, member, rfl⟩, here⟩)
    · exact .inl leftover
    · exact .inr (.inl head)
    · rw [(cells fetch member).1, (cells fetch member).2] at here
      exact .inr (.inr ⟨fetch, member, here.symm⟩)
  · rintro (leftover | head | ⟨fetch, member, here⟩)
    · exact .inl (.inl leftover)
    · exact .inl (.inr head)
    · refine .inr ⟨_, ⟨fetch, member, rfl⟩, ?_⟩
      rw [(cells fetch member).1, (cells fetch member).2]
      exact here.symm

/-- With a null pointer in the head, `destroy_cache` frees the elements of the list. -/
theorem Inv.destroyCache_eq (inv : Inv origin store) (unset : origin.garbage.response = null) :
    ∃ head : Cache, head.response = null ∧ destroyCache store.mem store.cache =
      some (store.mem.freeAll (freedRows (store.rows head))) := by
  obtain ⟨link, headCell⟩ := inv.head
  refine ⟨{ origin.garbage with next := link }, unset, ?_⟩
  have names : (store.rows { origin.garbage with next := link }).map Prod.fst =
      store.cache :: store.linked.map Fetch.record := by
    simp [rows, rowOf, Function.comp_def]
  have short := inv.chain.length_le fun q value here => lt_bound_of_recordAt here
  have nonnull : ∀ p ∈ store.cache :: store.linked.map Fetch.record, p ≠ null :=
    fun p member => (inv.chain.live member).1
  apply destroyLoop_chain
  · simp only [List.length_cons, List.length_map, rows] at short ⊢
    omega
  · rw [names]
    exact inv.chain
  · intro row member
    rcases List.mem_cons.mp member with rfl | later
    · exact headCell
    · obtain ⟨fetch, isLinked, rfl⟩ := List.mem_map.mp later
      obtain ⟨cell, owns, -⟩ := inv.kept fetch isLinked
      rw [rowOf_eq owns.record]
      exact owns.record
  · intro row member other member'
    have there : other.1 ≠ null := by
      apply nonnull
      rw [← names]
      exact List.mem_map_of_mem member'
    rcases List.mem_cons.mp member with rfl | later
    · intro same
      exact there (same.symm.trans unset)
    · obtain ⟨fetch, isLinked, rfl⟩ := List.mem_map.mp later
      obtain ⟨cell, owns, -⟩ := inv.kept fetch isLinked
      obtain ⟨buffer, bytes, -⟩ := owns.bytes
      rw [rowOf_eq owns.record]
      simp only [owns.response]
      rcases List.mem_cons.mp member' with rfl | later'
      · exact Ne.symm (inv.head_ne owns (.inl (mem_pushed_of_mem_linked isLinked))).2
      · obtain ⟨fetch', isLinked', rfl⟩ := List.mem_map.mp later'
        obtain ⟨cell', owns', -⟩ := inv.kept fetch' isLinked'
        rw [rowOf_eq owns'.record]
        exact Ne.symm (record_ne_bytes owns'.record bytes)

/-- Whatever lives under the numbers of a fetch is its record or its buffer. -/
theorem at_number {mem : Memory} {fetch : Fetch} {cell : Cache} (owns : Owns mem fetch cell)
    {p : Ptr} {k : Nat} (alive : mem.number p = some k)
    (number : k = fetch.number ∨ k = fetch.number + 1) :
    p = fetch.record ∨ p = fetch.response := by
  rcases number with rfl | rfl
  · exact .inl (Heap.number_injective alive owns.recordNumber)
  · exact .inr (Heap.number_injective alive owns.bytesNumber)

/-- The record of a fetch is linked, was given up as a duplicate, or is still being filled. -/
theorem Inv.has_cases (inv : Inv origin store) {fetch : Fetch} (has : store.Has fetch) :
    fetch ∈ store.linked ∨
      (fetch.number ∈ store.mem.freed ∧ fetch.number + 1 ∈ store.mem.freed) ∨
      ∃ handler, store.pending handler = some fetch := by
  rcases has with pushed | pending
  · by_cases kept : fetch ∈ store.linked
    · exact .inl kept
    · exact .inr (.inl (inv.dropped fetch pushed kept))
  · exact .inr (.inr pending)

/-- Every pointer is freed once: the null pointer of the head, the head, and each linked record
with its buffer. -/
theorem Inv.freedRows_nodup (inv : Inv origin store) (nothing : store.mem.get null = none)
    {head : Cache} (unset : head.response = null) : (freedRows (store.rows head)).Nodup := by
  have live : ∀ fetch ∈ store.linked, fetch.record ≠ null ∧ fetch.response ≠ null ∧
      fetch.record ≠ fetch.response := by
    intro fetch member
    obtain ⟨cell, owns, -⟩ := inv.kept fetch member
    obtain ⟨buffer, bytes, -⟩ := owns.bytes
    refine ⟨owns.nonnull, ?_, record_ne_bytes owns.record bytes⟩
    intro isNull
    have here := get_of_bytesAt bytes
    rw [isNull, nothing] at here
    cases here
  have pairs : freedRows (store.rows head) =
      null :: store.cache :: store.linked.flatMap fun fetch => [fetch.response, fetch.record] := by
    have each : ∀ fetch ∈ store.linked, [(rowOf store.mem fetch).2.response,
        (rowOf store.mem fetch).1] = [fetch.response, fetch.record] := by
      intro fetch member
      obtain ⟨cell, owns, -⟩ := inv.kept fetch member
      rw [rowOf_eq owns.record]
      simp [owns.response]
    simp only [freedRows, rows, List.flatMap_cons, unset, List.flatMap_map, List.cons_append,
      List.nil_append]
    rw [List.flatMap_congr each]
  have headLive := inv.chain.live List.mem_cons_self
  rw [pairs]
  simp only [List.nodup_cons, List.mem_cons, List.mem_flatMap, List.not_mem_nil, or_false, not_or,
    not_exists, not_and]
  refine ⟨⟨Ne.symm headLive.1, ?_⟩, ?_, List.nodup_flatMap.mpr ⟨?_, ?_⟩⟩
  · intro fetch member
    obtain ⟨record, response, -⟩ := live fetch member
    exact ⟨Ne.symm response, Ne.symm record⟩
  · intro fetch member
    obtain ⟨cell, owns, -⟩ := inv.kept fetch member
    obtain ⟨record, response⟩ := inv.head_ne owns (.inl (mem_pushed_of_mem_linked member))
    exact ⟨response, record⟩
  · intro fetch member
    simpa using Ne.symm (live fetch member).2.2
  · have records := (List.nodup_cons.mp inv.chain.nodup).2
    apply List.Pairwise.imp_of_mem ?_ (List.pairwise_map.mp records)
    intro first second member member' different
    obtain ⟨cell, owns, -⟩ := inv.kept first member
    obtain ⟨cell', owns', -⟩ := inv.kept second member'
    have numbers : first.number ≠ second.number := by
      intro same
      apply different
      exact Heap.number_injective owns.recordNumber (same ▸ owns'.recordNumber)
    obtain ⟨-, buffers, mixed, mixed'⟩ := owns.apart owns' numbers
    simp [Function.onFun, Ne.symm buffers, Ne.symm mixed, Ne.symm mixed', Ne.symm different]

/-- With a null pointer in the head, nothing of a record being filled is freed. -/
theorem Inv.filling_spared (inv : Inv origin store) (nothing : store.mem.get null = none)
    {head : Cache} (unset : head.response = null) {handler : Nat} {fetch : Fetch}
    (pending : store.pending handler = some fetch) :
    fetch.record ∉ freedRows (store.rows head) ∧ fetch.response ∉ freedRows (store.rows head) := by
  obtain ⟨cell, owns, -⟩ := inv.filling handler fetch pending
  obtain ⟨buffer, bytes, -⟩ := owns.bytes
  obtain ⟨notRecord, notResponse⟩ := inv.head_ne owns (.inr ⟨handler, pending⟩)
  have live : fetch.response ≠ null := by
    intro isNull
    have here := get_of_bytesAt bytes
    rw [isNull, nothing] at here
    cases here
  have apart : ∀ other ∈ store.linked,
      fetch.record ≠ other.record ∧ fetch.record ≠ other.response ∧
        fetch.response ≠ other.record ∧ fetch.response ≠ other.response := by
    intro other member
    obtain ⟨cell', owns', -⟩ := inv.kept other member
    have different := inv.linked_ne_pending pending member
    obtain ⟨records, buffers, mixed, mixed'⟩ := owns.apart owns' (Ne.symm different)
    exact ⟨records, mixed, mixed', buffers⟩
  rw [inv.mem_freedRows, inv.mem_freedRows, unset]
  constructor
  · rintro (isNull | isHead | ⟨other, member, same | same⟩)
    · exact owns.nonnull isNull
    · exact notRecord isHead.symm
    · exact (apart other member).1 same
    · exact (apart other member).2.1 same
  · rintro (isNull | isHead | ⟨other, member, same | same⟩)
    · exact live isNull
    · exact notResponse isHead.symm
    · exact (apart other member).2.2.1 same
    · exact (apart other member).2.2.2 same

/-- Every number of the run that no handler is filling is freed in the end. -/
theorem Inv.freed_of_covered (inv : Inv origin store) (covered : Covered origin store)
    (head : Cache) {k : Nat} (since : origin.number ≤ k) (below : k < store.mem.made)
    (others : ∀ handler fetch, store.pending handler = some fetch →
      k ≠ fetch.number ∧ k ≠ fetch.number + 1) :
    k ∈ (store.mem.freeAll (freedRows (store.rows head))).freed := by
  rw [Heap.mem_freed_freeAll]
  rcases covered.fetched k since below with rfl | ⟨fetch, has, number⟩
  · exact .inr ⟨store.cache, inv.mem_freedRows.mpr (.inr (.inl rfl)), inv.headNumber⟩
  · rcases inv.has_cases has with kept | dead | ⟨handler, pending⟩
    · obtain ⟨cell, owns, -⟩ := inv.kept fetch kept
      rcases number with rfl | rfl
      · exact .inr ⟨fetch.record, inv.mem_freedRows.mpr (.inr (.inr ⟨fetch, kept, .inl rfl⟩)),
          owns.recordNumber⟩
      · exact .inr ⟨fetch.response, inv.mem_freedRows.mpr (.inr (.inr ⟨fetch, kept, .inr rfl⟩)),
          owns.bytesNumber⟩
    · rcases number with rfl | rfl
      · exact .inl dead.1
      · exact .inl dead.2
    · obtain ⟨notRecord, notResponse⟩ := others handler fetch pending
      rcases number with here | here
      · exact absurd here notRecord
      · exact absurd here notResponse

/-- What `destroy_cache` left of the memory that the handlers used since `init_cache`. -/
structure TornDown (mem : Memory) (store : Store) (left : Memory) : Prop where
  /-- Every call of `free` ended a live block, or did nothing as its pointer was null. -/
  frees : ∃ since, left.frees = mem.frees ++ since ∧
    ∀ entry ∈ since, entry.1 = null ∨ entry.2 ≠ none
  /-- Only the records and buffers survive that a handler fetched and did not push. -/
  survivors : ∀ p k, left.number p = some k → mem.made ≤ k →
    ∃ handler fetch, store.pending handler = some fetch ∧
      (p = fetch.record ∨ p = fetch.response)
  /-- Those do survive. -/
  spared : ∀ handler fetch, store.pending handler = some fetch →
    left.get fetch.record ≠ none ∧ left.get fetch.response ≠ none
  /-- Every other allocation was freed once. -/
  once : ∀ k, mem.made ≤ k → k < left.made →
    (∀ handler fetch, store.pending handler = some fetch →
      k ≠ fetch.number ∧ k ≠ fetch.number + 1) → left.freed.count k = 1

/-- The calls of `free` that end the list end live blocks. -/
theorem Inv.frees_live (inv : Inv origin store) (nothing : store.mem.get null = none)
    {head : Cache} (unset : head.response = null) :
    ∃ since, (store.mem.freeAll (freedRows (store.rows head))).frees = origin.before ++ since ∧
      ∀ entry ∈ since, entry.1 = null ∨ entry.2 ≠ none := by
  obtain ⟨before, earlier, ended⟩ := inv.frees
  rw [Heap.frees_freeAll (inv.freedRows_nodup nothing unset), earlier, List.append_assoc]
  refine ⟨_, rfl, ?_⟩
  intro entry member
  rcases List.mem_append.mp member with old | fresh
  · exact .inr (ended entry old)
  · obtain ⟨p, isFreed, rfl⟩ := List.mem_map.mp fresh
    rcases inv.mem_freedRows.mp isFreed with leftover | rfl | ⟨fetch, kept, rfl | rfl⟩
    · exact .inl (leftover.trans unset)
    · simp [inv.headNumber]
    · obtain ⟨cell, owns, -⟩ := inv.kept fetch kept
      simp [owns.recordNumber]
    · obtain ⟨cell, owns, -⟩ := inv.kept fetch kept
      simp [owns.bytesNumber]

end Store

open Store

/-- After every run of the handlers, with a null pointer left in the head, `destroy_cache` follows
and frees no bad pointer; what survives since `init_cache` are exactly the records and buffers that
were fetched and never pushed, and everything else was freed exactly once. -/
theorem destroy_cache_frees {mem : Memory} {cache : Ptr} {garbage : Cache} {trace : List Op}
    {store : Store} (unused : mem.Unused cache) (nothing : mem.get null = none)
    (unset : garbage.response = null)
    (run : exec Store.next (start mem cache garbage) trace = some store) :
    ∃ left, destroyCache store.mem store.cache = some left ∧ TornDown mem store left := by
  have inv := inv_run unused run
  have covered := covered_run unused nothing run
  obtain ⟨head, leftover, destroyed⟩ := inv.destroyCache_eq unset
  refine ⟨_, destroyed, ⟨inv.frees_live covered.nothing leftover, ?_, ?_, ?_⟩⟩
  · intro p k alive since
    rw [Heap.number_freeAll] at alive
    split at alive
    · cases alive
    · rename_i spared
      rw [inv.mem_freedRows] at spared
      simp only [not_or, not_exists, not_and] at spared
      rcases covered.fetched k since (Heap.number_lt_made alive) with rfl | ⟨fetch, has, number⟩
      · exact absurd (Heap.number_injective alive inv.headNumber) spared.2.1
      · rcases inv.has_cases has with kept | dead | ⟨handler, pending⟩
        · obtain ⟨cell, owns, -⟩ := inv.kept fetch kept
          obtain ⟨notRecord, notResponse⟩ := spared.2.2 fetch kept
          rcases at_number owns alive number with here | here
          · exact absurd here notRecord
          · exact absurd here notResponse
        · rcases number with rfl | rfl
          · exact absurd alive (Heap.number_ne_of_freed dead.1 p)
          · exact absurd alive (Heap.number_ne_of_freed dead.2 p)
        · obtain ⟨cell, owns, -⟩ := inv.filling handler fetch pending
          exact ⟨handler, fetch, pending, at_number owns alive number⟩
  · intro handler fetch pending
    obtain ⟨cell, owns, -⟩ := inv.filling handler fetch pending
    obtain ⟨buffer, bytes, -⟩ := owns.bytes
    obtain ⟨record, response⟩ := inv.filling_spared covered.nothing leftover pending
    rw [Heap.get_freeAll, Heap.get_freeAll, if_neg record, if_neg response,
      get_of_recordAt owns.record, get_of_bytesAt bytes]
    exact ⟨Option.some_ne_none _, Option.some_ne_none _⟩
  · intro k since below others
    apply Heap.count_freed
    rw [Heap.made_freeAll] at below
    exact inv.freed_of_covered covered head since below others

/-- Two handlers fetch one page; the first pushes its record, the second gives up on an error. -/
def abandonedRun (req : CString) : List Op :=
  [.fetch 0 req 2 3 ⟨0, 0, 0, 0⟩, .fetch 1 req 4 5 ⟨0, 0, 0, 0⟩, .add 0 [104, 105], .push 0]

/-- The head is freed, and the first record with its buffer; the second record stays. -/
theorem destroy_cache_frees_abandoned :
    ∃ store left, exec Store.next (start Heap.empty 1 ⟨7, null, 0, 0⟩)
        (abandonedRun (CString.ofBytes [71])) = some store ∧
      destroyCache store.mem store.cache = some left ∧
      TornDown Heap.empty store left ∧ left.freed = [0, 2, 1] ∧ left.get 4 ≠ none := by
  have done : ((exec Store.next (start Heap.empty 1 ⟨7, null, 0, 0⟩)
      (abandonedRun (CString.ofBytes [71]))).bind fun store =>
        (destroyCache store.mem store.cache).map fun left =>
          (left.freed, (left.get 4).isSome)) = some ([0, 2, 1], true) := by decide +kernel
  obtain ⟨store, run, later⟩ := Option.bind_eq_some_iff.mp done
  obtain ⟨left, destroyed, torn⟩ :=
    destroy_cache_frees (by decide) (by decide) rfl run
  rw [destroyed, Option.map_some, Option.some.injEq, Prod.mk.injEq] at later
  refine ⟨store, left, run, destroyed, torn, later.1, ?_⟩
  exact Option.isSome_iff_ne_none.mp later.2

end NsuOs.Proxy
