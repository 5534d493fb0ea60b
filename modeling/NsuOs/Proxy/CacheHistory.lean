import NsuOs.Proxy.CacheStore

/-!
# What lookups return over a whole run

The consequences of the store invariant for every interleaving of lookups and pushes: the list
behind the head only grows at its end, the first record pushed for a hash stays the one found,
and every later record for it is freed once. A hit is for the same request exactly as far as the
hash tells requests apart, and the bytes replayed are the bytes stored exactly when no byte
after the first zero byte differs from zero.
-/
namespace NsuOs.Proxy

open NsuOs.Run

namespace Store

variable {origin : Origin} {store after : Store}

/-- A lookup leaves the store as it is. -/
theorem next_find {req : CString} (step : store.next (.find req) = some after) : after = store := by
  simp only [Store.next] at step
  split at step
  · cases step
  · exact (Option.some.inj step).symm

/-- Beginning a fetch sets what the handler is filling. -/
theorem next_fetch {handler : Nat} {req : CString} {record response : Ptr} {garbage : Cache}
    (step : store.next (.fetch handler req record response garbage) = some after) :
    after.cache = store.cache ∧ after.pushed = store.pushed ∧
      after.pending = store.setPending handler
        (some ⟨req, record, response, store.mem.made, [], 0⟩) := by
  simp only [Store.next] at step
  split at step
  · simp only [beginFetch, Option.bind_eq_bind, Option.bind_eq_some_iff, Option.some.injEq] at step
    obtain ⟨_, _, _, _, rfl⟩ := step
    exact ⟨rfl, rfl, rfl⟩
  · cases step

/-- Storing a chunk adds it to what the handler is filling. -/
theorem next_add {handler : Nat} {chunk : List UInt8}
    (step : store.next (.add handler chunk) = some after) :
    ∃ fetch, store.pending handler = some fetch ∧ after.cache = store.cache ∧
      after.pushed = store.pushed ∧
      after.pending = store.setPending handler (some (fetch.addChunk chunk)) := by
  simp only [Store.next, Option.bind_eq_bind, Option.bind_eq_some_iff] at step
  obtain ⟨fetch, pending, stored⟩ := step
  split at stored
  · simp only [addChunk, Option.bind_eq_bind, Option.bind_eq_some_iff, Option.some.injEq] at stored
    obtain ⟨_, _, rfl⟩ := stored
    exact ⟨fetch, pending, rfl, rfl, rfl⟩
  · cases stored

/-- Pushing takes what the handler was filling. -/
theorem next_push {handler : Nat} (step : store.next (.push handler) = some after) :
    ∃ fetch, store.pending handler = some fetch ∧ after.cache = store.cache ∧
      after.pushed = store.pushed ++ [fetch] ∧ after.pending = store.setPending handler none := by
  simp only [Store.next, finishFetch, Option.bind_eq_bind, Option.bind_eq_some_iff,
    Option.some.injEq] at step
  obtain ⟨fetch, pending, _, _, _, _, rfl⟩ := step
  exact ⟨fetch, pending, rfl, rfl, rfl⟩

/-- A call adds at most one fetch to those pushed and never moves the head. -/
theorem next_grows {op : Op} (step : store.next op = some after) :
    after.cache = store.cache ∧ store.pushed <+: after.pushed := by
  cases op with
  | find req =>
    obtain rfl := next_find step
    exact ⟨rfl, List.prefix_rfl⟩
  | fetch handler req record response garbage =>
    obtain ⟨head, same, -⟩ := next_fetch step
    rw [same]
    exact ⟨head, List.prefix_rfl⟩
  | add handler chunk =>
    obtain ⟨-, -, head, same, -⟩ := next_add step
    rw [same]
    exact ⟨head, List.prefix_rfl⟩
  | push handler =>
    obtain ⟨fetch, -, head, more, -⟩ := next_push step
    rw [more]
    exact ⟨head, List.prefix_append _ _⟩

/-- A run only appends to the fetches pushed and never moves the head. -/
theorem run_grows {more : List Op} (run : exec Store.next store more = some after) :
    after.cache = store.cache ∧ store.pushed <+: after.pushed := by
  refine exec_induct (motive := fun _ state => state.cache = store.cache ∧
    store.pushed <+: state.pushed) ⟨rfl, List.prefix_rfl⟩ ?_ run
  intro _ middle op finish _ earlier step
  obtain ⟨same, grown⟩ := next_grows step
  exact ⟨same.trans earlier.1, earlier.2.trans grown⟩

/-- A run keeps the invariant. -/
theorem Inv.run (inv : Inv origin store) {more : List Op}
    (run : exec Store.next store more = some after) : Inv origin after :=
  exec_invariant (fun _ _ _ held step => held.next step) inv run

/-- The chain starting at `cache->next`. -/
def IsList (store : Store) (list : List Ptr) : Prop :=
  ∃ head, recordAt store.mem store.cache = some head ∧
    Chain (recordAt store.mem) Cache.next head.next list

/-- The record now at an address is the one this fetch pushed. -/
structure PushedAt (store : Store) (p : Ptr) (fetch : Fetch) : Prop where
  /-- The fetch was pushed. -/
  pushed : fetch ∈ store.pushed
  /-- Its record has this address. -/
  address : fetch.record = p
  /-- The block there is still its allocation. -/
  alive : store.mem.number p = some fetch.number

/-- The chain behind the head is the abstract cache. -/
theorem Inv.isList (inv : Inv origin store) : store.IsList (store.linked.map Fetch.record) := by
  obtain ⟨-, -, head, here, rest⟩ := inv.chain
  exact ⟨head, here, rest⟩

/-- The chain behind the head is unique. -/
theorem IsList.unique {list list' : List Ptr} (first : store.IsList list)
    (second : store.IsList list') : list = list' := by
  obtain ⟨head, here, chain⟩ := first
  obtain ⟨head', here', chain'⟩ := second
  obtain rfl := Option.some.inj (here.symm.trans here')
  exact chain.unique chain'

/-- The linked fetch of a hash is the first one pushed for it, and lives where it was pushed. -/
theorem Inv.pushedAt_first (inv : Inv origin store) {k : UInt64} {fetch : Fetch}
    (first : FirstWins.lookup Fetch.key k store.pushed = some fetch) :
    fetch ∈ store.linked ∧ store.PushedAt fetch.record fetch := by
  rw [← FirstWins.lookup_insertAll] at first
  have isLinked : fetch ∈ store.linked := List.mem_of_find?_eq_some first
  obtain ⟨cell, owns, -⟩ := inv.kept fetch isLinked
  exact ⟨isLinked, mem_pushed_of_mem_linked isLinked, rfl, owns.recordNumber⟩

/-- One record has one pusher. -/
theorem Inv.pushedAt_unique (inv : Inv origin store) {p : Ptr} {fetch fetch' : Fetch}
    (first : store.PushedAt p fetch) (second : store.PushedAt p fetch') : fetch = fetch' := by
  have same := Option.some.inj (first.alive.symm.trans second.alive)
  exact List.inj_on_of_nodup_map inv.numbers.pushedApart first.pushed second.pushed same

/-- A hit behind the head is on the first fetch pushed for the hash, with its length and bytes. -/
theorem Inv.find_hit (inv : Inv origin store) {req : CString} {p : Ptr} {len : Int}
    {copy : Buffer} (hit : store.find req = .hit p len copy) (behind : p ≠ store.cache) :
    origin.garbage.request ≠ hash req ∧ ∃ fetch,
      FirstWins.lookup Fetch.key (hash req) store.pushed = some fetch ∧ p = fetch.record ∧
      len = fetch.allBytesRead ∧ copy = Buffer.strncpy Buffer.zeros
        (Buffer.ofBytes fetch.body) fetch.allBytesRead := by
  rw [inv.find_eq] at hit
  split at hit
  · exfalso
    unfold copyResponse at hit
    split at hit
    · exact behind (Lookup.hit.inj hit).1.symm
    · split at hit
      · cases hit
      · split at hit
        · cases hit
        · exact behind (Lookup.hit.inj hit).1.symm
  · rename_i unmatched
    refine ⟨unmatched, ?_⟩
    split at hit
    · cases hit
    · rename_i fetch first
      obtain ⟨here, length, bytes⟩ := Lookup.hit.inj hit
      exact ⟨fetch, first, here.symm, length.symm, bytes.symm⟩

/-- Once a lookup hits behind the head, every later lookup for that hash returns the same. -/
theorem Inv.find_stable (inv : Inv origin store) {req req' : CString} {p : Ptr} {len : Int}
    {copy : Buffer} {more : List Op} (hit : store.find req = .hit p len copy)
    (behind : p ≠ store.cache) (sameHash : hash req' = hash req)
    (run : exec Store.next store more = some after) : after.find req' = .hit p len copy := by
  obtain ⟨unmatched, fetch, first, rfl, rfl, rfl⟩ := inv.find_hit hit behind
  obtain ⟨added, grown⟩ := (run_grows run).2
  have still : FirstWins.lookup Fetch.key (hash req) after.pushed = some fetch := by
    rw [← grown]
    unfold FirstWins.lookup at first ⊢
    rw [List.find?_append, first, Option.some_or]
  rw [(inv.run run).find_eq, sameHash, if_neg unmatched, still]

/-- The laws of the shared list at one moment of a run. -/
structure SharedList (store : Store) (list : List Ptr) : Prop where
  /-- The chain starting at `cache->next` is finite. -/
  isList : store.IsList list
  /-- It meets no record twice, nor the head. -/
  acyclic : (store.cache :: list).Nodup
  /-- Its records have different request hashes. -/
  requests : (list.map fun p => (recordAt store.mem p).map Cache.request).Nodup
  /-- A record is linked exactly when it is the first one pushed for its hash. -/
  first : ∀ p, p ∈ list ↔ ∃ fetch, store.PushedAt p fetch ∧
    FirstWins.lookup Fetch.key fetch.key store.pushed = some fetch
  /-- Of the records pushed for one hash the first is linked and alive. -/
  one : ∀ k fetch others, store.pushed.filter (fun f => decide (f.key = k)) = fetch :: others →
    store.PushedAt fetch.record fetch ∧ fetch.record ∈ list ∧
      (∀ other ∈ others, other.number ≠ fetch.number)
  /-- Each of the others has been freed, record and buffer, exactly once. -/
  rest : ∀ k fetch others, store.pushed.filter (fun f => decide (f.key = k)) = fetch :: others →
    ∀ other ∈ others, store.mem.freed.count other.number = 1 ∧
      store.mem.freed.count (other.number + 1) = 1
  /-- A push of a filled record always ends normally. -/
  push : ∀ handler fetch, store.pending handler = some fetch →
    (store.next (.push handler)).isSome

/-- The first fetch pushed for a hash heads the fetches pushed for it. -/
theorem lookup_of_filter {k : UInt64} {fetch : Fetch} {pushed others : List Fetch}
    (split : pushed.filter (fun f => decide (f.key = k)) = fetch :: others) :
    FirstWins.lookup Fetch.key k pushed = some fetch ∧ fetch.key = k := by
  have head : pushed.find? (fun f => decide (f.key = k)) = some fetch := by
    rw [← List.head?_filter, split]
    rfl
  exact ⟨head, by simpa using List.find?_some head⟩

/-- The laws of the list hold whenever the invariant does. -/
theorem Inv.sharedList (inv : Inv origin store) :
    store.SharedList (store.linked.map Fetch.record) := by
  have keysOf : (store.linked.map Fetch.record).map
      (fun p => (recordAt store.mem p).map Cache.request) =
        (store.linked.map Fetch.key).map some := by
    rw [List.map_map, List.map_map]
    refine List.map_congr_left fun fetch isLinked => ?_
    obtain ⟨cell, owns, -⟩ := inv.kept fetch isLinked
    simp [owns.record, owns.request]
  have others : ∀ k fetch others, store.pushed.filter (fun f => decide (f.key = k)) =
      fetch :: others → ∀ other ∈ others, other ∈ store.pushed ∧ other.key = k ∧
        other.number ≠ fetch.number := by
    intro k fetch others split other member
    have inFilter : other ∈ store.pushed.filter (fun f => decide (f.key = k)) := by
      rw [split]
      exact List.mem_cons_of_mem _ member
    obtain ⟨isPushed, hasKey⟩ := List.mem_filter.mp inFilter
    have distinct := inv.numbers.pushedApart.sublist
      (List.Sublist.map Fetch.number (List.filter_sublist (p := fun f => decide (f.key = k))))
    rw [split, List.map_cons, List.nodup_cons] at distinct
    refine ⟨isPushed, by simpa using hasKey, fun same => distinct.1 ?_⟩
    rw [← same]
    exact List.mem_map_of_mem member
  exact
    { isList := inv.isList
      acyclic := inv.chain.nodup
      requests := by
        rw [keysOf]
        exact (FirstWins.insertAll_keys_nodup store.pushed).map (Option.some_injective _)
      first := by
        intro p
        constructor
        · intro member
          obtain ⟨fetch, isLinked, rfl⟩ := List.mem_map.mp member
          obtain ⟨cell, owns, -⟩ := inv.kept fetch isLinked
          refine ⟨fetch, ⟨mem_pushed_of_mem_linked isLinked, rfl, owns.recordNumber⟩, ?_⟩
          cases first : FirstWins.lookup Fetch.key fetch.key store.pushed with
          | none =>
            have absent := FirstWins.lookup_eq_none.mp first
            exact absurd (List.mem_map_of_mem (mem_pushed_of_mem_linked isLinked)) absent
          | some winner =>
            rw [← FirstWins.lookup_insertAll] at first
            have winnerLinked : winner ∈ store.linked := List.mem_of_find?_eq_some first
            have sameKey : winner.key = fetch.key := by simpa using List.find?_some first
            rw [List.inj_on_of_nodup_map (FirstWins.insertAll_keys_nodup store.pushed)
              winnerLinked isLinked sameKey]
        · rintro ⟨fetch, here, first⟩
          rw [← here.address]
          exact List.mem_map_of_mem (inv.pushedAt_first first).1
      one := by
        intro k fetch rest split
        obtain ⟨first, -⟩ := lookup_of_filter split
        obtain ⟨isLinked, here⟩ := inv.pushedAt_first first
        exact ⟨here, List.mem_map_of_mem isLinked,
          fun other member => (others k fetch rest split other member).2.2⟩
      rest := by
        intro k fetch rest split other member
        obtain ⟨first, hasKey⟩ := lookup_of_filter split
        obtain ⟨isLinked, -⟩ := inv.pushedAt_first first
        obtain ⟨isPushed, sameKey, different⟩ := others k fetch rest split other member
        have notLinked : other ∉ store.linked := by
          intro alsoLinked
          have same := List.inj_on_of_nodup_map (FirstWins.insertAll_keys_nodup store.pushed)
            alsoLinked isLinked (sameKey.trans hasKey.symm)
          exact different (congrArg Fetch.number same)
        obtain ⟨record, buffer⟩ := inv.dropped other isPushed notLinked
        exact ⟨Heap.count_freed record, Heap.count_freed buffer⟩
      push := by
        intro handler fetch pending
        obtain ⟨mem, result, -⟩ := inv.finishFetch pending
        simp [Store.next, pending, result] }

end Store

open Store

/-- For any interleaving of lookups and pushes: the list obeys its laws, an earlier list is a
prefix of every later one, a hit behind the head fixes what every later lookup for its hash
returns, and every call of `free` ended a live block. -/
theorem cache_list_shared {mem : Memory} {cache : Ptr} {garbage : Cache} {trace : List Op}
    {store : Store} (unused : mem.Unused cache)
    (run : exec Store.next (start mem cache garbage) trace = some store) :
    ∃ list, store.SharedList list ∧
      (∃ since, store.mem.frees = mem.frees ++ since ∧ ∀ entry ∈ since, entry.2 ≠ none) ∧
      ∀ more after, exec Store.next store more = some after →
        (∃ list', after.SharedList list' ∧ list <+: list') ∧
        ∀ req req' p len copy, store.find req = .hit p len copy → p ≠ store.cache →
          hash req' = hash req → after.find req' = .hit p len copy := by
  have inv := inv_run unused run
  refine ⟨store.linked.map Fetch.record, inv.sharedList, inv.frees, ?_⟩
  intro more after later
  refine ⟨⟨after.linked.map Fetch.record, (inv.run later).sharedList, ?_⟩, ?_⟩
  · obtain ⟨added, grown⟩ := (run_grows later).2
    rw [linked, linked, ← grown]
    exact (FirstWins.insertAll_prefix store.pushed added).map _
  · intro req req' p len copy hit behind sameHash
    exact inv.find_stable hit behind sameHash later

/-- Two handlers fetch one request at the same time; the second record is given up. -/
def twoMisses : List Op :=
  let req := CString.ofBytes [71, 69, 84]
  [.find req, .find req, .fetch 0 req 2 3 ⟨0, 0, 0, 0⟩, .fetch 1 req 4 5 ⟨9, 8, 7, 6⟩,
    .add 0 [104, 105], .add 1 [104, 105], .push 1, .push 0, .find req]

/-- The laws on a run with two concurrent misses for one request, which is a hit after it and stays
one. -/
theorem cache_list_shared_twoMisses :
    ∃ store list, exec Store.next (start Heap.empty 1 ⟨7, 0, 0, 0⟩) twoMisses = some store ∧
      store.SharedList list ∧
      ∃ copy, store.find (CString.ofBytes [71, 69, 84]) = .hit 4 2 copy ∧
        ∀ more after, exec Store.next store more = some after →
          after.find (CString.ofBytes [71, 69, 84]) = .hit 4 2 copy := by
  obtain ⟨copy, outcome⟩ : ∃ copy, (exec Store.next (start Heap.empty 1 ⟨7, 0, 0, 0⟩)
      twoMisses).map (fun store => (store.cache, store.find (CString.ofBytes [71, 69, 84]))) =
      some (1, .hit 4 2 copy) := ⟨_, rfl⟩
  obtain ⟨store, run, ends⟩ := Option.map_eq_some_iff.mp outcome
  obtain ⟨head, hit⟩ := Prod.mk.inj ends
  obtain ⟨list, laws, -, stable⟩ := cache_list_shared (by decide) run
  have behind : (4 : Ptr) ≠ store.cache := by
    rw [head]
    decide
  refine ⟨store, list, run, laws, copy, hit, fun more after later => ?_⟩
  exact (stable more after later).2 _ _ 4 2 copy hit behind rfl

namespace Store

variable {origin : Origin} {store : Store}

/-- A hit behind the head is on a record pushed by a handler with the very same request. -/
def SameRequest (store : Store) (req : CString) : Prop :=
  ∀ p len copy, store.find req = .hit p len copy → p ≠ store.cache →
    ∃ fetch, store.PushedAt p fetch ∧ fetch.request = req

/-- No record was pushed for another request with the hash of the one looked up. -/
def NoCollision (store : Store) : Op → Prop
  | .find req => ∀ fetch ∈ store.pushed, fetch.key = hash req → fetch.request = req
  | _ => True

/-- A pushed record is not the head. -/
theorem Inv.pushedAt_ne_head (inv : Inv origin store) {p : Ptr} {fetch : Fetch}
    (here : store.PushedAt p fetch) : p ≠ store.cache := by
  rintro rfl
  have older := (inv.numbers.later fetch (Or.inl here.pushed)).1
  have same := Option.some.inj (inv.headNumber.symm.trans here.alive)
  omega

/-- What a lookup finds when the head does not match and a record was pushed for the hash. -/
theorem Inv.find_first (inv : Inv origin store) {req : CString} {fetch : Fetch}
    (unmatched : origin.garbage.request ≠ hash req)
    (first : FirstWins.lookup Fetch.key (hash req) store.pushed = some fetch) :
    store.find req = .hit fetch.record fetch.allBytesRead (Buffer.strncpy Buffer.zeros
      (Buffer.ofBytes fetch.body) fetch.allBytesRead) := by
  rw [inv.find_eq, if_neg unmatched, first]

/-- A hit behind the head is for the same request exactly when the first record pushed for the
hash of the request was pushed for it. -/
theorem Inv.sameRequest_iff (inv : Inv origin store) (req : CString) :
    store.SameRequest req ↔ origin.garbage.request = hash req ∨
      ∀ fetch, FirstWins.lookup Fetch.key (hash req) store.pushed = some fetch →
        fetch.request = req := by
  constructor
  · intro same
    by_cases matched : origin.garbage.request = hash req
    · exact Or.inl matched
    · right
      intro fetch first
      obtain ⟨-, here⟩ := inv.pushedAt_first first
      obtain ⟨fetch', here', equal⟩ := same _ _ _ (inv.find_first matched first)
        (inv.pushedAt_ne_head here)
      rw [inv.pushedAt_unique here here']
      exact equal
  · intro told p len copy hit behind
    obtain ⟨unmatched, fetch, first, rfl, -, -⟩ := inv.find_hit hit behind
    refine ⟨fetch, (inv.pushedAt_first first).2, ?_⟩
    rcases told with matched | told
    · exact absurd matched unmatched
    · exact told fetch first

end Store

/-- In every reachable state a hit behind the head is for the same request exactly when the first
record pushed for that hash is, or when the uninitialised head hides it; so in a run without
colliding requests every lookup that hits behind the head is served its own response. -/
theorem hit_same_request_iff {mem : Memory} {cache : Ptr} {garbage : Cache} {trace : List Op}
    {store : Store} (unused : mem.Unused cache)
    (run : exec Store.next (start mem cache garbage) trace = some store) :
    (∀ req, store.SameRequest req ↔ garbage.request = hash req ∨
      ∀ fetch, FirstWins.lookup Fetch.key (hash req) store.pushed = some fetch →
        fetch.request = req) ∧
    (Meets Store.next NoCollision (start mem cache garbage) trace →
      ∀ earlier req later before, trace = earlier ++ .find req :: later →
        exec Store.next (start mem cache garbage) earlier = some before →
          before.SameRequest req) := by
  refine ⟨fun req => (inv_run unused run).sameRequest_iff req, ?_⟩
  rintro meets earlier req later before rfl reached
  have told : ∀ fetch ∈ before.pushed, fetch.key = hash req → fetch.request = req :=
    meets_at meets reached
  refine ((inv_run unused reached).sameRequest_iff req).mpr (Or.inr fun fetch first => ?_)
  exact told fetch (List.mem_of_find?_eq_some first) (by simpa using List.find?_some first)

/-- `GET http://h/<path> HTTP/1.0` with a `Host: h` line. -/
def requestFor (path : List UInt8) : CString :=
  CString.ofBytes ([71, 69, 84, 32, 104, 116, 116, 112, 58, 47, 47, 104, 47] ++ path ++
    [32, 72, 84, 84, 80, 47, 49, 46, 48, 13, 10, 72, 111, 115, 116, 58, 32, 104, 13, 10, 13, 10])

/-- One handler stores a response to a request for a path. -/
def storedFor (path chunk : List UInt8) : List Op :=
  [.find (requestFor path), .fetch 0 (requestFor path) 2 3 ⟨0, 0, 0, 0⟩, .add 0 chunk, .push 0]

/-- That run ends with one record, which holds the chunk. -/
theorem exec_storedFor (path chunk : List UInt8)
    (done : (exec Store.next (start Heap.empty 1 ⟨7, 0, 0, 0⟩) (storedFor path chunk)).map
      (fun s => s.pushed.map fun f => (f.request, f.chunks)) =
        some [(requestFor path, [chunk])]) :
    ∃ store fetch, exec Store.next (start Heap.empty 1 ⟨7, 0, 0, 0⟩) (storedFor path chunk) =
      some store ∧ store.pushed = [fetch] ∧ fetch.request = requestFor path ∧
        fetch.chunks = [chunk] := by
  obtain ⟨store, run, facts⟩ := Option.map_eq_some_iff.mp done
  obtain ⟨fetch, rest, whole⟩ := List.exists_cons_of_ne_nil
    (fun empty => by simp [empty] at facts : store.pushed ≠ [])
  rw [whole] at facts
  simp only [List.map_cons, List.cons.injEq, Prod.mk.injEq, List.map_eq_nil_iff] at facts
  exact ⟨store, fetch, run, by rw [whole, facts.2], facts.1.1, facts.1.2⟩

/-- A run with one request only has no collision, so its second lookup is its own. -/
theorem hit_same_request_again :
    ∃ store, exec Store.next (start Heap.empty 1 ⟨7, 0, 0, 0⟩) (storedFor [65, 98] [104, 105]) =
      some store ∧ store.SameRequest (requestFor [65, 98]) := by
  obtain ⟨store, fetch, run, whole, request, -⟩ := exec_storedFor [65, 98] [104, 105]
    (by decide +kernel)
  refine ⟨store, run, ((hit_same_request_iff (by decide) run).1 _).mpr (Or.inr ?_)⟩
  intro first found
  have member := List.mem_of_find?_eq_some found
  rw [whole, List.mem_singleton] at member
  rw [member, request]

/-- The paths `Ab` and `BA` have one hash: the client asking for the second is served the stored
response of the first. -/
theorem hit_other_request :
    ∃ store, exec Store.next (start Heap.empty 1 ⟨7, 0, 0, 0⟩) (storedFor [65, 98] [104, 105]) =
      some store ∧ ¬ store.SameRequest (requestFor [66, 65]) := by
  obtain ⟨store, fetch, run, whole, request, -⟩ := exec_storedFor [65, 98] [104, 105]
    (by decide +kernel)
  refine ⟨store, run, fun same => ?_⟩
  have collide : hash (requestFor [65, 98]) = hash (requestFor [66, 65]) := by decide +kernel
  have first : FirstWins.lookup Fetch.key (hash (requestFor [66, 65])) store.pushed =
      some fetch := by
    rw [whole]
    simp [FirstWins.lookup, Fetch.key, request, collide]
  have inv := inv_run (show Heap.Unused Heap.empty 1 by decide) run
  rcases (inv.sameRequest_iff _).mp same with matched | told
  · exact absurd matched (by decide +kernel)
  · have equal := request.symm.trans (told fetch first)
    exact absurd equal (by decide +kernel)

/-- The bytes `send_from_cache` passes to `write` after a lookup. -/
def Lookup.written : Lookup → Option (List UInt8)
  | .hit _ len copy => if len = notFoundCache then none else some (Buffer.read copy len.toNat)
  | _ => none

/-- A hit on the first record pushed for a hash writes its bytes as `strncpy` copies them. -/
theorem Store.Inv.written_first {origin : Origin} {store : Store} (inv : Inv origin store)
    {req : CString} {fetch : Fetch} (unmatched : origin.garbage.request ≠ hash req)
    (first : FirstWins.lookup Fetch.key (hash req) store.pushed = some fetch) :
    fetch.allBytesRead = fetch.chunks.flatten.length ∧
      (store.find req).written = some (cutAtNul fetch.chunks.flatten) := by
  obtain ⟨cell, owns, -⟩ := inv.kept fetch (inv.pushedAt_first first).1
  have nonnegative : (fetch.allBytesRead : Int) ≠ notFoundCache := by
    simp only [notFoundCache]
    omega
  refine ⟨owns.size, ?_⟩
  rw [inv.find_first unmatched first, Lookup.written, if_neg nonnegative, Int.toNat_natCast,
    Buffer.read_strncpy, owns.size, Buffer.read_ofBytes]
  rfl

/-- In every run, a lookup that hits the record of a fetch writes exactly the bytes the fetch
stored if and only if no byte after the first zero byte of them differs from zero. -/
theorem replay_exact_iff {mem : Memory} {cache : Ptr} {garbage : Cache} {trace : List Op}
    {store : Store} {req : CString} {p : Ptr} {len : Int} {copy : Buffer} {fetch : Fetch}
    (unused : mem.Unused cache)
    (run : exec Store.next (start mem cache garbage) trace = some store)
    (hit : store.find req = .hit p len copy) (pushed : store.PushedAt p fetch) :
    len = fetch.chunks.flatten.length ∧
      ((store.find req).written = some fetch.chunks.flatten ↔ NulPadded fetch.chunks.flatten) := by
  have inv := inv_run unused run
  obtain ⟨unmatched, first, found, rfl, rfl, rfl⟩ := inv.find_hit hit (inv.pushedAt_ne_head pushed)
  obtain ⟨-, here⟩ := inv.pushedAt_first found
  obtain rfl := inv.pushedAt_unique here pushed
  obtain ⟨size, written⟩ := inv.written_first unmatched found
  refine ⟨congrArg Int.ofNat size, ?_⟩
  rw [written, Option.some.injEq]
  exact cutAtNul_eq_self _

/-- A lookup for the only request pushed hits its record. -/
theorem Store.Inv.find_only {origin : Origin} {store : Store} (inv : Inv origin store)
    {fetch : Fetch} (whole : store.pushed = [fetch])
    (unmatched : origin.garbage.request ≠ hash fetch.request) :
    ∃ copy, store.find fetch.request = .hit fetch.record fetch.allBytesRead copy ∧
      store.PushedAt fetch.record fetch := by
  have first : FirstWins.lookup Fetch.key (hash fetch.request) store.pushed = some fetch := by
    rw [whole]
    simp [FirstWins.lookup, Fetch.key]
  exact ⟨_, inv.find_first unmatched first, (inv.pushedAt_first first).2⟩

/-- A text response comes back as it was stored. -/
theorem replay_text :
    ∃ store, exec Store.next (start Heap.empty 1 ⟨7, 0, 0, 0⟩) (storedFor [65] [104, 105]) =
      some store ∧ (store.find (requestFor [65])).written = some [104, 105] := by
  obtain ⟨store, fetch, run, whole, request, chunks⟩ := exec_storedFor [65] [104, 105]
    (by decide +kernel)
  have inv := inv_run (show Heap.Unused Heap.empty 1 by decide) run
  obtain ⟨copy, hit, here⟩ := inv.find_only whole (by rw [request]; decide +kernel)
  have exact := (replay_exact_iff (by decide) run hit here).2
  rw [chunks, request] at exact
  exact ⟨store, run, exact.mpr (by decide +kernel)⟩

/-- A response with a zero byte inside loses every byte behind it on replay. -/
theorem replay_loses_bytes :
    ∃ store fetch copy, exec Store.next (start Heap.empty 1 ⟨7, 0, 0, 0⟩)
        (storedFor [65] [104, 0, 105]) = some store ∧
      store.find (requestFor [65]) = .hit fetch.record 3 copy ∧
      store.PushedAt fetch.record fetch ∧ fetch.chunks.flatten = [104, 0, 105] ∧
      (store.find (requestFor [65])).written = some [104, 0, 0] := by
  obtain ⟨store, fetch, run, whole, request, chunks⟩ := exec_storedFor [65] [104, 0, 105]
    (by decide +kernel)
  have inv := inv_run (show Heap.Unused Heap.empty 1 by decide) run
  obtain ⟨copy, hit, here⟩ := inv.find_only whole (by rw [request]; decide +kernel)
  obtain ⟨cell, owns, -⟩ := inv.kept fetch (by
    rw [linked, whole]
    simp [FirstWins.insertAll, FirstWins.insert])
  have body : fetch.chunks.flatten = [104, 0, 105] := by simp [chunks]
  have size : fetch.allBytesRead = 3 := by rw [owns.size, Fetch.body, body]; rfl
  have sent : (exec Store.next (start Heap.empty 1 ⟨7, 0, 0, 0⟩)
      (storedFor [65] [104, 0, 105])).map (fun s => (s.find (requestFor [65])).written) =
        some (some [104, 0, 0]) := by decide +kernel
  rw [run, Option.map_some, Option.some.injEq] at sent
  rw [request, size] at hit
  exact ⟨store, fetch, copy, run, hit, here, body, sent⟩

end NsuOs.Proxy
