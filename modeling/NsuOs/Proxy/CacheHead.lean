import NsuOs.Proxy.CacheHistory

/-!
# The head of the cache list

`init_cache` sets only the link of the head. `push_record` skips the head, but `find_in_cache`
compares its uninitialised request field and `destroy_cache` frees its uninitialised response
pointer. Two runs that start from heads with different leftovers are compared call by call:
they stay twins, memories that differ in those leftovers only, as long as no lookup meets the
hash in either head, and until the head is destroyed.
-/
namespace NsuOs.Proxy

open NsuOs.Run

/-- Two memories that differ at most in the fields `init_cache` leaves uninitialised. -/
def Twin (cache : Ptr) (left right : Cache) (first second : Memory) : Prop :=
  ∃ link, recordAt first cache = some { left with next := link } ∧
    second = first.set cache (.record { right with next := link })

namespace Twin

variable {cache p : Ptr} {left right : Cache} {first second : Memory}

/-- Twins have the same allocations at the same addresses. -/
theorem number (twin : Twin cache left right first second) (p : Ptr) :
    second.number p = first.number p := by
  obtain ⟨link, -, rfl⟩ := twin
  simp

/-- Twins have the same blocks except for the head. -/
theorem get (twin : Twin cache left right first second) (apart : p ≠ cache) :
    second.get p = first.get p := by
  obtain ⟨link, -, rfl⟩ := twin
  exact get_set_of_ne apart

/-- Twins have the same records except for the head. -/
theorem recordAt_eq (twin : Twin cache left right first second) (apart : p ≠ cache) :
    recordAt second p = recordAt first p :=
  recordAt_congr (twin.get apart)

/-- Twins have the same buffers. -/
theorem bytesAt_eq (twin : Twin cache left right first second) (p : Ptr) :
    bytesAt second p = bytesAt first p := by
  by_cases here : p = cache
  · obtain ⟨link, head, rfl⟩ := twin
    have live := get_of_recordAt head
    rw [here]
    simp [bytesAt, live]
  · exact bytesAt_congr (twin.get here)

/-- Twins have made the same calls of `free`. -/
theorem frees (twin : Twin cache left right first second) : second.frees = first.frees := by
  obtain ⟨link, -, rfl⟩ := twin
  rfl

/-- Allocating elsewhere keeps twins. -/
theorem alloc (twin : Twin cache left right first second) (apart : p ≠ cache) (block : Block) :
    Twin cache left right (first.alloc p block) (second.alloc p block) := by
  obtain ⟨link, head, rfl⟩ := twin
  refine ⟨link, ?_, ?_⟩
  · exact (recordAt_congr (by simp [Ne.symm apart])).trans head
  · ext q
    · by_cases atP : q = p <;> by_cases atHead : q = cache <;>
        simp_all [Heap.alloc, Heap.set]
    · rfl
    · rfl
    · rfl

/-- Overwriting another block keeps twins. -/
theorem set (twin : Twin cache left right first second) (apart : p ≠ cache) (block : Block) :
    Twin cache left right (first.set p block) (second.set p block) := by
  obtain ⟨link, head, rfl⟩ := twin
  refine ⟨link, (recordAt_congr (get_set_of_ne (Ne.symm apart))).trans head, ?_⟩
  ext q
  · by_cases atP : q = p <;> by_cases atHead : q = cache <;> simp_all [Heap.set]
  · rfl
  · rfl
  · rfl

/-- Freeing another block keeps twins. -/
theorem free (twin : Twin cache left right first second) (apart : p ≠ cache) :
    Twin cache left right (first.free p) (second.free p) := by
  have numbers := twin.number p
  obtain ⟨link, head, rfl⟩ := twin
  refine ⟨link, (recordAt_congr (by simp [Ne.symm apart])).trans head, ?_⟩
  ext q
  · by_cases atP : q = p <;> by_cases atHead : q = cache <;> simp_all [Heap.set, Heap.free]
  · rfl
  · rfl
  · simp

/-- Linking another record behind the head keeps twins. -/
theorem relink (twin : Twin cache left right first second) (record : Ptr) :
    Twin cache left right (first.set cache (.record { left with next := record }))
      (second.set cache (.record { right with next := record })) := by
  obtain ⟨link, head, rfl⟩ := twin
  refine ⟨record, recordAt_set (get_of_recordAt head), ?_⟩
  ext q
  · by_cases atHead : q = cache <;> simp [Heap.set, atHead, Function.comp_def]
  · rfl
  · rfl
  · rfl

/-- Once the head is freed, twins that freed the same pointers are equal. -/
theorem free_head (twin : Twin cache left right first second) :
    second.free cache = first.free cache := by
  have numbers := twin.number cache
  obtain ⟨link, -, rfl⟩ := twin
  ext q
  · by_cases atHead : q = cache <;> simp [Heap.set, Heap.free, atHead]
  · rfl
  · rfl
  · simp

/-- `destroy_cache` frees the leftover pointer of the head first, and then sees no difference. -/
theorem destroy {mem mem' : Memory} (twin : Twin cache left right mem mem') (nonnull : cache ≠ null)
    (same : left.response = right.response) :
    destroyCache mem' cache = destroyCache mem cache := by
  have bounds : mem'.bound = mem.bound := by
    obtain ⟨link, -, rfl⟩ := twin
    rfl
  have ⟨link, head, other⟩ := twin
  have head' : recordAt mem' cache = some { right with next := link } := by
    rw [other, recordAt_set (get_of_recordAt head)]
  simp only [destroyCache, destroyLoop, nonnull, if_false, deleteCacheRecord, head, head', bounds,
    same, Option.bind_eq_bind, Option.bind_some]
  by_cases itself : right.response = cache
  · simp [recordAt, itself]
  · have after : recordAt (mem.free right.response) cache = some { left with next := link } :=
      (recordAt_congr (by simp [Ne.symm itself])).trans head
    have after' : recordAt (mem'.free right.response) cache = some { right with next := link } :=
      (recordAt_congr (by simp [Ne.symm itself])).trans head'
    simp only [after, after', Option.bind_some, (twin.free itself).free_head]

end Twin

namespace Store

/-- Two stores that differ at most in the head's leftovers. -/
structure Twins (left right : Cache) (first second : Store) : Prop where
  /-- The memories are twins. -/
  mem : Twin first.cache left right first.mem second.mem
  /-- The heads have one address. -/
  cache : second.cache = first.cache
  /-- The handlers fill the same records. -/
  pending : second.pending = first.pending
  /-- The same records were pushed. -/
  pushed : second.pushed = first.pushed

/-- Two steps are both refused, or both lead to twins. -/
def BothTwins (left right : Cache) (first second : Option Store) : Prop :=
  (first = none ∧ second = none) ∨
    ∃ after after', first = some after ∧ second = some after' ∧ Twins left right after after'

/-- A lookup whose hash is in neither head returns the same in both. -/
theorem Twins.find_eq {origin origin' : Origin} {first second : Store}
    (twins : Twins origin.garbage origin'.garbage first second) (inv : Inv origin first)
    (inv' : Inv origin' second) {req : CString} (unmatched : origin.garbage.request ≠ hash req)
    (unmatched' : origin'.garbage.request ≠ hash req) : second.find req = first.find req := by
  rw [inv.find_eq, inv'.find_eq, if_neg unmatched, if_neg unmatched', twins.pushed]

/-- Starting a fetch keeps twins. -/
theorem Twins.beginFetch {left right : Cache} {first second : Store}
    (twins : Twins left right first second) (handler : Nat) (req : CString)
    {record response : Ptr} (garbage : Cache) (notHead : record ≠ first.cache)
    (notHead' : response ≠ first.cache) (apart : record ≠ response) :
    BothTwins left right (first.beginFetch handler req record response garbage)
      (second.beginFetch handler req record response garbage) := by
  have made : second.mem.made = first.mem.made := by
    obtain ⟨link, -, same⟩ := twins.mem
    rw [same]
    rfl
  refine Or.inr ⟨_, _, beginFetch_eq first handler req garbage apart,
    beginFetch_eq second handler req garbage apart, ?_, twins.cache, ?_, twins.pushed⟩
  · exact (((twins.mem.alloc notHead _).alloc notHead' _).set notHead _).set notHead _
  · funext other
    simp [twins.pending, made]

/-- Storing a chunk keeps twins. -/
theorem Twins.addChunk {left right : Cache} {first second : Store}
    (twins : Twins left right first second) {fetch : Fetch} {cell : Cache}
    (owns : Owns first.mem fetch cell) (notHead : fetch.record ≠ first.cache)
    (notHead' : fetch.response ≠ first.cache) (handler : Nat) (chunk : List UInt8) :
    BothTwins left right (first.addChunk handler fetch chunk)
      (second.addChunk handler fetch chunk) := by
  obtain ⟨buffer, bytes, -⟩ := owns.bytes
  have record' := (twins.mem.recordAt_eq notHead).trans owns.record
  have bytes' := (twins.mem.bytesAt_eq fetch.response).trans bytes
  refine Or.inr ⟨_, _, addChunk_eq handler chunk owns.record owns.response bytes,
    addChunk_eq handler chunk record' owns.response bytes', twins.mem.set notHead' _,
    twins.cache, ?_, twins.pushed⟩
  funext other
  simp [twins.pending]

/-- Pushing a record keeps twins: the head is skipped by the comparison. -/
theorem Twins.finishFetch {origin origin' : Origin} {first second : Store}
    (twins : Twins origin.garbage origin'.garbage first second) (inv : Inv origin first)
    (inv' : Inv origin' second) {handler : Nat} {fetch : Fetch}
    (pending : first.pending handler = some fetch) :
    BothTwins origin.garbage origin'.garbage (first.finishFetch handler fetch)
      (second.finishFetch handler fetch) := by
  obtain ⟨cell, owns, -⟩ := inv.filling handler fetch pending
  have notHead := inv.head_ne owns (Or.inr ⟨handler, pending⟩)
  have pending' : second.pending handler = some fetch := by
    rw [twins.pending]
    exact pending
  obtain ⟨cell', owns', -⟩ := inv'.filling handler fetch pending'
  have sameCell : cell' = cell := by
    have read := (twins.mem.recordAt_eq notHead.1.symm).trans owns.record
    exact Option.some.inj (owns'.record.symm.trans read)
  subst sameCell
  obtain ⟨sized, sizing, sizedOwns, -, -, agree, cases⟩ := inv.push_cases pending owns
  obtain ⟨sized', sizing', sizedOwns', -, -, agree', cases'⟩ := inv'.push_cases pending' owns'
  have sizedTwin : Twin first.cache origin.garbage origin'.garbage sized sized' := by
    simp only [addSize, owns.record, owns'.record, Option.bind_eq_bind, Option.bind_some,
      Option.some.injEq] at sizing sizing'
    rw [← sizing, ← sizing']
    exact twins.mem.set notHead.1.symm _
  have linkedSame : second.linked = first.linked := by rw [linked, linked, twins.pushed]
  rw [linkedSame, twins.cache] at cases'
  have finish : ∀ mem mem', Twin first.cache origin.garbage origin'.garbage mem mem' →
      pushRecord sized first.cache fetch.record = some mem →
      pushRecord sized' first.cache fetch.record = some mem' →
      BothTwins origin.garbage origin'.garbage (first.finishFetch handler fetch)
        (second.finishFetch handler fetch) := by
    intro mem mem' twin pushed pushed'
    refine Or.inr ⟨first.afterPush handler fetch mem, second.afterPush handler fetch mem',
      by simp [Store.finishFetch, sizing, pushed, afterPush],
      by simp [Store.finishFetch, sizing', twins.cache, pushed', afterPush],
      twin, twins.cache, ?_, ?_⟩
    · funext other
      simp [afterPush, twins.pending]
    · simp [afterPush, twins.pushed]
  rcases cases with ⟨duplicate, result⟩ | ⟨new, front, last, lastCell, whole, live, result⟩
  · rcases cases' with ⟨-, result'⟩ | ⟨new', -⟩
    · have dropped : dropRecord sized fetch.record =
          some ((sized.free fetch.response).free fetch.record) := by
        simp [dropRecord, deleteCacheRecord, sizedOwns.record, owns.response]
      have dropped' : dropRecord sized' fetch.record =
          some ((sized'.free fetch.response).free fetch.record) := by
        simp [dropRecord, deleteCacheRecord, sizedOwns'.record, owns.response]
      exact finish _ _ ((sizedTwin.free notHead.2.symm).free notHead.1.symm)
        (result.trans dropped) (result'.trans dropped')
    · exact absurd duplicate new'
  · rcases cases' with ⟨duplicate', -⟩ | ⟨-, front', last', lastCell', whole', live', result'⟩
    · exact absurd duplicate' new
    · obtain rfl : last = last' := by
        have ends := congrArg List.getLast? (whole.symm.trans whole')
        simpa using ends
      refine finish _ _ ?_ result result'
      by_cases isHead : last = first.cache
      · subst isHead
        obtain ⟨link, head, same⟩ := sizedTwin
        have cellHere := Option.some.inj (live.symm.trans head)
        have cellThere : lastCell' = { origin'.garbage with next := link } := by
          rw [same, recordAt_set (get_of_recordAt head)] at live'
          exact (Option.some.inj live').symm
        rw [cellHere, cellThere]
        exact Twin.relink ⟨link, head, same⟩ fetch.record
      · have sameLast : lastCell' = lastCell :=
          Option.some.inj (live'.symm.trans ((sizedTwin.recordAt_eq isHead).trans live))
        rw [sameLast]
        exact sizedTwin.set isHead _

/-- A call of a cache function, `destroy_cache` included. -/
inductive Call where
  /-- A call by a handler. -/
  | op (op : Op)
  /-- `destroy_cache`. -/
  | destroy

/-- What a call shows: the result of a lookup, or the pointers passed to `free`. -/
inductive Output where
  /-- The result of `find_in_cache`. -/
  | lookup (result : Lookup)
  /-- The pointers passed to `free`, in order. -/
  | freed (pointers : List Ptr)
  /-- Undefined behaviour, or a refused step. -/
  | fault

/-- The store after a call. -/
def respond (store : Store) : Call → Option Store
  | .op op => store.next op
  | .destroy => (destroyCache store.mem store.cache).map fun mem => { store with mem := mem }

/-- What a call shows. -/
def output (store : Store) : Call → Output
  | .op (.find req) => .lookup (store.find req)
  | call =>
    match store.respond call with
    | none => .fault
    | some after => .freed ((after.mem.frees.drop store.mem.frees.length).map Prod.fst)

/-- What a sequence of calls shows. -/
def outputs (store : Store) : List Call → List Output
  | [] => []
  | call :: rest => store.output call ::
      match store.respond call with
      | none => []
      | some after => outputs after rest

/-- A call that does not reveal the leftovers of two heads: a lookup of another hash, or
`destroy_cache` when both heads hold the same response pointer. -/
def Quiet (left right : Cache) : Call → Prop
  | .op (.find req) => left.request ≠ hash req ∧ right.request ≠ hash req
  | .op _ => True
  | .destroy => left.response = right.response

variable {origin origin' : Origin} {first second : Store}

/-- Every quiet call of a handler keeps twins. -/
theorem Twins.next (twins : Twins origin.garbage origin'.garbage first second)
    (inv : Inv origin first) (inv' : Inv origin' second) {op : Op}
    (quiet : Quiet origin.garbage origin'.garbage (.op op)) :
    BothTwins origin.garbage origin'.garbage (first.next op) (second.next op) := by
  cases op with
  | find req =>
    simp only [Store.next, twins.find_eq inv inv' quiet.1 quiet.2]
    split
    · exact Or.inl ⟨rfl, rfl⟩
    · exact Or.inr ⟨first, second, rfl, rfl, twins⟩
  | fetch handler req record response garbage =>
    have same : ∀ p, second.mem.Unused p ↔ first.mem.Unused p := by
      intro p
      rw [Heap.Unused, Heap.Unused, twins.mem.number]
    simp only [Store.next, twins.pending, same]
    split
    · rename_i fresh
      exact twins.beginFetch handler req garbage
        (ne_of_live fresh.2.1 inv.headNumber).symm (ne_of_live fresh.2.2.1 inv.headNumber).symm
        fresh.2.2.2
    · exact Or.inl ⟨rfl, rfl⟩
  | add handler chunk =>
    simp only [Store.next, twins.pending]
    cases pending : first.pending handler with
    | none => exact Or.inl ⟨rfl, rfl⟩
    | some fetch =>
      obtain ⟨cell, owns, -⟩ := inv.filling handler fetch pending
      have notHead := inv.head_ne owns (Or.inr ⟨handler, pending⟩)
      simp only [Option.bind_eq_bind, Option.bind_some]
      split
      · exact twins.addChunk owns notHead.1.symm notHead.2.symm handler chunk
      · exact Or.inl ⟨rfl, rfl⟩
  | push handler =>
    simp only [Store.next, twins.pending]
    cases pending : first.pending handler with
    | none => exact Or.inl ⟨rfl, rfl⟩
    | some fetch => exact twins.finishFetch inv inv' pending

/-- Twins show the same along every sequence of quiet calls. -/
theorem Twins.outputs_eq (twins : Twins origin.garbage origin'.garbage first second)
    (inv : Inv origin first) (inv' : Inv origin' second) {calls : List Call}
    (quiet : ∀ call ∈ calls, Quiet origin.garbage origin'.garbage call) :
    first.outputs calls = second.outputs calls := by
  induction calls generalizing first second with
  | nil => rfl
  | cons call rest ih =>
    have quietHere := quiet call List.mem_cons_self
    have quietLater := fun later member => quiet later (List.mem_cons_of_mem call member)
    cases call with
    | op op =>
      have shown : first.output (.op op) = second.output (.op op) := by
        cases op with
        | find req => simp only [output, twins.find_eq inv inv' quietHere.1 quietHere.2]
        | _ =>
          rcases twins.next inv inv' quietHere with ⟨stuck, stuck'⟩ | ⟨after, after', step, step',
            next⟩
          · simp only [output, respond, stuck, stuck']
          · simp only [output, respond, step, step', next.mem.frees, twins.mem.frees]
      simp only [outputs, shown, respond]
      rcases twins.next inv inv' quietHere with ⟨stuck, stuck'⟩ | ⟨after, after', step, step', next⟩
      · rw [stuck, stuck']
      · simp only [step, step', ih next (inv.next step) (inv'.next step') quietLater]
    | destroy =>
      have destroyed := twins.mem.destroy inv.chain.2.1 quietHere
      have responded : second.respond .destroy = first.respond .destroy := by
        simp only [respond, twins.cache, twins.pending, twins.pushed, destroyed]
      simp only [outputs, output, responded, twins.mem.frees]

/-- Caches that start with different leftovers start as twins. -/
theorem twins_start {mem : Memory} {cache : Ptr} (left right : Cache) :
    Twins left right (start mem cache left) (start mem cache right) where
  mem := by
    refine ⟨null, by simp [start, initCache, recordAt], ?_⟩
    ext q
    · by_cases here : q = cache <;> simp [start, initCache, Heap.alloc, Heap.set, here]
    · rfl
    · rfl
    · rfl
  cache := rfl
  pending := rfl
  pushed := rfl

/-- A lookup on a fresh cache misses exactly when the head's leftover differs from the hash. -/
theorem find_start_miss {mem : Memory} {cache : Ptr} (unused : mem.Unused cache) (left : Cache)
    (req : CString) : (start mem cache left).find req = .miss ↔ left.request ≠ hash req := by
  rw [(inv_start unused left).find_eq]
  constructor
  · intro missed same
    rw [if_pos same] at missed
    unfold copyResponse at missed
    split at missed
    · exact nomatch missed
    · split at missed
      · exact nomatch missed
      · split at missed <;> exact nomatch missed
  · intro apart
    rw [if_neg apart]
    rfl

/-- `destroy_cache` on a fresh cache passes the head's leftover pointer and then the head to
`free`, unless the leftover is the head itself. -/
theorem output_start_destroy {mem : Memory} {cache : Ptr} (unused : mem.Unused cache)
    (left : Cache) : (start mem cache left).output .destroy =
      if left.response = cache then .fault else .freed [left.response, cache] := by
  have nonnull := unused.1
  have head : recordAt (start mem cache left).mem cache = some { left with next := null } := by
    simp [start, initCache, recordAt]
  have here : (start mem cache left).cache = cache := rfl
  by_cases itself : left.response = cache
  · rw [if_pos itself]
    simp only [output, respond, destroyCache, destroyLoop, here, nonnull, if_false,
      deleteCacheRecord, head, itself, Option.bind_eq_bind, Option.bind_some]
    simp [recordAt]
  · have after : recordAt ((start mem cache left).mem.free left.response) cache =
        some { left with next := null } :=
      (recordAt_congr (by simp [Ne.symm itself])).trans head
    obtain ⟨fuel, enough⟩ : ∃ fuel, (start mem cache left).mem.bound = fuel + 1 :=
      ⟨max mem.bound (cache + 1) - 1, by simp only [start, initCache, Heap.alloc]; omega⟩
    rw [if_neg itself]
    simp only [output, respond, destroyCache, here, enough, destroyLoop, nonnull, if_false,
      deleteCacheRecord, head, after, Option.bind_eq_bind, Option.bind_some, if_true,
      Option.map_some, Heap.frees_free, List.append_assoc, List.drop_left]
    simp

end Store

open Store

/-- Leftovers of the head do not show in any sequence of calls that neither looks up a hash equal
to a leftover nor destroys heads with different leftover pointers; and they do show in the very
first lookup of such a hash and in `destroy_cache`. -/
theorem head_leftovers {mem : Memory} {cache : Ptr} {left right : Cache}
    (unused : mem.Unused cache) :
    (∀ calls, (∀ call ∈ calls, Quiet left right call) →
      (start mem cache left).outputs calls = (start mem cache right).outputs calls) ∧
    (∀ req, (start mem cache left).find req = .miss ↔ left.request ≠ hash req) ∧
    ((start mem cache left).output .destroy = (start mem cache right).output .destroy ↔
      left.response = right.response) := by
  refine ⟨fun calls quiet => ?_, find_start_miss unused left, ?_⟩
  · exact (twins_start left right).outputs_eq (inv_start unused left) (inv_start unused right) quiet
  · rw [output_start_destroy unused, output_start_destroy unused]
    constructor
    · intro same
      split at same <;> split at same
      · rename_i one two
        rw [one, two]
      · exact nomatch same
      · exact nomatch same
      · exact (List.cons.inj (Output.freed.inj same)).1
    · intro same
      rw [same]

/-- Two different heads are not told apart by looking up another request. -/
theorem head_leftovers_unseen :
    (start Heap.empty 1 ⟨7, 0, 0, 0⟩).outputs [.op (.find (requestFor [65]))] =
      (start Heap.empty 1 ⟨8, 9, 1, 0⟩).outputs [.op (.find (requestFor [65]))] := by
  refine (head_leftovers (show Heap.Unused Heap.empty 1 by decide)).1 _ fun call member => ?_
  rw [List.mem_singleton.mp member]
  exact ⟨by decide +kernel, by decide +kernel⟩

/-- A request that starts with a zero byte hits the head of a fresh cache when `malloc` returned
zeroed memory and misses when it did not, and `destroy_cache` frees whatever pointer was left
there. -/
theorem head_leftovers_show :
    (start Heap.empty 1 ⟨0, 0, 0, 0⟩).find (CString.ofBytes [0]) ≠ .miss ∧
    (start Heap.empty 1 ⟨0, 0, 0, 0⟩).outputs [.op (.find (CString.ofBytes [0]))] ≠
      (start Heap.empty 1 ⟨7, 0, 0, 0⟩).outputs [.op (.find (CString.ofBytes [0]))] ∧
    (start Heap.empty 1 ⟨0, 5, 0, 0⟩).outputs [.destroy] ≠
      (start Heap.empty 1 ⟨0, 6, 0, 0⟩).outputs [.destroy] := by
  have unused : Heap.Unused (Heap.empty : Memory) 1 := by decide
  have hit : (start Heap.empty 1 ⟨0, 0, 0, 0⟩).find (CString.ofBytes [0]) ≠ .miss := by
    rw [ne_eq, find_start_miss unused, not_not]
    decide
  have missed : (start Heap.empty 1 ⟨7, 0, 0, 0⟩).find (CString.ofBytes [0]) = .miss := by
    rw [find_start_miss unused]
    decide
  refine ⟨hit, fun same => ?_, fun same => ?_⟩
  · have heads := Output.lookup.inj (List.cons.inj same).1
    exact hit (heads.trans missed)
  · have heads := (List.cons.inj same).1
    rw [output_start_destroy unused, output_start_destroy unused] at heads
    have pointers := Output.freed.inj heads
    exact absurd pointers (by decide)

end NsuOs.Proxy
