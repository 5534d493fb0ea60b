import NsuOs.Proxy.Relay

/-!
# The response buffers

A handler stores every chunk it passes on behind the bytes stored before, and a lookup copies as
many bytes as the record found says; neither looks at `CACHE_BUFFER_SIZE`. A run stays inside the
buffers exactly when no handler passes on more bytes than one holds and no lookup matches an
uninitialised head with a larger length: what is linked behind the head has been stored and was
measured there.
-/
namespace NsuOs.Proxy

open NsuOs.Run

/-- The record at which the loop of `find_in_cache` stops. -/
def matchLoop (mem : Memory) (reqHash : UInt64) : Nat → Ptr → Option Cache
  | 0, _ => none
  | fuel + 1, cur =>
    if cur = null then none
    else do
      let cache ← recordAt mem cur
      if cache.request = reqHash then some cache else matchLoop mem reqHash fuel cache.next

/-- The record `find_in_cache` copies from. -/
def Store.matching (store : Store) (req : CString) : Option Cache :=
  matchLoop store.mem (hash req) (store.mem.bound + 1) store.cache

/-- The count `strncpy` gets for a length: `ssize_t` becomes `size_t`. -/
def copyCount (len : Int) : Nat := (len % 2 ^ 64).toNat

/-- Every response is stored and copied inside its buffer: the next `add_response` of every handler
and its lookup, whenever it comes. -/
structure Process.ResponseInside (process : Process) : Prop where
  /-- A chunk is stored before the end of the response buffer. -/
  stores : ∀ (i : Nat) (thread : Thread) (locals : Locals) (dest : Fd) (stored : Nat)
    (chunk : List UInt8), process.threads[i]? = some thread →
      thread.handler = (Pc.addResponse locals dest stored chunk).now →
        stored + chunk.length ≤ cacheBufferSize
  /-- A lookup copies no more than the buffer of `send_from_cache` holds. -/
  copies : ∀ (i : Nat) (thread : Thread) (locals : Locals) (cell : Cache),
    process.threads[i]? = some thread → thread.handler = (Pc.find locals).now →
      process.shared.store.matching locals.request = some cell →
        copyCount cell.responseLen ≤ cacheBufferSize

/-- The bytes a handler has passed on to its client. -/
def Tally.passed (tally : Tally) : Nat := (tally.client.map (·.1.length)).sum

/-- Where a handler is, the offset it stores at is what it passed on before. -/
def Pc.Counted (tally : Tally) : Pc → Prop
  | .read _ _ stored | .writeClient _ _ stored _ => stored = tally.passed
  | .addResponse _ _ stored chunk => stored + chunk.length = tally.passed
  | .push _ _ | .post | .ret | .done => True
  | _ => tally.passed = 0

/-- A step of a handler keeps the count. -/
theorem Handler.Step.counted {handler after : Handler} {event : Event} {tally : Tally}
    (step : Handler.Step handler event after) (before : handler.pc.Counted tally) :
    after.pc.Counted (tally.add event) := by
  cases step
  case cleanup call rest pc => exact before
  case writeCached locals copy sent =>
    cases sent with
    | none => exact before
    | some count => exact before
  case requestSent locals dest count => exact (show _ = _ from before).symm
  case chunkSent locals dest stored chunk count =>
    show stored + chunk.length = ((tally.client ++ [(chunk, count)]).map (·.1.length)).sum
    rw [show stored = tally.passed from before]
    simp [Tally.passed]
  all_goals first | exact before | trivial

/-- Along every run of a handler its offset is what it passed on. -/
theorem Handler.counted_run {events : List Event} {handler : Handler}
    (run : exec Handler.next Handler.start events = some handler) :
    handler.pc.Counted (Tally.of events) := by
  refine exec_induct (motive := fun events handler => handler.pc.Counted (Tally.of events)) rfl ?_
    run
  intro events middle event finish _ before step
  rw [Tally.of_snoc]
  exact (Handler.step_of_next step).counted before

/-- One more event takes nothing back. -/
theorem Tally.passed_add (tally : Tally) (event : Event) :
    tally.passed ≤ (tally.add event).passed := by
  cases event with
  | write target fd bytes sent =>
    cases sent with
    | none => cases target <;> exact Nat.le_refl _
    | some count =>
      cases target with
      | client =>
        show tally.passed ≤ ((tally.client ++ [(bytes, count)]).map (·.1.length)).sum
        rw [List.map_append, List.sum_append]
        exact Nat.le_add_right _ _
      | cached | remote => exact Nat.le_refl _
  | read fd got =>
    cases got with
    | none => exact Nat.le_refl _
    | some bytes => cases bytes <;> exact Nat.le_refl _
  | _ => exact Nat.le_refl _

/-- A handler passes bytes on only on its way to `add_response`. -/
theorem Handler.Step.passes {handler after : Handler} {event : Event} (tally : Tally)
    (step : Handler.Step handler event after) :
    (tally.add event).passed = tally.passed ∨
      ∃ locals dest stored chunk, after = (Pc.addResponse locals dest stored chunk).now := by
  cases step with
  | chunkSent locals dest stored chunk count => exact .inr ⟨locals, dest, stored, chunk, rfl⟩
  | writeCached locals copy sent => cases sent <;> exact .inl rfl
  | _ => exact .inl rfl

/-- More events take nothing back. -/
theorem Tally.passed_append (events more : List Event) :
    (Tally.of events).passed ≤ (Tally.of (events ++ more)).passed := by
  induction more using List.reverseRecOn with
  | nil => rw [List.append_nil]
  | append_singleton more event ih =>
    rw [← List.append_assoc, Tally.of_snoc]
    exact Nat.le_trans ih (Tally.passed_add _ event)

/-- The request a handler looks up was copied before. -/
theorem Handler.Step.copied {handler after : Handler} {event : Event} {events : List Event}
    (step : Handler.Step handler event after)
    (before : ∀ locals, handler.pc = .find locals →
      .strcpy locals.request0 locals.request locals.stack ∈ events)
    (locals : Locals) (here : after.pc = .find locals) :
    .strcpy locals.request0 locals.request locals.stack ∈ events ++ [event] := by
  apply List.mem_append.mpr
  cases step with
  | cleanup call rest pc => exact .inl (before locals here)
  | strcpy fd block text stack fits =>
    cases here
    exact .inr (List.mem_singleton.mpr rfl)
  | writeCached other copy sent => cases sent <;> cases here
  | _ => cases here

/-- A handler at its lookup has copied the request it looks up. -/
theorem Handler.copied_run {events : List Event} {handler : Handler}
    (run : exec Handler.next Handler.start events = some handler) :
    ∀ locals, handler.pc = .find locals →
      .strcpy locals.request0 locals.request locals.stack ∈ events := by
  refine exec_induct (motive := fun events handler => ∀ locals, handler.pc = .find locals →
    .strcpy locals.request0 locals.request locals.stack ∈ events) ?_ ?_ run
  · intro locals here
    cases here
  intro events middle event finish _ before step
  exact (Handler.step_of_next step).copied before

namespace Store

variable {origin : Origin} {store after : Store}

/-- No response is larger than its buffer. -/
def Sized (store : Store) : Prop :=
  ∀ fetch, store.Has fetch → fetch.allBytesRead ≤ cacheBufferSize

/-- Storing a chunk stays inside the buffer. -/
theorem add_fits {handler : Nat} {chunk : List UInt8}
    (step : store.next (.add handler chunk) = some after) {fetch : Fetch}
    (pending : store.pending handler = some fetch) :
    fetch.allBytesRead + chunk.length ≤ cacheBufferSize := by
  simp only [Store.next, pending, Option.bind_eq_bind, Option.bind_some,
    Option.ite_none_right_eq_some] at step
  exact step.1.2.2

/-- A call on the cache keeps the sizes. -/
theorem Sized.next (sized : store.Sized) {op : Op} (step : store.next op = some after) :
    after.Sized := by
  intro fetch has
  cases op with
  | find req =>
    obtain rfl := next_find step
    exact sized fetch has
  | fetch handler req record response garbage =>
    obtain ⟨-, pushed, filling⟩ := next_fetch step
    rcases has with old | ⟨other, pending⟩
    · exact sized fetch (.inl (pushed ▸ old))
    · rw [filling, setPending_apply] at pending
      split at pending
      · obtain rfl := Option.some.inj pending
        exact Nat.zero_le _
      · exact sized fetch (.inr ⟨other, pending⟩)
  | add handler chunk =>
    obtain ⟨old, was, -, pushed, filling⟩ := next_add step
    rcases has with earlier | ⟨other, pending⟩
    · exact sized fetch (.inl (pushed ▸ earlier))
    · rw [filling, setPending_apply] at pending
      split at pending
      · obtain rfl := Option.some.inj pending
        exact add_fits step was
      · exact sized fetch (.inr ⟨other, pending⟩)
  | push handler =>
    obtain ⟨old, was, -, pushed, filling⟩ := next_push step
    rcases has with earlier | ⟨other, pending⟩
    · rw [pushed] at earlier
      rcases List.mem_append.mp earlier with before | last
      · exact sized fetch (.inl before)
      · rw [List.mem_singleton.mp last]
        exact sized old (.inr ⟨handler, was⟩)
    · rw [filling, setPending_apply] at pending
      split at pending
      · cases pending
      · exact sized fetch (.inr ⟨other, pending⟩)

/-- The sizes are kept along every run. -/
theorem sized_run {mem : Memory} {cache : Ptr} {garbage : Cache} {trace : List Op}
    (run : exec Store.next (start mem cache garbage) trace = some store) : store.Sized := by
  refine exec_invariant (fun _ _ _ sized step => Sized.next sized step) ?_ run
  rintro fetch (old | ⟨handler, pending⟩)
  · cases old
  · cases pending

/-- The loop stops at a record of the chain with the hash. -/
theorem matchLoop_chain {mem : Memory} {reqHash : UInt64} {fuel : Nat} {cur : Ptr} {list : List Ptr}
    {cell : Cache} (chain : Chain (recordAt mem) Cache.next cur list)
    (found : matchLoop mem reqHash fuel cur = some cell) :
    ∃ p ∈ list, recordAt mem p = some cell ∧ cell.request = reqHash := by
  induction fuel generalizing cur list with
  | zero => cases found
  | succ fuel ih =>
    rw [matchLoop] at found
    split at found
    · cases found
    · rename_i nonnull
      obtain ⟨cache, here, onward⟩ := Option.bind_eq_some_iff.mp found
      cases list with
      | nil => exact absurd chain nonnull
      | cons p rest =>
        obtain ⟨rfl, -, value, there, later⟩ := chain
        obtain rfl := Option.some.inj (here.symm.trans there)
        split at onward
        · rename_i same
          obtain rfl := Option.some.inj onward
          exact ⟨cur, List.mem_cons_self, here, same⟩
        · obtain ⟨q, member, rest⟩ := ih later onward
          exact ⟨q, List.mem_cons_of_mem _ member, rest⟩

/-- A head with the hash is where the loop stops. -/
theorem Inv.matching_head (inv : Inv origin store) {req : CString}
    (same : origin.garbage.request = hash req) :
    ∃ cell, store.matching req = some cell ∧ cell.responseLen = origin.garbage.responseLen := by
  obtain ⟨link, head⟩ := inv.head
  have nonnull : store.cache ≠ null := inv.chain.2.1
  refine ⟨{ origin.garbage with next := link }, ?_, rfl⟩
  rw [matching, matchLoop, if_neg nonnull, head]
  exact if_pos same

/-- Behind the head the loop stops at a record that holds what its fetch stored. -/
theorem Inv.matching_linked (inv : Inv origin store) {req : CString} {cell : Cache}
    (apart : origin.garbage.request ≠ hash req) (found : store.matching req = some cell) :
    ∃ fetch ∈ store.pushed, cell.responseLen = fetch.allBytesRead := by
  obtain ⟨p, member, here, same⟩ := matchLoop_chain inv.chain found
  rcases List.mem_cons.mp member with rfl | later
  · obtain ⟨link, head⟩ := inv.head
    obtain rfl := Option.some.inj (here.symm.trans head)
    exact absurd same apart
  · obtain ⟨fetch, isLinked, rfl⟩ := List.mem_map.mp later
    obtain ⟨kept, owns, len⟩ := inv.kept fetch isLinked
    obtain rfl := Option.some.inj (here.symm.trans owns.record)
    exact ⟨fetch, mem_pushed_of_mem_linked isLinked, len⟩

end Store

/-- A length that fits into the buffer is copied as it is. -/
theorem copyCount_natCast {len : Nat} (fits : len ≤ cacheBufferSize) : copyCount len = len := by
  unfold copyCount
  unfold cacheBufferSize at fits
  omega

namespace Process

variable {process : Process} {server : Fd} {mem : Memory} {cache : Ptr} {garbage : Cache}
  {trace : List Label}

/-- In a reached state the next `add_response` of a handler ends at what the handler passed on. -/
theorem stored_eq (run : exec next (start server mem cache garbage) trace = some process) {i : Nat}
    {thread : Thread} {locals : Locals} {dest : Fd} {stored : Nat} {chunk : List UInt8}
    (here : process.threads[i]? = some thread)
    (there : thread.handler = (Pc.addResponse locals dest stored chunk).now) :
    stored + chunk.length = (Tally.of (eventsOf i trace)).passed := by
  have counted := Handler.counted_run (handler_run run here)
  rw [there] at counted
  exact counted

/-- The events of a handler in two parts of a run. -/
theorem eventsOf_append (i : Nat) (earlier later : List Label) :
    eventsOf i (earlier ++ later) = eventsOf i earlier ++ eventsOf i later :=
  List.filterMap_append

/-- The lookups of a run do not match an uninitialised head with a length beyond the buffer. -/
def HeadFits (garbage : Cache) (trace : List Label) : Prop :=
  ∀ i block text stack, .thread i (.strcpy block text stack) ∈ trace → garbage.request = hash text →
    copyCount garbage.responseLen ≤ cacheBufferSize

/-- A state reached while no handler passed on too much is inside the buffers. -/
theorem responseInside_of (unused : mem.Unused cache)
    (run : exec next (start server mem cache garbage) trace = some process)
    (short : ∀ i, (Tally.of (eventsOf i trace)).passed ≤ cacheBufferSize)
    (fits : HeadFits garbage trace) : process.ResponseInside where
  stores i thread locals dest stored chunk here there := by
    rw [stored_eq run here there]
    exact short i
  copies i thread locals cell here there found := by
    have inv := store_inv unused run
    by_cases same : garbage.request = hash locals.request
    · obtain ⟨head, match_, len⟩ := inv.matching_head same
      obtain rfl := Option.some.inj (match_.symm.trans found)
      have copied := Handler.copied_run (handler_run run here) locals (there ▸ rfl)
      rw [len]
      exact fits i _ _ _ (mem_eventsOf.mp copied) same
    · obtain ⟨fetch, pushed, len⟩ := inv.matching_linked same found
      obtain ⟨ops, stored⟩ := store_run run
      have size := Store.sized_run stored fetch (.inl pushed)
      rw [len, copyCount_natCast size]
      exact size

/-- Every state on the way of a run is inside the buffers. -/
def InsideThroughout (first : Process) (trace : List Label) : Prop :=
  ∀ earlier state, earlier <+: trace → exec next first earlier = some state → state.ResponseInside

/-- In a run inside the buffers no handler passes on more than a buffer holds. -/
theorem passed_le (run : exec next (start server mem cache garbage) trace = some process) :
    InsideThroughout (start server mem cache garbage) trace →
      ∀ i, (Tally.of (eventsOf i trace)).passed ≤ cacheBufferSize := by
  refine exec_induct
    (motive := fun labels _ => InsideThroughout (start server mem cache garbage) labels →
      ∀ i, (Tally.of (eventsOf i labels)).passed ≤ cacheBufferSize)
    (fun _ _ => Nat.zero_le _) ?_ run
  intro labels middle label finish earlier ih step inside i
  have before := ih fun part state early =>
    inside part state (early.trans (List.prefix_append _ _))
  have reached := exec_snoc.mpr ⟨middle, earlier, step⟩
  cases label with
  | acceptor event =>
    rw [eventsOf_acceptor]
    exact before i
  | thread j event =>
    by_cases own : j = i
    · subst own
      obtain ⟨thread, handler, shared, here, moved, -, rfl⟩ := next_thread step
      rcases (Handler.step_of_next moved).passes (Tally.of (eventsOf j labels)) with same | issued
      · rw [eventsOf_self, Tally.of_snoc, same]
        exact before j
      · obtain ⟨locals, dest, stored, chunk, there⟩ := issued
        obtain ⟨valid, -⟩ := List.getElem?_eq_some_iff.mp here
        have now : (middle.threads.set j { thread with handler := handler })[j]? =
            some { thread with handler := handler } := by
          simp [valid]
        rw [← stored_eq reached now there]
        exact (inside _ _ List.prefix_rfl reached).stores j _ _ _ _ _ now there
    · rw [eventsOf_other labels event own]
      exact before i

/-- In a run inside the buffers no lookup matches an uninitialised head with a larger length. -/
theorem headFits_of (unused : mem.Unused cache)
    (run : exec next (start server mem cache garbage) trace = some process)
    (inside : InsideThroughout (start server mem cache garbage) trace) :
    HeadFits garbage trace := by
  intro i block text stack member same
  obtain ⟨earlier, later, before, after, split, reached, step⟩ := exec_member run member
  have onward := exec_snoc.mpr ⟨before, reached, step⟩
  have early : earlier ++ [.thread i (.strcpy block text stack)] <+: trace :=
    ⟨later, by rw [split, List.append_assoc, List.singleton_append]⟩
  have held := inside _ after early onward
  obtain ⟨head, found, len⟩ := (store_inv unused onward).matching_head same
  obtain ⟨thread, handler, shared, here, moved, -, rfl⟩ := next_thread step
  obtain ⟨valid, -⟩ := List.getElem?_eq_some_iff.mp here
  have copied := Handler.step_of_next moved
  generalize thread.handler = moving at copied
  cases copied with
  | strcpy fd _ _ _ fits =>
    rw [← len]
    exact held.copies i _ ⟨fd, block, text, stack⟩ head (by simp [valid]; rfl) rfl found

end Process

open Process

/-- Every run stays inside the response buffers if and only if no handler passes on more bytes than
a buffer holds and no lookup matches an uninitialised head with a larger length. -/
theorem response_inside_iff {server : Fd} {mem : Memory} {cache : Ptr} {garbage : Cache}
    {trace : List Label} {process : Process} (unused : mem.Unused cache)
    (run : exec next (start server mem cache garbage) trace = some process) :
    InsideThroughout (start server mem cache garbage) trace ↔
      (∀ i, (Tally.of (eventsOf i trace)).passed ≤ cacheBufferSize) ∧ HeadFits garbage trace := by
  constructor
  · intro inside
    exact ⟨passed_le run inside, headFits_of unused run inside⟩
  · rintro ⟨short, fits⟩ earlier state ⟨later, rfl⟩ reached
    apply responseInside_of unused reached
    · intro i
      have more := Tally.passed_append (eventsOf i earlier) (eventsOf i later)
      rw [← eventsOf_append] at more
      exact Nat.le_trans more (short i)
    · intro i block text stack member
      exact fits i block text stack (List.mem_append_left _ member)

/-- A response that fits is stored and found inside the buffers. -/
theorem response_inside_short :
    InsideThroughout (start 3 Heap.empty 1 ⟨7, 0, 0, 0⟩) (readThen (some [])) := by
  obtain ⟨process, run⟩ := Option.isSome_iff_exists.mp
    (by decide +kernel :
      (exec next (start 3 Heap.empty 1 ⟨7, 0, 0, 0⟩) (readThen (some []))).isSome)
  refine (response_inside_iff (by decide) run).mpr ⟨?_, ?_⟩
  · intro i
    by_cases first : i = 0
    · rw [first]
      decide +kernel
    · have quiet : eventsOf i (readThen (some [])) = [] := by
        simp [readThen, eventsOf, acceptOne, lookUp, reach, relay, Ne.symm first]
      rw [quiet]
      exact Nat.zero_le _
  · intro i block text stack _ _
    decide +kernel

namespace Process

variable {process : Process} {i : Nat} {thread : Thread} {locals : Locals} {dest : Fd}
  {stored : Nat} {chunk : List UInt8}

/-- The process after a handler moved and did something to the shared state. -/
def movedTo (process : Process) (i : Nat) (thread : Thread) (handler : Handler) (shared : Shared) :
    Process :=
  { process with
    shared := shared
    threads := process.threads.set i { thread with handler := handler } }

/-- A handler can make a call that its program makes there and the shared state allows. -/
theorem next_thread_eq {event : Event} {handler : Handler} {shared : Shared}
    (active : process.acceptor.pc ≠ .exited) (here : process.threads[i]? = some thread)
    (moved : thread.handler.next event = some handler)
    (performed : process.shared.perform i event = some shared) :
    process.next (.thread i event) = some (process.movedTo i thread handler shared) := by
  simp only [next, if_neg active, here, moved, performed, Option.bind_eq_bind, Option.bind_some,
    movedTo]

/-- The handler is where it moved. -/
theorem movedTo_thread (here : process.threads[i]? = some thread) (handler : Handler)
    (shared : Shared) :
    (process.movedTo i thread handler shared).threads[i]? =
      some { thread with handler := handler } := by
  obtain ⟨valid, -⟩ := List.getElem?_eq_some_iff.mp here
  simp [movedTo, valid]

/-- A handler reads a chunk and passes it on. -/
def passOn (i : Nat) (client dest : Fd) (chunk : List UInt8) : List Label :=
  [.thread i (.read dest (some chunk)), .thread i (.write .client client chunk (some chunk.length))]

/-- A handler in the relay loop between two open connections, with its record. -/
structure Relaying (process : Process) (i : Nat) (client dest : Fd) (stored : Nat) : Prop where
  /-- The process has not ended. -/
  active : process.acceptor.pc ≠ .exited
  /-- The handler is about to read. -/
  reading : ∃ thread locals, process.threads[i]? = some thread ∧ locals.clientSocket = client ∧
    thread.handler = (Pc.read locals dest stored).now
  /-- The client is connected. -/
  client : process.shared.fds client ≠ none
  /-- The remote server is connected. -/
  remote : process.shared.fds dest ≠ none
  /-- The record holds what was stored. -/
  filling : ∃ fetch, process.shared.store.pending i = some fetch ∧ fetch.allBytesRead = stored

/-- A chunk can be passed on. -/
theorem Relaying.passes {client : Fd} (relaying : process.Relaying i client dest stored)
    (some_ : 0 < chunk.length) (most : chunk.length ≤ maxBufferSize) :
    ∃ thread locals process', exec next process (passOn i client dest chunk) = some process' ∧
      process'.shared = process.shared ∧ process'.acceptor = process.acceptor ∧
      process'.threads[i]? = some thread ∧ locals.clientSocket = client ∧
      thread.handler = (Pc.addResponse locals dest stored chunk).now := by
  obtain ⟨thread, locals, here, rfl, there⟩ := relaying.reading
  obtain ⟨byte, rest, rfl⟩ := List.exists_cons_of_length_pos some_
  have returns : process.shared.Returns dest (some (byte :: rest)) := ⟨relaying.remote, most⟩
  have accepts : process.shared.Accepts locals.clientSocket (byte :: rest)
      (some (byte :: rest).length) := ⟨relaying.client, Nat.le_refl _, .inl some_⟩
  have received : thread.handler.next (.read dest (some (byte :: rest))) =
      some (Pc.writeClient locals dest stored (byte :: rest)).now := by
    rw [there]
    exact if_pos rfl
  have sent : (Pc.writeClient locals dest stored (byte :: rest)).now.next
      (.write .client locals.clientSocket (byte :: rest) (some (byte :: rest).length)) =
        some (Pc.addResponse locals dest stored (byte :: rest)).now := if_pos ⟨rfl, rfl⟩
  have reads := next_thread_eq relaying.active here received (if_pos returns)
  have now := movedTo_thread here (Pc.writeClient locals dest stored (byte :: rest)).now
    process.shared
  have active : (process.movedTo i thread (Pc.writeClient locals dest stored (byte :: rest)).now
      process.shared).acceptor.pc ≠ .exited := relaying.active
  have writes := next_thread_eq active now sent (if_pos accepts)
  have nothing : exec next process [] = some process := rfl
  have both := exec_snoc.mpr ⟨_, exec_snoc.mpr ⟨process, nothing, reads⟩, writes⟩
  exact ⟨_, locals, _, both, rfl, rfl, movedTo_thread now _ process.shared, rfl, rfl⟩

/-- A chunk that fits can be stored, and the handler goes on. -/
theorem Relaying.stores {client : Fd} {origin : Store.Origin}
    (relaying : process.Relaying i client dest stored)
    (inv : Store.Inv origin process.shared.store) (some_ : 0 < chunk.length)
    (most : chunk.length ≤ maxBufferSize) (fits : stored + chunk.length ≤ cacheBufferSize) :
    ∃ after, exec next process (passOn i client dest chunk ++ [.thread i (.addResponse chunk)]) =
      some after ∧ after.Relaying i client dest (stored + chunk.length) := by
  obtain ⟨thread, locals, process', passed, same, loop, here, named, there⟩ :=
    relaying.passes some_ most
  obtain ⟨fetch, pending, rfl⟩ := relaying.filling
  obtain ⟨cell, owns, -⟩ := inv.filling i fetch pending
  obtain ⟨buffer, bytes, -⟩ := owns.bytes
  have adds := Store.addChunk_eq i chunk owns.record owns.response bytes
  have moved : thread.handler.next (.addResponse chunk) =
      some (Pc.read locals dest (fetch.allBytesRead + chunk.length)).now := by
    rw [there]
    exact if_pos ⟨rfl, fits⟩
  have added : process.shared.store.next (.add i chunk) =
      process.shared.store.addChunk i fetch chunk := by
    rw [Store.next, pending, Option.bind_eq_bind, Option.bind_some, if_pos ⟨some_, most, fits⟩]
  have performed : process'.shared.perform i (.addResponse chunk) =
      (process.shared.store.addChunk i fetch chunk).map fun store =>
        { process.shared with store := store } := by
    rw [same, Shared.perform, Shared.onStore, added]
  rw [adds, Option.map_some] at performed
  have step := next_thread_eq (loop ▸ relaying.active) here moved performed
  have filled : process.shared.store.setPending i (some (fetch.addChunk chunk)) i =
      some (fetch.addChunk chunk) := if_pos rfl
  exact ⟨_, exec_snoc.mpr ⟨process', passed, step⟩, loop ▸ relaying.active,
    ⟨_, locals, movedTo_thread here _ _, named, rfl⟩, relaying.client, relaying.remote,
    fetch.addChunk chunk, filled, rfl⟩

/-- A handler in the relay loop can store any number of chunks that fit together. -/
theorem Relaying.fills {server : Fd} {mem : Memory} {cache : Ptr} {garbage : Cache}
    {trace : List Label} {client : Fd} (unused : mem.Unused cache)
    (run : exec next (start server mem cache garbage) trace = some process)
    (relaying : process.Relaying i client dest 0) (some_ : 0 < chunk.length)
    (most : chunk.length ≤ maxBufferSize) (count : Nat)
    (fits : count * chunk.length ≤ cacheBufferSize) :
    ∃ more after, exec next (start server mem cache garbage) (trace ++ more) = some after ∧
      after.Relaying i client dest (count * chunk.length) := by
  induction count with
  | zero =>
    rw [Nat.zero_mul]
    exact ⟨[], process, by rw [List.append_nil]; exact run, relaying⟩
  | succ count ih =>
    rw [Nat.succ_mul] at fits ⊢
    obtain ⟨more, middle, reached, going⟩ := ih (by omega)
    obtain ⟨after, stored, onward⟩ := going.stores (store_inv unused reached) some_ most fits
    refine ⟨more ++ (passOn i client dest chunk ++ [.thread i (.addResponse chunk)]), after, ?_,
      onward⟩
    rw [← List.append_assoc, exec_append, reached, Option.bind_some, stored]

/-- A handler is connected to the client and to the remote server. -/
def connected : List Label :=
  acceptOne ⟨4, 0⟩ (requestFor [65]).bytes ++ lookUp 0 ⟨4, 0⟩ (requestFor [65]) none ++
    reach 0 ⟨4, 0⟩ (requestFor [65]) 2 5 ++
    [.thread 0 (.write .remote 5 (requestFor [65]).bytes (some (requestFor [65]).strlen))]

/-- The descriptors and the offset of a handler about to read. -/
def readingAt (handler : Handler) : Option (Fd × Fd × Nat) :=
  match handler.todo, handler.pc with
  | [], .read locals dest stored => some (locals.clientSocket, dest, stored)
  | _, _ => none

/-- What is read off a handler about to read. -/
theorem readingAt_eq_some {handler : Handler} {client dest : Fd} {stored : Nat}
    (reading : readingAt handler = some (client, dest, stored)) :
    ∃ locals, locals.clientSocket = client ∧ handler = (Pc.read locals dest stored).now := by
  obtain ⟨todo, pc⟩ := handler
  unfold readingAt at reading
  split at reading
  · rename_i locals _ _ idle here
    cases reading
    obtain rfl : todo = [] := idle
    exact ⟨locals, rfl, congrArg _ here⟩
  · cases reading

/-- A connected handler is in the relay loop. -/
theorem connected_relaying : ∃ process,
    exec next (start 3 Heap.empty 1 ⟨7, 0, 0, 0⟩) connected = some process ∧
      process.Relaying 0 4 5 0 := by
  have outcome : (exec next (start 3 Heap.empty 1 ⟨7, 0, 0, 0⟩) connected).map (fun process =>
      (decide (process.acceptor.pc = .exited) || (process.shared.fds 4).isNone ||
          (process.shared.fds 5).isNone, process.threads[0]?.bind (readingAt ·.handler),
        (process.shared.store.pending 0).map Fetch.allBytesRead)) =
      some (false, some (4, 5, 0), some 0) := by
    decide +kernel
  obtain ⟨process, run, facts⟩ := Option.map_eq_some_iff.mp outcome
  simp only [Prod.mk.injEq, Bool.or_eq_false_iff, decide_eq_false_iff_not] at facts
  obtain ⟨⟨⟨active, client⟩, remote⟩, reading, filling⟩ := facts
  obtain ⟨thread, here, there⟩ := Option.bind_eq_some_iff.mp reading
  obtain ⟨locals, named, at_⟩ := readingAt_eq_some there
  refine ⟨process, run, active, ⟨thread, locals, here, named, at_⟩, ?_, ?_,
    Option.map_eq_some_iff.mp filling⟩
  · intro closed
    rw [closed] at client
    cases client
  · intro closed
    rw [closed] at remote
    cases remote

end Process

/-- A response one chunk longer than the buffer is stored behind its end. -/
theorem response_overruns :
    ¬∀ trace process, exec next (start 3 Heap.empty 1 ⟨7, 0, 0, 0⟩) trace = some process →
      InsideThroughout (start 3 Heap.empty 1 ⟨7, 0, 0, 0⟩) trace := by
  intro claim
  obtain ⟨process, run, relaying⟩ := connected_relaying
  have size : (List.replicate maxBufferSize (65 : UInt8)).length = maxBufferSize :=
    List.length_replicate
  have some_ : 0 < (List.replicate maxBufferSize (65 : UInt8)).length := by
    rw [size]
    decide
  have whole : 16384 * (List.replicate maxBufferSize (65 : UInt8)).length = cacheBufferSize := by
    rw [size]
    rfl
  obtain ⟨more, full, reached, going⟩ := relaying.fills (by decide) run some_ size.le 16384 whole.le
  obtain ⟨thread, locals, after, passed, -, -, here, -, there⟩ := going.passes some_ size.le
  have onward : exec next (start 3 Heap.empty 1 ⟨7, 0, 0, 0⟩) ((connected ++ more) ++
      passOn 0 4 5 (List.replicate maxBufferSize 65)) = some after := by
    rw [exec_append, reached, Option.bind_some, passed]
  have inside := (claim _ after onward _ after List.prefix_rfl onward).stores _ _ _ _ _ _ here there
  omega

end NsuOs.Proxy
