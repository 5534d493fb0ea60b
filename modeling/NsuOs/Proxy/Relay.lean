import NsuOs.Proxy.System

/-!
# What a handler reads, sends and stores

The tally of a handler's events: its lookups, what its writes were given and accepted, and the
chunks it read and stored. A handler at `push_record` has stored every chunk it read, and its
record carries exactly those chunks. The relay loop ends at the end of the stream and at a read
error alike, so the list grows by an incomplete record exactly when a handler with a failure
behind it pushes a hash that is not in the list yet.
-/
namespace NsuOs.Proxy

open NsuOs.Run

/-- What the events of a handler amount to. -/
structure Tally where
  /-- The lookups with what they found. -/
  found : List (CString × Option (List UInt8))
  /-- The writes of a cached response with the counts accepted. -/
  cached : List (List UInt8 × Nat)
  /-- The writes of the request. -/
  remote : List (List UInt8 × Nat)
  /-- The writes of chunks to the client. -/
  client : List (List UInt8 × Nat)
  /-- The chunks read. -/
  read : List (List UInt8)
  /-- The chunks stored. -/
  stored : List (List UInt8)

namespace Tally

/-- Nothing done yet. -/
def none : Tally := ⟨[], [], [], [], [], []⟩

/-- One more event. -/
def add (tally : Tally) : Event → Tally
  | .find req found => { tally with found := tally.found ++ [(req, found)] }
  | .write .cached _ bytes (some count) => { tally with cached := tally.cached ++ [(bytes, count)] }
  | .write .remote _ bytes (some count) => { tally with remote := tally.remote ++ [(bytes, count)] }
  | .write .client _ bytes (some count) => { tally with client := tally.client ++ [(bytes, count)] }
  | .read _ (some (byte :: rest)) => { tally with read := tally.read ++ [byte :: rest] }
  | .addResponse chunk => { tally with stored := tally.stored ++ [chunk] }
  | _ => tally

/-- The tally of some events. -/
def of (events : List Event) : Tally := events.foldl add none

/-- The last event is added to the tally of the others. -/
theorem of_snoc (events : List Event) (event : Event) :
    of (events ++ [event]) = (of events).add event := by
  simp [of]

end Tally

/-- The event tells of a failure. -/
def Event.failed : Event → Bool
  | .getaddrinfo _ ok => !ok
  | .socket fd => fd.isNone
  | .connect _ ok => !ok
  | .write _ _ _ sent => sent.isNone
  | .read _ got => got.isNone
  | _ => false

/-- Some call failed. -/
def Failed (events : List Event) : Prop := ∃ event ∈ events, event.failed = true

/-- The remote server's stream was read to its end. -/
def Ended (events : List Event) : Prop := ∃ fd, .read fd (some []) ∈ events

/-- The chunks read and not stored yet, where the program point tells. -/
def Pc.InFlight (tally : Tally) : Pc → Prop
  | .writeClient _ _ _ chunk | .addResponse _ _ _ chunk => tally.read = tally.stored ++ [chunk]
  | .ret | .done => True
  | _ => tally.read = tally.stored

/-- Every chunk is stored before the next one is read. -/
theorem Handler.Step.inFlight {handler after : Handler} {event : Event} {tally : Tally}
    (step : Handler.Step handler event after) (before : handler.pc.InFlight tally) :
    after.pc.InFlight (tally.add event) := by
  cases step
  case cleanup call rest pc => exact before
  case writeCached locals copy sent =>
    cases sent with
    | none => exact before
    | some count => exact before
  case chunk locals dest stored byte rest =>
    show tally.read ++ [byte :: rest] = tally.stored ++ [byte :: rest]
    rw [show tally.read = tally.stored from before]
  case addResponse locals dest stored chunk inside => exact before
  all_goals first | exact before | trivial

/-- Along every run of a handler chunks are stored as they are read. -/
theorem Handler.inFlight_run {events : List Event} {handler : Handler}
    (run : exec Handler.next Handler.start events = some handler) :
    handler.pc.InFlight (Tally.of events) := by
  refine exec_induct (motive := fun events handler => handler.pc.InFlight (Tally.of events)) rfl ?_
    run
  intro events middle event finish _ before step
  rw [Tally.of_snoc]
  exact (Handler.step_of_next step).inFlight before

/-- A program point before the first read from the remote server. -/
def Pc.unread : Pc → Bool
  | .read _ _ _ | .writeClient _ _ _ _ | .addResponse _ _ _ _ | .push _ _ | .post | .ret | .done =>
    false
  | _ => true

/-- A step that stays before the relay loop reads nothing. -/
theorem Handler.Step.unread {handler after : Handler} {event : Event} {tally : Tally}
    (step : Handler.Step handler event after)
    (before : handler.pc.unread = true → tally.read = []) (early : after.pc.unread = true) :
    (tally.add event).read = [] := by
  cases step
  case cleanup call rest pc => exact before early
  case writeCached locals copy sent =>
    cases sent with
    | none => exact before rfl
    | some count => exact before rfl
  all_goals first | exact before rfl | exact nomatch early

/-- Nothing is read before the relay loop. -/
theorem Handler.unread_run {events : List Event} {handler : Handler}
    (run : exec Handler.next Handler.start events = some handler) :
    handler.pc.unread = true → (Tally.of events).read = [] := by
  refine exec_induct (motive := fun events handler => handler.pc.unread = true →
    (Tally.of events).read = []) (fun _ => rfl) ?_ run
  intro events middle event finish _ before step
  rw [Tally.of_snoc]
  exact (Handler.step_of_next step).unread before

/-- The program point of `push_record`. -/
def Pc.pushing : Pc → Bool
  | .push _ _ => true
  | _ => false

/-- Later events keep a failure. -/
theorem Failed.append {events : List Event} (failed : Failed events) (more : List Event) :
    Failed (events ++ more) := by
  obtain ⟨event, member, isFailed⟩ := failed
  exact ⟨event, List.mem_append_left _ member, isFailed⟩

/-- Later events keep the end of the stream. -/
theorem Ended.append {events : List Event} (ended : Ended events) (more : List Event) :
    Ended (events ++ more) := by
  obtain ⟨fd, member⟩ := ended
  exact ⟨fd, List.mem_append_left _ member⟩

/-- The relay loop is left at the end of the stream or at a read error. -/
theorem Handler.Step.left {handler after : Handler} {event : Event} {events : List Event}
    (step : Handler.Step handler event after)
    (before : handler.pc.pushing = true → Ended events ∨ Failed events)
    (pushing : after.pc.pushing = true) :
    Ended (events ++ [event]) ∨ Failed (events ++ [event]) := by
  cases step
  case cleanup call rest pc =>
    rcases before pushing with ended | failed
    · exact Or.inl (ended.append _)
    · exact Or.inr (failed.append _)
  case writeCached locals copy sent => cases sent <;> exact nomatch pushing
  case ended locals dest stored => exact Or.inl ⟨dest, by simp⟩
  case readFailed locals dest stored => exact Or.inr ⟨.read dest none, by simp, rfl⟩
  all_goals exact nomatch pushing

/-- A handler at `push_record` has read to the end of the stream, or some call of it failed. -/
theorem Handler.left_run {events : List Event} {handler : Handler}
    (run : exec Handler.next Handler.start events = some handler) :
    handler.pc.pushing = true → Ended events ∨ Failed events := by
  refine exec_induct (motive := fun events handler => handler.pc.pushing = true →
    Ended events ∨ Failed events) (fun pushing => absurd pushing (by decide)) ?_ run
  intro events middle event finish _ before step
  exact (Handler.step_of_next step).left before

/-- Behind `push_record` a handler only cleans up and posts. -/
def Pc.closing : Pc → Bool
  | .post | .done => true
  | _ => false

/-- Behind `push_record` nothing fails and nothing is stored. -/
theorem Handler.Step.closing {handler after : Handler} {event : Event}
    (step : Handler.Step handler event after) (behind : handler.pc.closing = true) :
    after.pc.closing = true ∧ event.failed = false ∧ ∀ tally : Tally, tally.add event = tally := by
  cases step
  case cleanup call rest pc => exact ⟨behind, rfl, fun _ => rfl⟩
  case post => exact ⟨rfl, rfl, fun _ => rfl⟩
  all_goals exact nomatch behind

/-- What a handler does behind `push_record` changes neither its tally nor whether it failed. -/
theorem Handler.closing_run {handler after : Handler} {events : List Event}
    (run : exec Handler.next handler events = some after) (behind : handler.pc.closing = true)
    (before : List Event) :
    Tally.of (before ++ events) = Tally.of before ∧
      (Failed (before ++ events) → Failed before) := by
  suffices kept : after.pc.closing = true ∧ Tally.of (before ++ events) = Tally.of before ∧
      (Failed (before ++ events) → Failed before) from kept.2
  refine exec_induct (motive := fun events after => after.pc.closing = true ∧
    Tally.of (before ++ events) = Tally.of before ∧ (Failed (before ++ events) → Failed before))
    ⟨behind, by rw [List.append_nil], by rw [List.append_nil]; exact id⟩ ?_ run
  intro events middle event finish _ ih step
  obtain ⟨closing, same, failed⟩ := ih
  obtain ⟨closing', passed, unchanged⟩ := (Handler.step_of_next step).closing closing
  rw [← List.append_assoc]
  refine ⟨closing', by rw [Tally.of_snoc, unchanged, same], ?_⟩
  rintro ⟨other, member, isFailed⟩
  rcases List.mem_append.mp member with old | new
  · exact failed ⟨other, old, isFailed⟩
  · rw [List.mem_singleton.mp new, passed] at isFailed
    exact nomatch isFailed

/-- The event makes, fills or pushes a record. -/
def Event.storing : Event → Bool
  | .fetch _ _ _ _ _ | .addResponse _ | .push => true
  | _ => false

/-- What a call of a handler does to the records that are filled and pushed. -/
theorem Shared.perform_store {shared after : Shared} {i : Nat} {event : Event}
    (step : shared.perform i event = some after) :
    (event.storing = false ∧ after.store = shared.store) ∨
    (∃ block text record response garbage,
      event = .fetch block text record response garbage ∧
      after.store.pushed = shared.store.pushed ∧
      after.store.pending = shared.store.setPending i
        (some ⟨text, record, response, shared.store.mem.made, [], 0⟩)) ∨
    (∃ chunk fetch, event = .addResponse chunk ∧ shared.store.pending i = some fetch ∧
      after.store.pushed = shared.store.pushed ∧
      after.store.pending = shared.store.setPending i (some (fetch.addChunk chunk))) ∨
    (∃ fetch, event = .push ∧ shared.store.pending i = some fetch ∧
      after.store.pushed = shared.store.pushed ++ [fetch] ∧
      after.store.pending = shared.store.setPending i none) := by
  cases event with
  | fetch block text record response garbage =>
    simp only [perform, Option.ite_none_right_eq_some] at step
    obtain ⟨store, called, rfl⟩ := onStore_eq_some.mp step.2
    obtain ⟨-, pushed, filling⟩ := Store.next_fetch called
    exact Or.inr (Or.inl ⟨block, text, record, response, garbage, rfl, pushed, filling⟩)
  | addResponse chunk =>
    obtain ⟨store, called, rfl⟩ := onStore_eq_some.mp step
    obtain ⟨fetch, pending, -, pushed, filling⟩ := Store.next_add called
    exact Or.inr (Or.inr (Or.inl ⟨chunk, fetch, rfl, pending, pushed, filling⟩))
  | push =>
    simp only [perform, Option.ite_none_right_eq_some] at step
    obtain ⟨store, called, rfl⟩ := onStore_eq_some.mp step.2
    obtain ⟨fetch, pending, -, pushed, filling⟩ := Store.next_push called
    exact Or.inr (Or.inr (Or.inr ⟨fetch, rfl, pending, pushed, filling⟩))
  | find req found =>
    simp only [perform, Option.ite_none_right_eq_some] at step
    obtain ⟨store, called, rfl⟩ := onStore_eq_some.mp step.2
    exact Or.inl ⟨rfl, Store.next_find called⟩
  | cleanup call => exact Or.inl ⟨rfl, (cleanup_frame step).2.2⟩
  | socket fd =>
    cases fd with
    | none => exact Or.inl ⟨rfl, Option.some.inj step ▸ rfl⟩
    | some dest =>
      obtain ⟨-, rfl⟩ := opened_eq_some.mp step
      exact Or.inl ⟨rfl, rfl⟩
  | loadSocket | loadRequest | strcpy | write | reload | read =>
    simp only [perform, Option.ite_none_right_eq_some, Option.some.injEq] at step
    exact Or.inl ⟨rfl, step.2 ▸ rfl⟩
  | getaddrinfo | connect | post | ret => exact Or.inl ⟨rfl, Option.some.inj step ▸ rfl⟩

/-- A handler fills no record but its own. -/
theorem Shared.perform_pending_other {shared after : Shared} {i j : Nat} {event : Event}
    (apart : j ≠ i) (step : shared.perform j event = some after) :
    after.store.pending i = shared.store.pending i := by
  have other : i ≠ j := Ne.symm apart
  rcases perform_store step with ⟨-, same⟩ | ⟨_, _, _, _, _, -, -, filling⟩ |
    ⟨_, _, -, -, -, filling⟩ | ⟨_, -, -, -, filling⟩
  · rw [same]
  all_goals rw [filling, Store.setPending_apply, if_neg other]

/-- A record is made before anything is stored. -/
theorem Handler.stored_of_fetch {events : List Event} {handler after : Handler} {block : Nat}
    {text : CString} {record response : Ptr} {garbage : Cache}
    (run : exec Handler.next Handler.start events = some handler)
    (step : Handler.Step handler (.fetch block text record response garbage) after) :
    (Tally.of events).stored = [] := by
  have flight := Handler.inFlight_run run
  have nothing := Handler.unread_run run
  cases step with
  | fetch locals => exact (show _ = _ from flight).symm.trans (nothing rfl)

/-- Only `add_response` stores a chunk. -/
theorem Tally.stored_add {event : Event} (quiet : event.storing = false) (tally : Tally) :
    (tally.add event).stored = tally.stored := by
  cases event with
  | addResponse chunk => cases quiet
  | write target fd bytes sent => cases target <;> cases sent <;> rfl
  | read fd got =>
    cases got with
    | none => rfl
    | some bytes => cases bytes <;> rfl
  | _ => rfl

namespace Process

variable {process after : Process} {server : Fd} {mem : Memory} {cache : Ptr} {garbage : Cache}
  {trace : List Label}

/-- The record a handler is filling carries the chunks it has stored. -/
theorem pending_chunks (run : exec next (start server mem cache garbage) trace = some process) :
    ∀ i fetch, process.shared.store.pending i = some fetch →
      fetch.chunks = (Tally.of (eventsOf i trace)).stored := by
  refine exec_induct (motive := fun labels state => ∀ i fetch,
    state.shared.store.pending i = some fetch →
      fetch.chunks = (Tally.of (eventsOf i labels)).stored) ?_ ?_ run
  · intro i fetch pending
    exact absurd pending (by simp [start, Store.start])
  intro labels middle label finish earlier ih step i fetch pending
  cases label with
  | acceptor event =>
    obtain ⟨acceptor, shared, -, performed, rfl⟩ := next_acceptor step
    rw [eventsOf_acceptor]
    rw [Shared.performAccept_store performed] at pending
    exact ih i fetch pending
  | thread j event =>
    obtain ⟨thread, handler, shared, here, moved, performed, rfl⟩ := next_thread step
    dsimp only at pending
    by_cases own : j = i
    · subst own
      rw [eventsOf_self, Tally.of_snoc]
      rcases Shared.perform_store performed with ⟨quiet, same⟩ |
        ⟨block, text, record, response, leftover, rfl, -, filling⟩ |
        ⟨chunk, old, rfl, was, -, filling⟩ | ⟨old, rfl, -, -, filling⟩
      · rw [Tally.stored_add quiet]
        rw [same] at pending
        exact ih j fetch pending
      · rw [filling, Store.setPending_apply, if_pos rfl] at pending
        obtain rfl := Option.some.inj pending
        exact (Handler.stored_of_fetch (handler_run earlier here)
          (Handler.step_of_next moved)).symm
      · rw [filling, Store.setPending_apply, if_pos rfl] at pending
        obtain rfl := Option.some.inj pending
        exact congrArg (· ++ [chunk]) (ih j old was)
      · rw [filling, Store.setPending_apply, if_pos rfl] at pending
        cases pending
    · rw [eventsOf_other labels event own]
      rw [Shared.perform_pending_other own performed] at pending
      exact ih i fetch pending

/-- The cache keeps its invariant along every run of the process. -/
theorem store_inv (unused : mem.Unused cache)
    (run : exec next (start server mem cache garbage) trace = some process) :
    Store.Inv ⟨garbage, mem.made, mem.frees⟩ process.shared.store := by
  obtain ⟨ops, stored⟩ := store_run run
  exact Store.inv_run unused stored

end Process

namespace Store

variable {origin : Origin} {store after : Store}

/-- The chain behind the head is what it was. -/
def SameList (store after : Store) : Prop := ∀ list, store.IsList list → after.IsList list

/-- The chain is the same when the abstract cache is. -/
theorem Inv.sameList (inv : Inv origin store) (inv' : Inv origin after)
    (same : after.linked = store.linked) : store.SameList after := by
  intro list isList
  have chain := inv'.isList
  rw [same, ← isList.unique inv.isList] at chain
  exact chain

/-- A push leaves the chain alone exactly when the hash is in it. -/
theorem Inv.sameList_push (inv : Inv origin store) (inv' : Inv origin after) {fetch : Fetch}
    (pushed : after.pushed = store.pushed ++ [fetch]) :
    store.SameList after ↔ fetch.key ∈ store.linked.map Fetch.key := by
  have grown : after.linked = FirstWins.insert Fetch.key store.linked fetch := by
    rw [linked, pushed, FirstWins.insertAll_snoc]
    rfl
  constructor
  · intro same
    by_contra absent
    rw [FirstWins.insert, if_neg absent] at grown
    have lists := (same _ inv.isList).unique inv'.isList
    rw [grown] at lists
    have lengths := congrArg List.length lists
    simp at lengths
  · intro present
    rw [FirstWins.insert, if_pos present] at grown
    exact inv.sameList inv' grown

end Store

namespace Process

variable {process after : Process} {server : Fd} {mem : Memory} {cache : Ptr} {garbage : Cache}
  {trace : List Label}

/-- A handler changes the list of cached records only by a response that was read to its end and
stored as a whole, and not at all when one of its calls failed. -/
structure CompleteOnly (first : Process) (trace : List Label) (i : Nat) : Prop where
  /-- What is added is complete. -/
  complete : ∀ earlier event later before after, trace = earlier ++ .thread i event :: later →
    exec next first earlier = some before → before.next (.thread i event) = some after →
    ¬ before.shared.store.SameList after.shared.store →
      Ended (eventsOf i earlier) ∧ ∃ fetch,
        after.shared.store.linked = before.shared.store.linked ++ [fetch] ∧
        fetch.chunks = (Tally.of (eventsOf i earlier)).read
  /-- After a failure nothing is added. -/
  failure : Failed (eventsOf i trace) → ∀ earlier event later before after,
    trace = earlier ++ .thread i event :: later → exec next first earlier = some before →
    before.next (.thread i event) = some after →
      before.shared.store.SameList after.shared.store

/-- A handler that reaches `push_record` after a failed call finds its hash in the list. -/
def DuplicateIfFailed (first : Process) (trace : List Label) (i : Nat) : Prop :=
  ∀ earlier later before fetch, trace = earlier ++ .thread i .push :: later →
    exec next first earlier = some before → before.shared.store.pending i = some fetch →
    Failed (eventsOf i earlier) → fetch.key ∈ before.shared.store.linked.map Fetch.key

/-- What a step of a handler does to the list: nothing unless it is a push, and a push leaves the
list alone exactly when the hash is in it. -/
theorem list_step (unused : mem.Unused cache)
    (run : exec next (start server mem cache garbage) trace = some process) {i : Nat}
    {event : Event} (step : process.next (.thread i event) = some after) :
    (event ≠ .push ∧ process.shared.store.SameList after.shared.store) ∨ (event = .push ∧ ∃ fetch,
      process.shared.store.pending i = some fetch ∧
      after.shared.store.pushed = process.shared.store.pushed ++ [fetch] ∧
      (process.shared.store.SameList after.shared.store ↔
        fetch.key ∈ process.shared.store.linked.map Fetch.key)) := by
  have inv := store_inv unused run
  have inv' := store_inv unused (exec_snoc.mpr ⟨process, run, step⟩)
  obtain ⟨thread, handler, shared, here, moved, performed, rfl⟩ := next_thread step
  have kept : shared.store.pushed = process.shared.store.pushed →
      process.shared.store.SameList shared.store := by
    intro pushed
    exact inv.sameList inv' (by rw [Store.linked, Store.linked, pushed])
  rcases Shared.perform_store performed with ⟨quiet, same⟩ | ⟨_, _, _, _, _, rfl, pushed, -⟩ |
    ⟨_, _, rfl, -, pushed, -⟩ | ⟨fetch, rfl, pending, pushed, -⟩
  · refine Or.inl ⟨?_, kept (by rw [same])⟩
    rintro rfl
    cases quiet
  · exact Or.inl ⟨by simp, kept pushed⟩
  · exact Or.inl ⟨by simp, kept pushed⟩
  · exact Or.inr ⟨rfl, fetch, pending, pushed, inv.sameList_push inv' pushed⟩

/-- A handler about to push has a record with every chunk it read, and has read to the end of the
stream unless a call failed. -/
theorem at_push (run : exec next (start server mem cache garbage) trace = some process) {i : Nat}
    {fetch : Fetch} (pending : process.shared.store.pending i = some fetch)
    (step : process.next (.thread i .push) = some after) :
    fetch.chunks = (Tally.of (eventsOf i trace)).read ∧
      (Ended (eventsOf i trace) ∨ Failed (eventsOf i trace)) := by
  obtain ⟨thread, handler, shared, here, moved, -, -⟩ := next_thread step
  have chunks := pending_chunks run i fetch pending
  have own := handler_run run here
  have flight := Handler.inFlight_run own
  have left := Handler.left_run own
  obtain ⟨client, before⟩ := thread
  have advance := Handler.step_of_next moved
  dsimp only at advance flight left
  cases advance with
  | push locals dest => exact ⟨chunks.trans (show _ = _ from flight).symm, left rfl⟩

/-- A handler's tally and failures are those it had when it pushed. -/
theorem around_push {earlier later : List Label} {before : Process} {i : Nat}
    (run : exec next (start server mem cache garbage) (earlier ++ .thread i .push :: later) =
      some process)
    (reached : exec next (start server mem cache garbage) earlier = some before) :
    Tally.of (eventsOf i (earlier ++ .thread i .push :: later)) = Tally.of (eventsOf i earlier) ∧
      (Failed (eventsOf i (earlier ++ .thread i .push :: later)) →
        Failed (eventsOf i earlier)) := by
  have events := eventsOf_around i earlier later .push
  obtain ⟨after, step, -⟩ := exec_step run reached
  obtain ⟨moving, handler, shared, there, moved, -, -⟩ := next_thread step
  have inside : i < process.threads.length := by
    by_contra beyond
    have nothing := eventsOf_uncreated run (Nat.le_of_not_lt beyond)
    rw [events] at nothing
    simp at nothing
  have whole := handler_run run (List.getElem?_eq_getElem inside)
  rw [events] at whole
  obtain ⟨middle, pushed, rest⟩ := exec_step whole (handler_run reached there)
  have behind : middle.pc.closing = true := by
    have advance := Handler.step_of_next pushed
    generalize moving.handler = moving at advance
    cases advance with
    | push locals dest => rfl
  obtain ⟨same, failures⟩ := Handler.closing_run rest behind (eventsOf i earlier ++ [.push])
  rw [List.append_assoc, List.singleton_append, ← events] at same failures
  refine ⟨same.trans (Tally.of_snoc _ _), fun failed => ?_⟩
  obtain ⟨event, member, isFailed⟩ := failures failed
  rcases List.mem_append.mp member with old | new
  · exact ⟨event, old, isFailed⟩
  · rw [List.mem_singleton.mp new] at isFailed
    exact nomatch isFailed

end Process

open Process

/-- In every run, a handler adds complete responses only exactly when it finds its hash in the list
whenever it reaches `push_record` after a failed call. -/
theorem complete_only_iff {server : Fd} {mem : Memory} {cache : Ptr} {garbage : Cache}
    {trace : List Label} {process : Process} (unused : mem.Unused cache)
    (run : exec next (start server mem cache garbage) trace = some process) (i : Nat) :
    CompleteOnly (start server mem cache garbage) trace i ↔
      DuplicateIfFailed (start server mem cache garbage) trace i := by
  constructor
  · rintro only earlier later before fetch rfl reached pending failed
    obtain ⟨after, step, -⟩ := exec_step run reached
    have same := only.failure (by rw [eventsOf_around]; exact failed.append _)
      earlier .push later before after rfl reached step
    rcases list_step unused reached step with ⟨notPush, -⟩ | ⟨-, fetch', pending', -, iff⟩
    · exact absurd rfl notPush
    · obtain rfl := Option.some.inj (pending'.symm.trans pending)
      exact iff.mp same
  · intro duplicate
    refine ⟨?_, ?_⟩
    · rintro earlier event later before after rfl reached step changed
      rcases list_step unused reached step with ⟨-, alone⟩ | ⟨rfl, fetch, pending, pushed, iff⟩
      · exact absurd alone changed
      · have absent : fetch.key ∉ before.shared.store.linked.map Fetch.key :=
          fun present => changed (iff.mpr present)
        obtain ⟨chunks, left⟩ := at_push reached pending step
        have ended := left.resolve_right fun failed =>
          absent (duplicate earlier later before fetch rfl reached pending failed)
        refine ⟨ended, fetch, ?_, chunks⟩
        rw [Store.linked, pushed, FirstWins.insertAll_snoc]
        exact if_neg absent
    · rintro failed earlier event later before after rfl reached step
      rcases list_step unused reached step with ⟨-, alone⟩ | ⟨rfl, fetch, pending, -, iff⟩
      · exact alone
      · exact iff.mpr (duplicate earlier later before fetch rfl reached pending
          ((around_push run reached).2 failed))

/-- A handler passes on one chunk, and its next read has this result. -/
def readThen (got : Option (List UInt8)) : List Label :=
  acceptOne ⟨4, 0⟩ (requestFor [65]).bytes ++ lookUp 0 ⟨4, 0⟩ (requestFor [65]) none ++
    reach 0 ⟨4, 0⟩ (requestFor [65]) 2 5 ++
    [.thread 0 (.write .remote 5 (requestFor [65]).bytes (some (requestFor [65]).strlen))] ++
    relay 0 ⟨4, 0⟩ 5 [104, 105] 2 ++ [.thread 0 (.read 5 got)]

/-- A response read to its end may be added. -/
theorem complete_only_ended :
    CompleteOnly (start 3 Heap.empty 1 ⟨7, 0, 0, 0⟩)
      (readThen (some []) ++ [.thread 0 .push]) 0 := by
  obtain ⟨process, run⟩ := Option.isSome_iff_exists.mp
    (by decide +kernel : (exec next (start 3 Heap.empty 1 ⟨7, 0, 0, 0⟩)
      (readThen (some []) ++ [.thread 0 .push])).isSome)
  refine (complete_only_iff (by decide) run 0).mpr ?_
  intro earlier later before fetch split reached pending failed
  obtain ⟨event, member, isFailed⟩ := failed
  have among : event ∈ eventsOf 0 (readThen (some []) ++ [.thread 0 .push]) := by
    rw [split, eventsOf_around]
    exact List.mem_append_left _ member
  have none : ∀ event ∈ eventsOf 0 (readThen (some []) ++ [.thread 0 .push]),
      event.failed = false := by
    decide +kernel
  rw [none event among] at isFailed
  exact nomatch isFailed

/-- A response cut off by a read error is added to the list. -/
theorem complete_only_cut_off :
    ¬ CompleteOnly (start 3 Heap.empty 1 ⟨7, 0, 0, 0⟩) (readThen none ++ [.thread 0 .push]) 0 := by
  have outcome : (exec next (start 3 Heap.empty 1 ⟨7, 0, 0, 0⟩) (readThen none)).map
      (fun process => ((process.next (.thread 0 .push)).isSome,
        process.shared.store.linked.map Fetch.key)) = some (true, []) := by
    decide +kernel
  obtain ⟨before, reached, facts⟩ := Option.map_eq_some_iff.mp outcome
  obtain ⟨possible, empty⟩ := Prod.mk.inj facts
  obtain ⟨after, step⟩ := Option.isSome_iff_exists.mp possible
  intro only
  have same := only.failure ⟨.read 5 none, by simp [readThen, eventsOf, acceptOne], rfl⟩
    (readThen none) .push [] before after rfl reached step
  rcases list_step (by decide) reached step with ⟨notPush, -⟩ | ⟨-, fetch, -, -, iff⟩
  · exact notPush rfl
  · have present := iff.mp same
    rw [empty] at present
    cases present

end NsuOs.Proxy
