import NsuOs.Base.Ledger
import NsuOs.Proxy.Descriptors
import NsuOs.Proxy.Relay

/-!
# The memory a handler owns

The ledger of a handler: the request block of the client it was created for, `cache_record`, its
cache record with the response buffer, the read buffer and the address list. `push_record` takes
the record over, links it or frees it. Every way out but one leaves something live: a miss loses
`cache_record`, a failed write of the cached response leads into the connection, and a connection
loses the address list or, without one, the record. What remains is a hit whose response is written
and whose `free(ctx->request)` finds the request of the handler's own client.

A handler frees the block it finds in `ctx`, so a block can also be freed by somebody else. The
frees of a request block are therefore counted over the whole process, and with those that are the
next call of somebody: the second free of a block is the end of a run.
-/
namespace NsuOs.Proxy

open NsuOs.Run

/-- A block a handler allocates or is handed. -/
inductive Owned where
  /-- The request block of a client. -/
  | request (block : Nat)
  /-- `cache_record` of `send_from_cache`. -/
  | cacheRecord
  /-- `record`. -/
  | record
  /-- `record->response`. -/
  | response
  /-- `buffer`. -/
  | buffer
  /-- The list `getaddrinfo` returned. -/
  | addrinfo
  /-- What an unset pointer points to. -/
  | unset
  deriving DecidableEq

/-- The block behind a pointer variable. -/
def Part.owned : Part → Owned
  | .cacheRecord => .cacheRecord
  | .buffer => .buffer
  | .addrinfo => .addrinfo
  | .unsetAddrinfo => .unset

/-- What a call without a result frees. -/
def Cleanup.bookings : Cleanup → List (Booking Owned)
  | .free part => [.give part.owned]
  | .freeRequest block => [.give (.request block)]
  | .close _ | .destroyCache => []

/-- What a call allocates and frees: `find` includes the `calloc` of `cache_record` before it, the
write of the request the `calloc` of `buffer` behind it. -/
def Event.bookings : Event → List (Booking Owned)
  | .find _ _ => [.take .cacheRecord]
  | .fetch _ _ _ _ _ => [.take .record, .take .response]
  | .getaddrinfo _ true => [.take .addrinfo]
  | .write .remote _ _ (some _) => [.take .buffer]
  | .push => [.give .record, .give .response]
  | .cleanup call => call.bookings
  | _ => []

/-- What a handler is handed, and then allocates and frees. -/
def bookingsOf (handed : Nat) (events : List Event) : List (Booking Owned) :=
  .take (.request handed) :: events.flatMap Event.bookings

/-- The ledger of a handler that is handed a request block. -/
def ledgerOf (handed : Nat) (events : List Event) : Ledger Owned :=
  Ledger.empty.bookAll (bookingsOf handed events)

/-- The ledger after one more call. -/
theorem ledgerOf_snoc (handed : Nat) (events : List Event) (event : Event) :
    ledgerOf handed (events ++ [event]) = (ledgerOf handed events).bookAll event.bookings := by
  simp [ledgerOf, bookingsOf, Ledger.bookAll_append]

/-- What decides about the memory of a handler: whether its lookup was a hit, whether the cached
response was written, and the block it found in `ctx` for `free(ctx->request)`. -/
@[ext] structure Outcomes where
  /-- The lookup was a hit. -/
  hit : Bool
  /-- The cached response was written. -/
  written : Bool
  /-- The block loaded for `free(ctx->request)`. -/
  reloaded : Option Nat

namespace Outcomes

/-- Nothing is decided. -/
def none : Outcomes := ⟨false, false, .none⟩

/-- One more call. -/
def add (outcomes : Outcomes) : Event → Outcomes
  | .find _ found => { outcomes with hit := found.isSome }
  | .write .cached _ _ sent => { outcomes with written := sent.isSome }
  | .reload block => { outcomes with reloaded := some block }
  | _ => outcomes

/-- The outcomes of some events. -/
def of (events : List Event) : Outcomes := events.foldl add none

/-- The outcomes after one more call. -/
theorem of_snoc (events : List Event) (event : Event) :
    of (events ++ [event]) = (of events).add event := by
  simp [of]

end Outcomes

/-- The calls a handler makes next do this to its ledger. -/
def Handler.pending (handler : Handler) : List (Booking Owned) :=
  handler.todo.flatMap Cleanup.bookings

/-- What a handler that was handed a request block owns at a program point. -/
def Pc.Books (handed : Nat) (ledger : Ledger Owned) (outcomes : Outcomes) : Pc → Prop
  | .loadSocket | .loadRequest _ | .strcpy _ _ | .find _ =>
    ledger = ⟨[.request handed], []⟩ ∧ outcomes = .none
  | .writeCached _ _ =>
    ledger = ⟨[.cacheRecord, .request handed], []⟩ ∧ outcomes = ⟨true, false, none⟩
  | .reload _ => ledger = ⟨[.request handed], []⟩ ∧ outcomes = ⟨true, true, none⟩
  | .fetch _ => outcomes.reloaded = none
  | .getaddrinfo _ => outcomes.reloaded = none ∧ .record ∈ ledger.live
  | .socket _ | .connect _ _ =>
    outcomes.reloaded = none ∧ .record ∈ ledger.live ∧ .addrinfo ∈ ledger.live
  | .writeRequest _ dest =>
    outcomes.reloaded = none ∧
      (dest = socketError ∧ .record ∈ ledger.live ∨ .addrinfo ∈ ledger.live)
  | .read _ _ _ | .writeClient _ _ _ _ | .addResponse _ _ _ _ | .push _ _ | .post =>
    outcomes.reloaded = none ∧ .addrinfo ∈ ledger.live
  | .ret | .done =>
    (outcomes.reloaded = none ∧ ∃ block, block ∈ ledger.live) ∨
      ∃ block, outcomes = ⟨true, true, some block⟩ ∧
        ledger = Ledger.book ⟨[.request handed], []⟩ (.give (.request block))

/-- The call does not write a request to `SOCKET_ERROR` with success. -/
def Event.Sound : Event → Prop
  | .write .remote fd _ (some _) => fd ≠ socketError
  | _ => True

open Ledger in
/-- A step of a handler keeps its books. -/
theorem Handler.Step.books {handler after : Handler} {event : Event} {handed : Nat}
    {ledger : Ledger Owned} {outcomes : Outcomes} (step : Handler.Step handler event after)
    (sound : event.Sound)
    (before : handler.pc.Books handed (ledger.bookAll handler.pending) outcomes) :
    after.pc.Books handed ((ledger.bookAll event.bookings).bookAll after.pending)
      (outcomes.add event) := by
  cases step with
  | cleanup call rest pc =>
    rw [← bookAll_append]
    exact before
  | loadSocket fd => exact before
  | loadRequest fd block => exact before
  | strcpy fd block text stack fits => exact before
  | miss locals =>
    obtain ⟨-, rfl⟩ := before
    rfl
  | hit locals copy =>
    obtain ⟨rfl, rfl⟩ := before
    exact ⟨rfl, rfl⟩
  | writeCached locals copy sent =>
    obtain ⟨rfl, rfl⟩ := before
    cases sent with
    | none => rfl
    | some count => exact ⟨rfl, rfl⟩
  | reload locals block =>
    obtain ⟨rfl, rfl⟩ := before
    exact .inr ⟨block, rfl, rfl⟩
  | fetch locals text record response garbage =>
    exact ⟨before, List.mem_cons_of_mem _ List.mem_cons_self⟩
  | resolved locals host named =>
    obtain ⟨unloaded, record⟩ := before
    exact ⟨unloaded, List.mem_cons_of_mem _ record, List.mem_cons_self⟩
  | unresolved locals host named =>
    obtain ⟨unloaded, record⟩ := before
    exact ⟨unloaded, .inl ⟨rfl, mem_live_bookAll record (by simp [Handler.pending, notConnected,
      Cleanup.bookings, Part.owned])⟩⟩
  | noSocket locals =>
    obtain ⟨unloaded, record, -⟩ := before
    exact ⟨unloaded, .inl ⟨rfl, record⟩⟩
  | socket locals dest => exact before
  | connected locals dest =>
    obtain ⟨unloaded, -, addrinfo⟩ := before
    exact ⟨unloaded, .inr addrinfo⟩
  | refused locals dest =>
    obtain ⟨unloaded, record, -⟩ := before
    exact ⟨unloaded, .inl ⟨rfl, mem_live_bookAll record (by simp [Handler.pending, notConnected,
      Cleanup.bookings, Part.owned])⟩⟩
  | requestFailed locals dest =>
    obtain ⟨unloaded, ⟨-, record⟩ | addrinfo⟩ := before
    · exact .inl ⟨unloaded, .record, record⟩
    · exact .inl ⟨unloaded, .addrinfo, addrinfo⟩
  | requestSent locals dest count =>
    obtain ⟨unloaded, ⟨failed, -⟩ | addrinfo⟩ := before
    · exact absurd failed sound
    · exact ⟨unloaded, List.mem_cons_of_mem _ addrinfo⟩
  | chunk locals dest stored byte rest => exact before
  | ended locals dest stored => exact before
  | readFailed locals dest stored => exact before
  | chunkFailed locals dest stored chunk =>
    obtain ⟨unloaded, addrinfo⟩ := before
    exact .inl ⟨unloaded, .addrinfo, addrinfo⟩
  | chunkSent locals dest stored chunk count => exact before
  | addResponse locals dest stored chunk inside => exact before
  | push locals dest =>
    obtain ⟨unloaded, addrinfo⟩ := before
    have pushed : .addrinfo ∈ (ledger.bookAll Event.push.bookings).live :=
      mem_live_bookAll addrinfo (by decide)
    exact ⟨unloaded, mem_live_bookAll pushed (by simp [Handler.pending, finish, Cleanup.bookings,
      Part.owned])⟩
  | post =>
    obtain ⟨unloaded, addrinfo⟩ := before
    exact .inl ⟨unloaded, .addrinfo, addrinfo⟩
  | ret => exact before

/-- Along every run of a handler its books are kept. -/
theorem Handler.books_run {events : List Event} {handler : Handler} (handed : Nat)
    (run : exec Handler.next Handler.start events = some handler) :
    (∀ event ∈ events, event.Sound) →
      handler.pc.Books handed ((ledgerOf handed events).bookAll handler.pending)
        (Outcomes.of events) := by
  refine exec_induct (motive := fun events handler => (∀ event ∈ events, event.Sound) →
    handler.pc.Books handed ((ledgerOf handed events).bookAll handler.pending)
      (Outcomes.of events)) (fun _ => ⟨rfl, rfl⟩) ?_ run
  intro events middle event finish _ before step sound
  rw [ledgerOf_snoc, Outcomes.of_snoc]
  refine (Handler.step_of_next step).books (sound event (by simp)) (before ?_)
  exact fun other member => sound other (List.mem_append_left _ member)

namespace Shared

variable {shared after : Shared}

/-- Opening a descriptor does not open `SOCKET_ERROR`. -/
theorem opened_closed {fd : Fd} {conn : Conn} (closed : shared.fds socketError = none)
    (step : shared.opened fd conn = some after) : after.fds socketError = none := by
  obtain ⟨⟨positive, -⟩, rfl⟩ := opened_eq_some.mp step
  have apart : socketError ≠ fd := by
    rintro rfl
    exact absurd positive (by decide)
  simp [Table.put, apart, closed]

/-- Cleaning up does not open `SOCKET_ERROR`. -/
theorem cleanup_closed {call : Cleanup} (closed : shared.fds socketError = none)
    (step : shared.cleanup call = some after) : after.fds socketError = none := by
  obtain ⟨-, fds, -⟩ := cleanup_acted step 0
  rw [fds]
  cases call with
  | close fd =>
    show Table.drop shared.fds fd socketError = none
    unfold Table.drop
    split
    · rfl
    · exact closed
  | free part => exact closed
  | freeRequest block => exact closed
  | destroyCache => exact closed

/-- No call of a handler opens `SOCKET_ERROR`. -/
theorem perform_closed {i : Nat} {event : Event} (closed : shared.fds socketError = none)
    (step : shared.perform i event = some after) : after.fds socketError = none := by
  rcases perform_cases step with ⟨-, rfl⟩ | ⟨-, rfl⟩ | ⟨-, op, called⟩ | ⟨fd, -, called⟩ |
    ⟨call, -, called⟩
  · exact closed
  · exact closed
  · obtain ⟨store, -, rfl⟩ := onStore_eq_some.mp called
    exact closed
  · exact opened_closed closed called
  · exact cleanup_closed closed called

/-- No call of the accept loop opens `SOCKET_ERROR`. -/
theorem performAccept_closed {event : AcceptEvent} (closed : shared.fds socketError = none)
    (step : shared.performAccept event = some after) : after.fds socketError = none := by
  cases event with
  | accept client =>
    cases client with
    | none => exact Option.some.inj step ▸ closed
    | some client =>
      simp only [performAccept, Option.ite_none_right_eq_some] at step
      refine opened_closed ?_ step.2
      exact closed
  | cleanup call => exact cleanup_closed closed step
  | _ =>
    obtain ⟨-, fds, -⟩ := performAccept_acted step
    rw [fds]
    exact closed

end Shared

namespace Process

variable {process : Process} {server : Fd} {mem : Memory} {cache : Ptr} {garbage : Cache}
  {trace : List Label}

/-- `SOCKET_ERROR` is never open. -/
theorem socketError_closed (valid : server ≠ socketError)
    (run : exec next (start server mem cache garbage) trace = some process) :
    process.shared.fds socketError = none := by
  refine exec_induct (motive := fun _ state => state.shared.fds socketError = none) ?_ ?_ run
  · show (if socketError = server then _ else _) = none
    rw [if_neg (Ne.symm valid)]
    rfl
  · intro labels state label after _ closed step
    cases label with
    | acceptor event =>
      obtain ⟨acceptor, shared, -, performed, rfl⟩ := next_acceptor step
      exact Shared.performAccept_closed closed performed
    | thread i event =>
      obtain ⟨thread, handler, shared, -, -, performed, rfl⟩ := next_thread step
      exact Shared.perform_closed closed performed

/-- No request is written to `SOCKET_ERROR`. -/
theorem sound_run (valid : server ≠ socketError)
    (run : exec next (start server mem cache garbage) trace = some process) (i : Nat) :
    ∀ event ∈ eventsOf i trace, event.Sound := by
  intro event member
  obtain ⟨earlier, later, before, after, -, reached, step⟩ :=
    exec_member run (mem_eventsOf.mp member)
  have closed := socketError_closed valid reached
  obtain ⟨thread, handler, shared, -, -, performed, -⟩ := next_thread step
  cases event with
  | write target fd bytes sent =>
    cases target with
    | remote =>
      cases sent with
      | none => trivial
      | some count =>
        simp only [Shared.perform, Option.ite_none_right_eq_some] at performed
        rintro rfl
        exact performed.1.1 closed
    | cached | client => trivial
  | _ => trivial

/-- `push_record` links the record of a handler, or frees it and its response once. -/
theorem push_settles (unused : mem.Unused cache)
    (run : exec next (start server mem cache garbage) trace = some process) {i : Nat}
    {after : Process} (step : process.next (.thread i .push) = some after) :
    ∃ fetch, process.shared.store.pending i = some fetch ∧ (fetch ∈ after.shared.store.linked ∨
      after.shared.store.mem.freed.count fetch.number = 1 ∧
        after.shared.store.mem.freed.count (fetch.number + 1) = 1) := by
  have inv := store_inv unused (exec_snoc.mpr ⟨process, run, step⟩)
  obtain ⟨thread, handler, shared, -, -, performed, rfl⟩ := next_thread step
  rcases Shared.perform_store performed with ⟨quiet, -⟩ | ⟨_, _, _, _, _, other, -⟩ |
    ⟨_, _, other, -⟩ | ⟨fetch, -, pending, pushed, -⟩
  · cases quiet
  · cases other
  · cases other
  · refine ⟨fetch, pending, ?_⟩
    by_cases isLinked : fetch ∈ shared.store.linked
    · exact .inl isLinked
    · have member : fetch ∈ shared.store.pushed := by
        rw [pushed]
        exact List.mem_append_right _ (List.mem_singleton.mpr rfl)
      obtain ⟨record, response⟩ := inv.dropped fetch member isLinked
      exact .inr ⟨Heap.count_freed record, Heap.count_freed response⟩

end Process

open Process

/-- Who frees a request block in a step: a handler by its number, the accept loop as `none`. -/
def freedBy (block : Nat) : Label → List (Option Nat)
  | .thread i (.cleanup (.freeRequest freed)) => if freed = block then [some i] else []
  | .acceptor (.cleanup (.freeRequest freed)) => if freed = block then [none] else []
  | _ => []

/-- The next call frees a request block. -/
def frees (block : Nat) (todo : List Cleanup) : Bool := todo.head? = some (.freeRequest block)

/-- A handler has returned, or frees a request block with its next call. -/
def Handler.Settled (handler : Handler) : Prop :=
  handler.running = false ∨ ∃ block, frees block handler.todo = true

/-- A request block is freed only behind the last program points. -/
theorem Handler.freeing_run {events : List Event} {handler : Handler}
    (run : exec Handler.next Handler.start events = some handler) {block : Nat} :
    .freeRequest block ∈ handler.todo → handler.pc = .ret ∨ handler.pc = .post := by
  refine exec_induct (motive := fun _ handler => .freeRequest block ∈ handler.todo →
    handler.pc = .ret ∨ handler.pc = .post) (fun member => by cases member) ?_ run
  intro events middle event finish _ before step
  cases Handler.step_of_next step with
  | cleanup call rest pc => exact fun member => before (List.mem_cons_of_mem _ member)
  | reload locals other => exact fun _ => .inl rfl
  | push locals dest => exact fun _ => .inr rfl
  | requestFailed locals dest | chunkFailed locals dest stored chunk => exact fun _ => .inl rfl
  | writeCached locals copy sent =>
    intro member
    cases sent <;> simp [afterCached] at member
  | unresolved locals host named | noSocket locals | refused locals dest =>
    intro member
    simp [notConnected] at member
  | _ =>
    intro member
    cases member

namespace Process

/-- The handlers whose next call frees a request block. -/
def freeing (process : Process) (block : Nat) : List Nat :=
  (List.range process.threads.length).filter fun i =>
    (process.threads[i]?).any fun thread => frees block thread.handler.todo

/-- Everybody who has freed a request block or does so with the next call, once for each free. -/
def freers (process : Process) (trace : List Label) (block : Nat) : List (Option Nat) :=
  trace.flatMap (freedBy block) ++ (process.freeing block).map some ++
    if frees block process.acceptor.todo then [none] else []

/-- A handler frees a request block in a step as often as its ledger says. -/
theorem count_freedBy_event (i block : Nat) (event : Event) :
    (freedBy block (.thread i event)).count (some i) =
      Ledger.given (.request block) event.bookings := by
  cases event with
  | cleanup call =>
    cases call with
    | freeRequest freed =>
      by_cases same : freed = block
      · simp [freedBy, Event.bookings, Cleanup.bookings, Ledger.given, same]
      · simp [freedBy, Event.bookings, Cleanup.bookings, Ledger.given, same]
    | free part => cases part <;> rfl
    | close fd | destroyCache => rfl
  | write target fd bytes sent => cases target <;> cases sent <;> rfl
  | getaddrinfo host ok => cases ok <;> rfl
  | _ => rfl

/-- Nobody else frees a request block in this handler's name. -/
theorem count_freedBy_other {i block : Nat} {label : Label}
    (other : ∀ event, label ≠ .thread i event) : (freedBy block label).count (some i) = 0 := by
  rw [List.count_eq_zero]
  unfold freedBy
  split
  · rename_i j freed
    have apart : i ≠ j := fun same => other _ (by rw [same])
    split <;> simp [apart]
  · split <;> simp
  · simp

/-- In a run a handler has freed a request block as often as its ledger says. -/
theorem count_freedBy (i block : Nat) (trace : List Label) :
    (trace.flatMap (freedBy block)).count (some i) =
      Ledger.given (.request block) ((eventsOf i trace).flatMap Event.bookings) := by
  induction trace with
  | nil => rfl
  | cons label rest ih =>
    rw [List.flatMap_cons, List.count_append, ih]
    by_cases mine : ∃ event, label = .thread i event
    · obtain ⟨event, rfl⟩ := mine
      rw [count_freedBy_event, ← Ledger.given_append]
      simp [eventsOf]
    · rw [count_freedBy_other fun event same => mine ⟨event, same⟩, Nat.zero_add]
      cases label with
      | acceptor event => rfl
      | thread j event =>
        have apart : j ≠ i := fun same => mine ⟨event, same ▸ rfl⟩
        simp [eventsOf, apart]

/-- A handler's own next call among those of all. -/
theorem count_freeing {process : Process} {i : Nat} {thread : Thread}
    (here : process.threads[i]? = some thread) (block : Nat) :
    ((process.freeing block).map some).count (some i) =
      (frees block thread.handler.todo).toNat := by
  obtain ⟨inside, rfl⟩ := List.getElem?_eq_some_iff.mp here
  rw [List.count_map_of_injective _ _ (Option.some_injective _)]
  have member : i ∈ process.freeing block ↔
      frees block process.threads[i].handler.todo = true := by
    simp [freeing, inside]
  cases next : frees block process.threads[i].handler.todo with
  | false =>
    refine List.count_eq_zero.mpr fun inList => ?_
    rw [member.mp inList] at next
    cases next
  | true => exact List.count_eq_one_of_mem (List.nodup_range.filter _) (member.mpr next)

/-- The part of a handler in the frees of a request block. -/
theorem count_freers {process : Process} {trace : List Label} {i : Nat} {thread : Thread}
    (here : process.threads[i]? = some thread) (block : Nat) :
    (process.freers trace block).count (some i) =
      Ledger.given (.request block) ((eventsOf i trace).flatMap Event.bookings) +
        (frees block thread.handler.todo).toNat := by
  have accepting :
      (if frees block process.acceptor.todo then [none] else []).count (some i) = 0 := by
    split <;> rfl
  rw [freers, List.count_append, List.count_append, count_freedBy, count_freeing here, accepting,
    Nat.add_zero]

end Process

/-- Nobody but the accept loop allocates a request block: a handler is handed its one. -/
theorem taken_request (block handed : Nat) (events : List Event) (handler : Handler) :
    Ledger.taken (.request block) (bookingsOf handed events ++ handler.pending) =
      if handed = block then 1 else 0 := by
  have calls : .take (.request block) ∉ events.flatMap Event.bookings := by
    rw [List.mem_flatMap]
    rintro ⟨event, -, taken⟩
    unfold Event.bookings at taken
    split at taken
    all_goals try simp at taken
    rename_i call
    cases call <;> simp [Cleanup.bookings] at taken
  have pending : .take (.request block) ∉ handler.pending := by
    rw [Handler.pending, List.mem_flatMap]
    rintro ⟨call, -, taken⟩
    cases call <;> simp [Cleanup.bookings] at taken
  rw [Ledger.taken_append, Ledger.taken_eq_zero pending, bookingsOf, ← List.singleton_append,
    Ledger.taken_append, Ledger.taken_eq_zero calls]
  simp [Ledger.taken, List.count_singleton]

open Process

/-- In every run a handler that has returned or frees a request block next has a balanced ledger if
and only if its response came from the cache, was written, and `ctx` held the request it was handed
when that was freed. -/
theorem ledger_balanced_iff {server : Fd} {mem : Memory} {cache : Ptr} {garbage : Cache}
    {trace : List Label} {process : Process} {i : Nat} {thread : Thread} (handed : Nat)
    (valid : server ≠ socketError)
    (run : exec next (start server mem cache garbage) trace = some process)
    (here : process.threads[i]? = some thread) (settled : thread.handler.Settled) :
    ((ledgerOf handed (eventsOf i trace)).bookAll thread.handler.pending).Balanced ↔
      Outcomes.of (eventsOf i trace) = ⟨true, true, some handed⟩ := by
  have own := handler_run run here
  have books := Handler.books_run handed own (sound_run valid run i)
  generalize (ledgerOf handed (eventsOf i trace)).bookAll thread.handler.pending = ledger at books ⊢
  have last : ((Outcomes.of (eventsOf i trace)).reloaded = none ∧ ∃ block, block ∈ ledger.live) ∨
      ∃ block, Outcomes.of (eventsOf i trace) = ⟨true, true, some block⟩ ∧
        ledger = Ledger.book ⟨[.request handed], []⟩ (.give (.request block)) := by
    rcases settled with returned | ⟨block, next⟩
    · rw [Handler.done_of_returned returned] at books
      exact books
    · have member : .freeRequest block ∈ thread.handler.todo :=
        List.mem_of_mem_head? (by simpa [frees] using next)
      rcases Handler.freeing_run own member with isRet | isPost
      · rw [isRet] at books
        exact books
      · rw [isPost] at books
        exact .inl ⟨books.1, .addrinfo, books.2⟩
  rcases last with ⟨unloaded, block, live⟩ | ⟨block, outcomes, rfl⟩
  · refine iff_of_false (Ledger.not_balanced live) fun outcomes => ?_
    rw [outcomes] at unloaded
    cases unloaded
  · rw [outcomes]
    by_cases same : block = handed
    · subst same
      exact iff_of_true (by simp [Ledger.book, Ledger.Balanced]) rfl
    · refine iff_of_false ?_ fun outcomes => ?_
      · simp [Ledger.book, Ledger.Balanced, same]
      · exact same (Option.some.inj (congrArg Outcomes.reloaded outcomes))

/-- A handler with a balanced ledger has freed the block it was handed once, or does so next. -/
theorem count_freers_of_balanced {process : Process} {i : Nat} {thread : Thread}
    (trace : List Label) (handed : Nat) (here : process.threads[i]? = some thread)
    (settled : thread.handler.Settled)
    (todo : thread.handler.running = false → thread.handler.todo = []) (balanced :
      ((ledgerOf handed (eventsOf i trace)).bookAll thread.handler.pending).Balanced) :
    (process.freers trace handed).count (some i) = 1 := by
  have given (block : Nat) :
      Ledger.given (.request block) ((eventsOf i trace).flatMap Event.bookings) +
        Ledger.given (.request block) thread.handler.pending = if handed = block then 1 else 0 := by
    rw [← taken_request block handed (eventsOf i trace) thread.handler]
    rw [ledgerOf, ← Ledger.bookAll_append] at balanced
    rw [← balanced.given_eq, Ledger.given_append]
    rfl
  rw [count_freers here]
  have mine := given handed
  rw [if_pos rfl] at mine
  rcases settled with returned | ⟨block, next⟩
  · rw [Handler.pending, todo returned] at mine
    rw [todo returned]
    exact mine
  · have isHead : thread.handler.todo.head? = some (.freeRequest block) := by
      simpa [frees] using next
    have pending : 0 < Ledger.given (.request block) thread.handler.pending :=
      Ledger.given_pos (List.mem_flatMap.mpr
        ⟨_, List.mem_of_mem_head? isHead, List.mem_singleton.mpr rfl⟩)
    have same : handed = block := by
      by_contra apart
      have total := given block
      rw [if_neg apart] at total
      omega
    subst same
    rw [next, Bool.toNat_true]
    omega

/-- Every block of a handler is freed exactly once, but for a record that is linked in the cache. -/
structure Accounted (first process : Process) (trace : List Label) (i : Nat) (thread : Thread) :
    Prop where
  /-- Nothing is live, and nothing was freed that was not. -/
  ledger : ((ledgerOf thread.client.request (eventsOf i trace)).bookAll
    thread.handler.pending).Balanced
  /-- Every block was freed as often as it was allocated or handed over. -/
  freed : ∀ block, Ledger.given block (bookingsOf thread.client.request (eventsOf i trace) ++
    thread.handler.pending) = Ledger.taken block
      (bookingsOf thread.client.request (eventsOf i trace) ++ thread.handler.pending)
  /-- The request was freed once, whoever did it, and nobody is about to free it again. -/
  request : (process.freers trace thread.client.request).length = 1
  /-- A record given to `push_record` is linked, or freed once with its response. -/
  pushed : ∀ earlier later before after, trace = earlier ++ .thread i .push :: later →
    exec next first earlier = some before → before.next (.thread i .push) = some after →
      ∃ fetch, before.shared.store.pending i = some fetch ∧ (fetch ∈ after.shared.store.linked ∨
        after.shared.store.mem.freed.count fetch.number = 1 ∧
          after.shared.store.mem.freed.count (fetch.number + 1) = 1)

/-- A handler is served from the cache, and the request of its client is its own to free. -/
structure Served (process : Process) (trace : List Label) (i : Nat) (thread : Thread) : Prop where
  /-- The lookup was a hit. -/
  hit : (Outcomes.of (eventsOf i trace)).hit = true
  /-- The cached response was written. -/
  written : (Outcomes.of (eventsOf i trace)).written = true
  /-- `ctx` held the request of the handler's own client when it was read for
  `free(ctx->request)`. -/
  reloaded : (Outcomes.of (eventsOf i trace)).reloaded = some thread.client.request
  /-- No other handler has freed that request or is about to. -/
  alone : ∀ freer ∈ process.freers trace thread.client.request, freer = some i

/-- In every run a handler that has returned or frees a request block next has its blocks freed
exactly once if and only if its response came from the cache, was written, `ctx` held the request
of its own client when that was freed, and no other handler frees that request. -/
theorem accounted_iff {server : Fd} {mem : Memory} {cache : Ptr} {garbage : Cache}
    {trace : List Label} {process : Process} {i : Nat} {thread : Thread} (unused : mem.Unused cache)
    (valid : server ≠ socketError)
    (run : exec next (start server mem cache garbage) trace = some process)
    (here : process.threads[i]? = some thread) (settled : thread.handler.Settled) :
    Accounted (start server mem cache garbage) process trace i thread ↔
      Served process trace i thread := by
  have balanced := ledger_balanced_iff thread.client.request valid run here settled
  have own := count_freers_of_balanced trace thread.client.request here settled
    (Handler.todo_of_done (handler_run run here))
  constructor
  · intro accounted
    have outcomes := balanced.mp accounted.ledger
    have alone : ∀ freer ∈ process.freers trace thread.client.request, some i = freer :=
      List.count_eq_length.mp ((own accounted.ledger).trans accounted.request.symm)
    exact
      { hit := congrArg Outcomes.hit outcomes
        written := congrArg Outcomes.written outcomes
        reloaded := congrArg Outcomes.reloaded outcomes
        alone := fun freer member => (alone freer member).symm }
  · intro served
    have ledger := balanced.mpr (Outcomes.ext served.hit served.written served.reloaded)
    refine ⟨ledger, ?_, ?_, ?_⟩
    · rw [ledgerOf, ← Ledger.bookAll_append] at ledger
      exact ledger.given_eq
    · have alone : ∀ freer ∈ process.freers trace thread.client.request, some i = freer :=
        fun freer member => (served.alone freer member).symm
      rw [← List.count_eq_length.mpr alone]
      exact own ledger
    · intro earlier later before after _ reached step
      exact push_settles unused reached step

/-- Two clients are accepted before their handlers read `ctx`, so both read the second one's data;
the request is in the cache, and the first handler frees it. -/
def slotOverwritten : List Label :=
  served 0 ⟨4, 0⟩ [65] 2 5 [104, 105] ++ acceptOne ⟨4, 1⟩ (requestFor [65]).bytes ++
    acceptOne ⟨5, 2⟩ (requestFor [65]).bytes ++
    lookUp 1 ⟨5, 2⟩ (requestFor [65]) (some [104, 105]) ++
    lookUp 2 ⟨5, 2⟩ (requestFor [65]) (some [104, 105]) ++
    [.thread 1 (.write .cached 5 [104, 105] (some 2)), .thread 1 (.cleanup (.free .cacheRecord)),
      .thread 2 (.write .cached 5 [104, 105] (some 2)), .thread 2 (.cleanup (.free .cacheRecord)),
      .thread 1 (.cleanup (.close 5)), .thread 1 (.reload 2), .thread 1 (.cleanup (.freeRequest 2)),
      .thread 2 (.cleanup (.close 5)), .thread 2 (.reload 2)]

/-- Nobody frees the first client's request, and the second one's is about to be freed twice. -/
example : (exec next (start 3 Heap.empty 1 ⟨7, 0, 0, 0⟩) slotOverwritten).map
    (fun process => [1, 2].map (process.freers slotOverwritten)) = some [[], [some 1, some 2]] := by
  decide +kernel

/-- A client is served from the remote server and the next one from the cache. -/
def servedTwice : List Label :=
  served 0 ⟨4, 0⟩ [65] 2 5 [104, 105] ++ acceptOne ⟨4, 1⟩ (requestFor [65]).bytes ++
    lookUp 1 ⟨4, 1⟩ (requestFor [65]) (some [104, 105]) ++
    [.thread 1 (.write .cached 4 [104, 105] (some 2)), .thread 1 (.cleanup (.free .cacheRecord)),
      .thread 1 (.cleanup (.close 4)), .thread 1 (.reload 1), .thread 1 (.cleanup (.freeRequest 1)),
      .thread 1 (.cleanup (.close 4)), .thread 1 .ret]

/-- Both handlers return, and the second one has freed its client's request. -/
theorem servedTwice_run : ∃ process first second,
    exec next (start 3 Heap.empty 1 ⟨7, 0, 0, 0⟩) servedTwice = some process ∧
      process.threads = [first, second] ∧
        (first.client = ⟨4, 0⟩ ∧ first.handler.running = false) ∧
          (second.client = ⟨4, 1⟩ ∧ second.handler.running = false) ∧
            process.freers servedTwice 1 = [some 1] := by
  have outcome : (exec next (start 3 Heap.empty 1 ⟨7, 0, 0, 0⟩) servedTwice).map
      (fun process => (process.threads.map fun thread => (thread.client, thread.handler.running),
        process.freers servedTwice 1)) =
      some ([(⟨4, 0⟩, false), (⟨4, 1⟩, false)], [some 1]) := by
    decide +kernel
  obtain ⟨process, run, ends⟩ := Option.map_eq_some_iff.mp outcome
  obtain ⟨threads, freers⟩ := Prod.mk.inj ends
  obtain ⟨first, rest, here, one, later⟩ := List.map_eq_cons_iff.mp threads
  obtain ⟨second, rfl, two⟩ := List.map_eq_singleton_iff.mp later
  exact ⟨process, first, second, run, here, Prod.mk.inj one, Prod.mk.inj two, freers⟩

/-- The handler that served from the cache has freed its blocks. -/
theorem accounted_hit : ∃ process thread,
    exec next (start 3 Heap.empty 1 ⟨7, 0, 0, 0⟩) servedTwice = some process ∧
      process.threads[1]? = some thread ∧ thread.handler.running = false ∧
        Accounted (start 3 Heap.empty 1 ⟨7, 0, 0, 0⟩) process servedTwice 1 thread := by
  obtain ⟨process, first, second, run, threads, -, ⟨client, returned⟩, freers⟩ := servedTwice_run
  have here : process.threads[1]? = some second := by
    rw [threads]
    rfl
  refine ⟨process, second, run, here, returned, ?_⟩
  refine (accounted_iff (by decide) (by decide) run here (.inl returned)).mpr ?_
  refine ⟨rfl, rfl, ?_, ?_⟩
  · rw [client]
    rfl
  · rw [client, freers]
    exact fun freer member => List.mem_singleton.mp member

/-- The handler that missed has lost `cache_record`. -/
theorem accounted_miss :
    ¬∀ (trace : List Label) (process : Process) (i : Nat) (thread : Thread),
      exec next (start 3 Heap.empty 1 ⟨7, 0, 0, 0⟩) trace = some process →
        process.threads[i]? = some thread → thread.handler.running = false →
          Accounted (start 3 Heap.empty 1 ⟨7, 0, 0, 0⟩) process trace i thread := by
  intro claim
  obtain ⟨process, first, second, run, threads, ⟨client, returned⟩, -⟩ := servedTwice_run
  have here : process.threads[0]? = some first := by
    rw [threads]
    rfl
  have accounted := claim servedTwice process 0 first run here returned
  have idle : first.handler.pending = [] := by
    rw [Handler.pending, Handler.todo_of_done (handler_run run here) returned]
    rfl
  have balanced := accounted.ledger
  rw [idle, client] at balanced
  have live : .cacheRecord ∈ (ledgerOf 0 (eventsOf 0 servedTwice)).live := by
    decide +kernel
  exact Ledger.not_balanced live balanced

end NsuOs.Proxy
