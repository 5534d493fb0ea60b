import NsuOs.Proxy.System

/-!
# The stack slot `ctx`

The accept loop passes every handler the address of one slot and fills it again for the next
client. A handler that reads the slot before the loop has filled it for somebody else gets its
own client; in a run in which every handler does, the handler created for a client works on that
client's socket and request from its first step to its last, and every request that was read has
one handler.
-/
namespace NsuOs.Proxy

open NsuOs.Run

/-- The request a step reads from a client. -/
def receivedBy : Label → List (Context × CString)
  | .acceptor (.read client (some (byte :: rest))) => [(client, CString.ofBytes (byte :: rest))]
  | _ => []

/-- The requests read in a run, in the order of their clients. -/
def received (trace : List Label) : List (Context × CString) := trace.flatMap receivedBy

/-- Handlers read no requests from clients. -/
@[simp] theorem receivedBy_thread (i : Nat) (event : Event) : receivedBy (.thread i event) = [] :=
  rfl

/-- One more step adds the request it reads. -/
theorem received_snoc (trace : List Label) (label : Label) :
    received (trace ++ [label]) = received trace ++ receivedBy label := by
  simp [received]

/-- The client that waits for its handler. -/
def Acceptor.waiting (acceptor : Acceptor) : List Context :=
  match acceptor.pc with
  | .semWait client | .store client | .create client => [client]
  | _ => []

/-- The slot is filled for a client whose handler does not exist yet. -/
def Acceptor.refilled (acceptor : Acceptor) : Bool :=
  match acceptor.pc with
  | .create _ => true
  | _ => false

/-- The call is on this client's socket and with this client's request. -/
def Own (client : Context) (text : CString) : Event → Prop
  | .loadSocket fd => fd = client.clientSocket
  | .loadRequest block => block = client.request
  | .reload block => block = client.request
  | .strcpy block copied _ => block = client.request ∧ copied = text
  | .find req _ => req = text
  | .fetch block keyed _ _ _ => block = client.request ∧ keyed = text
  | .write .remote _ bytes _ => bytes = text.bytes
  | .write .cached fd _ _ => fd = client.clientSocket
  | .write .client fd _ _ => fd = client.clientSocket
  | _ => True

/-- What comes back from memory shared with others is this client's. -/
def ReadsOwn (client : Context) (text : CString) : Event → Prop
  | .loadSocket fd => fd = client.clientSocket
  | .loadRequest block => block = client.request
  | .reload block => block = client.request
  | .strcpy block copied _ => block = client.request → copied = text
  | .fetch block keyed _ _ _ => block = client.request → keyed = text
  | _ => True

/-- The variables a program point carries. -/
def Pc.locals : Pc → Option Locals
  | .find locals | .writeCached locals _ | .reload locals | .fetch locals | .getaddrinfo locals
  | .socket locals | .connect locals _ | .writeRequest locals _ | .read locals _ _
  | .writeClient locals _ _ _ | .addResponse locals _ _ _ | .push locals _ => some locals
  | _ => none

/-- The variables hold this client's socket and request. -/
structure Locals.Of (client : Context) (text : CString) (locals : Locals) : Prop where
  /-- The socket. -/
  clientSocket : locals.clientSocket = client.clientSocket
  /-- The request block. -/
  request0 : locals.request0 = client.request
  /-- The copy of the request. -/
  request : locals.request = text

/-- What the handler has read so far is this client's. -/
def Pc.Of (client : Context) (text : CString) : Pc → Prop
  | .loadRequest fd => fd = client.clientSocket
  | .strcpy fd block => fd = client.clientSocket ∧ block = client.request
  | pc => ∀ locals, pc.locals = some locals → locals.Of client text

/-- A handler that reads its own client's data goes on working for its own client. -/
theorem Handler.Step.own {handler after : Handler} {event : Event} {client : Context}
    {text : CString} (step : Handler.Step handler event after) (works : handler.pc.Of client text)
    (reads : ReadsOwn client text event) : after.pc.Of client text ∧ Own client text event := by
  cases step
  case cleanup => exact ⟨works, trivial⟩
  case loadSocket => exact ⟨reads, reads⟩
  case loadRequest => exact ⟨⟨works, reads⟩, reads⟩
  case strcpy fd block copied stack fits =>
    have same : copied = text := reads works.2
    refine ⟨?_, works.2, same⟩
    intro locals isLocals
    obtain rfl := Option.some.inj isLocals
    exact ⟨works.1, works.2, same⟩
  case reload => exact ⟨nofun, reads⟩
  case fetch locals keyed record response garbage =>
    have mine := works locals rfl
    exact ⟨works, mine.request0, reads mine.request0⟩
  case miss locals => exact ⟨works, (works locals rfl).request⟩
  case hit locals copy => exact ⟨works, (works locals rfl).request⟩
  case writeCached locals copy sent =>
    refine ⟨?_, (works locals rfl).clientSocket⟩
    cases sent with
    | none => exact works
    | some count => exact works
  case requestFailed locals dest =>
    exact ⟨nofun, congrArg CString.bytes (works locals rfl).request⟩
  case requestSent locals dest count =>
    exact ⟨works, congrArg CString.bytes (works locals rfl).request⟩
  case chunkFailed locals dest stored chunk => exact ⟨nofun, (works locals rfl).clientSocket⟩
  case chunkSent locals dest stored chunk count => exact ⟨works, (works locals rfl).clientSocket⟩
  case push | post | ret => exact ⟨nofun, trivial⟩
  all_goals exact ⟨works, trivial⟩

namespace Process

variable {process after : Process} {server : Fd} {mem : Memory} {cache : Ptr} {garbage : Cache}
  {trace : List Label}

/-- The request blocks of a run: every request has a block of its own, which holds its text until
it is freed. -/
structure Blocks (received : List (Context × CString)) (process : Process) : Prop where
  /-- The blocks of received requests are allocated. -/
  inside : ∀ entry ∈ received, entry.1.request < process.shared.requests.length
  /-- A block about to be filled is the last one and nobody else's. -/
  filling : ∀ client, process.acceptor.pc = .read client →
    client.request + 1 = process.shared.requests.length ∧
      ∀ entry ∈ received, entry.1.request < client.request
  /-- A block holds the text read into it. -/
  text : ∀ entry ∈ received, ∀ text, process.shared.Holds entry.1.request text → text = entry.2
  /-- No two requests share a block. -/
  apart : (received.map (·.1.request)).Nodup

/-- Nothing changes for the blocks while nobody reads or allocates. -/
theorem Blocks.frame {received : List (Context × CString)} (blocks : Blocks received process)
    (length : after.shared.requests.length = process.shared.requests.length)
    (holds : ∀ block text, after.shared.Holds block text → process.shared.Holds block text)
    (filling : ∀ client, after.acceptor.pc = .read client →
      process.acceptor.pc = .read client) : Blocks received after where
  inside entry member := by
    rw [length]
    exact blocks.inside entry member
  filling client here := by
    rw [length]
    exact blocks.filling client (filling client here)
  text entry member text here := blocks.text entry member text (holds _ _ here)
  apart := blocks.apart

/-- Allocating a block for the next client. -/
theorem Blocks.accept {received : List (Context × CString)} (blocks : Blocks received process)
    {client : Context} (last : client.request = process.shared.requests.length)
    (requests : after.shared.requests =
      process.shared.requests ++ [some (CString.ofBytes [])])
    (reading : after.acceptor.pc = .read client) : Blocks received after where
  inside entry member := by
    have old := blocks.inside entry member
    rw [requests, List.length_append]
    omega
  filling other here := by
    obtain rfl := AcceptPc.read.inj (reading.symm.trans here)
    rw [requests, List.length_append, last]
    exact ⟨rfl, blocks.inside⟩
  text entry member text here := by
    have old := blocks.inside entry member
    rw [Shared.Holds, requests, List.getElem?_append_left old] at here
    exact blocks.text entry member text here
  apart := blocks.apart

/-- Filling the block of the client whose request is read. -/
theorem Blocks.receive {received : List (Context × CString)} (blocks : Blocks received process)
    {client : Context} {text : CString} (reading : process.acceptor.pc = .read client)
    (requests : after.shared.requests = process.shared.requests.set client.request (some text))
    (read : ∀ other, after.acceptor.pc ≠ .read other) :
    Blocks (received ++ [(client, text)]) after := by
  obtain ⟨last, older⟩ := blocks.filling client reading
  exact
    { inside := by
        intro entry member
        rw [requests, List.length_set]
        rcases List.mem_append.mp member with old | new
        · exact blocks.inside entry old
        · rw [List.mem_singleton.mp new]
          dsimp only
          omega
      filling := fun other here => absurd here (read other)
      text := by
        intro entry member text' here
        rw [Shared.Holds, requests, List.getElem?_set] at here
        rcases List.mem_append.mp member with old | new
        · have apart : client.request ≠ entry.1.request := Nat.ne_of_gt (older entry old)
          rw [if_neg apart] at here
          exact blocks.text entry old text' here
        · rw [List.mem_singleton.mp new] at here ⊢
          rw [if_pos rfl, if_pos (by omega)] at here
          exact (Option.some.inj (Option.some.inj here)).symm
      apart := by
        rw [List.map_append, List.map_singleton]
        refine List.nodup_append.mpr ⟨blocks.apart, List.nodup_singleton _, ?_⟩
        intro block old block' new same
        obtain ⟨entry, member, rfl⟩ := List.mem_map.mp old
        have before := older entry member
        rw [List.mem_singleton.mp new] at same
        dsimp only at same
        omega }

/-- Every step of the accept loop keeps the blocks. -/
theorem Blocks.acceptor {received : List (Context × CString)} (blocks : Blocks received process)
    {event : AcceptEvent} (step : process.next (.acceptor event) = some after) :
    Blocks (received ++ receivedBy (.acceptor event)) after := by
  obtain ⟨acceptor, shared, moved, performed, rfl⟩ := next_acceptor step
  obtain ⟨before, ⟨server, todo, pc⟩, threads⟩ := process
  have advance := Acceptor.step_of_next moved
  dsimp only at advance performed
  cases advance with
  | cleanup call rest pc =>
    obtain ⟨length, holds⟩ := Shared.cleanup_requests performed
    simp only [receivedBy, List.append_nil]
    exact blocks.frame length holds fun client here => here
  | accepted client =>
    simp only [Shared.performAccept, Option.ite_none_right_eq_some] at performed
    obtain ⟨last, opening⟩ := performed
    obtain ⟨-, rfl⟩ := Shared.opened_eq_some.mp opening
    simp only [receivedBy, List.append_nil]
    exact blocks.accept last rfl rfl
  | received client byte rest short =>
    simp only [Shared.performAccept, Option.ite_none_right_eq_some, Option.some.injEq] at performed
    obtain ⟨-, rfl⟩ := performed
    exact blocks.receive rfl rfl fun other reading => by cases reading
  | unreadable client got empty =>
    simp only [Shared.performAccept, Option.ite_none_right_eq_some] at performed
    rcases empty with rfl | rfl
    all_goals
      obtain rfl := Option.some.inj performed.2
      simp only [receivedBy, List.append_nil]
      exact blocks.frame rfl (fun _ _ holds => holds) fun other reading => by cases reading
  | semWait client =>
    simp only [Shared.performAccept, Option.ite_none_right_eq_some, Option.some.injEq] at performed
    obtain ⟨-, rfl⟩ := performed
    simp only [receivedBy, List.append_nil]
    exact blocks.frame rfl (fun _ _ holds => holds) fun other reading => by cases reading
  | refused | store | created | uncreated | exit =>
    obtain rfl := Option.some.inj performed
    simp only [receivedBy, List.append_nil]
    exact blocks.frame rfl (fun _ _ holds => holds) fun other reading => by cases reading

/-- The request blocks along every run. -/
theorem blocks_run (run : exec next (start server mem cache garbage) trace = some process) :
    Blocks (received trace) process := by
  refine exec_induct (motive := fun labels state => Blocks (received labels) state) ?_ ?_ run
  · exact
      { inside := fun entry member => nomatch member
        filling := nofun
        text := fun entry member => nomatch member
        apart := List.nodup_nil }
  · intro labels middle label finish _ blocks step
    rw [received_snoc]
    cases label with
    | acceptor event => exact blocks.acceptor step
    | thread i event =>
      obtain ⟨thread, handler, shared, -, -, performed, rfl⟩ := next_thread step
      obtain ⟨length, holds⟩ := Shared.perform_requests performed
      rw [receivedBy_thread, List.append_nil]
      exact blocks.frame length holds fun client here => here

/-- The handler created for each client works on that client's socket and request, and every
request that was read has one handler, or waits for it in the accept loop. -/
structure Handled (process : Process) (trace : List Label) : Prop where
  /-- The handlers work on the requests in the order in which these were read. -/
  each : ∀ i thread, process.threads[i]? = some thread → ∃ text,
    (received trace)[i]? = some (thread.client, text) ∧
      ∀ event ∈ eventsOf i trace, Own thread.client text event
  /-- No request is left without a handler. -/
  all : (received trace).length = process.threads.length + process.acceptor.waiting.length
  /-- No request is handled twice. -/
  apart : ((received trace).map (·.1.request)).Nodup

/-- A handler reads `ctx` while it is the newest one and the slot is not filled again, and every
`pthread_create` succeeds. -/
def timely (process : Process) : Label → Bool
  | .thread i (.loadSocket _) | .thread i (.loadRequest _) | .thread i (.reload _) =>
    i + 1 = process.threads.length && !process.acceptor.refilled
  | .acceptor (.create err) => err = 0
  | _ => true

/-- What holds along a run in which every handler reads `ctx` in time. -/
structure Handing (process : Process) (trace : List Label) : Prop where
  /-- The slot holds the client whose handler is about to be created. -/
  filled : ∀ client, process.acceptor.pc = .create client → process.shared.ctx = some client
  /-- Otherwise it holds the client of the newest handler. -/
  slot : process.acceptor.refilled = false → ∀ client,
    (process.threads.map Thread.client).getLast? = some client → process.shared.ctx = some client
  /-- Handlers are created for the clients in their order. -/
  clients : (received trace).map Prod.fst =
    process.threads.map Thread.client ++ process.acceptor.waiting
  /-- Every handler works for its own client. -/
  works : ∀ i thread text, process.threads[i]? = some thread →
    (received trace)[i]? = some (thread.client, text) →
      thread.handler.pc.Of thread.client text ∧
        ∀ event ∈ eventsOf i trace, Own thread.client text event

/-- A handler's step changes no client. -/
theorem clients_moved {threads : List Thread} {i : Nat} {thread : Thread}
    (here : threads[i]? = some thread) (handler : Handler) :
    (threads.set i { thread with handler := handler }).map Thread.client =
      threads.map Thread.client := by
  refine List.ext_getElem? fun j => ?_
  rw [List.getElem?_map, List.getElem?_map]
  cases there : (threads.set i { thread with handler := handler })[j]? with
  | none =>
    have beyond := List.getElem?_eq_none_iff.mp there
    rw [List.length_set] at beyond
    rw [List.getElem?_eq_none beyond]
  | some moved =>
    rcases thread_moved there with ⟨rfl, rfl⟩ | ⟨-, old⟩
    · rw [here]
      rfl
    · rw [old]

/-- A handler that reads in time reads its own client's data. -/
theorem Handing.readsOwn (handing : Handing process trace)
    (blocks : Blocks (received trace) process) {i : Nat} {thread : Thread} {text : CString}
    {event : Event} {shared : Shared} (here : process.threads[i]? = some thread)
    (entry : (received trace)[i]? = some (thread.client, text))
    (inTime : timely process (.thread i event) = true)
    (performed : process.shared.perform i event = some shared) :
    ReadsOwn thread.client text event := by
  have loaded : i + 1 = process.threads.length ∧ process.acceptor.refilled = false →
      process.shared.ctx = some thread.client := by
    rintro ⟨newest, notRefilled⟩
    refine handing.slot notRefilled thread.client ?_
    rw [List.getLast?_eq_getElem?, List.length_map, ← newest, Nat.add_sub_cancel,
      List.getElem?_map, here, Option.map_some]
  have member := List.mem_of_getElem? entry
  cases event with
  | loadSocket | loadRequest | reload =>
    simp only [timely, Bool.and_eq_true, decide_eq_true_eq, Bool.not_eq_true'] at inTime
    simp only [Shared.perform, loaded inTime, Option.map_some, Option.some.injEq,
      Option.ite_none_right_eq_some] at performed
    exact performed.1.symm
  | strcpy | fetch =>
    rintro rfl
    simp only [Shared.perform, Option.ite_none_right_eq_some] at performed
    exact blocks.text _ member _ performed.1
  | _ => trivial

/-- The handlers' requests are among those received. -/
theorem Handing.length_le (handing : Handing process trace) :
    process.threads.length ≤ (received trace).length := by
  have lengths := congrArg List.length handing.clients
  simp only [List.length_map, List.length_append] at lengths
  omega

/-- A step of the accept loop leaves the handlers as they are, and a handler it creates has read
nothing yet. -/
theorem Handing.works_after (handing : Handing process trace)
    (run : exec next (start server mem cache garbage) trace = some process) (event : AcceptEvent)
    (i : Nat) (thread : Thread) (text : CString)
    (here : (process.threads ++ process.acceptor.created event)[i]? = some thread)
    (entry : (received (trace ++ [.acceptor event]))[i]? = some (thread.client, text)) :
    thread.handler.pc.Of thread.client text ∧
      ∀ event' ∈ eventsOf i (trace ++ [.acceptor event]), Own thread.client text event' := by
  rw [eventsOf_acceptor]
  rcases thread_appended here with old | ⟨rfl, -, client, -, rfl⟩
  · have inside := (List.getElem?_eq_some_iff.mp old).1
    have length := handing.length_le
    rw [received_snoc, List.getElem?_append_left (by omega)] at entry
    exact handing.works i thread text old entry
  · rw [eventsOf_uncreated run (Nat.le_refl _)]
    exact ⟨nofun, fun event' member => nomatch member⟩

/-- Steps of the accept loop that neither read a request, nor fill the slot, nor create a
handler. -/
theorem Handing.quiet (handing : Handing process trace)
    (run : exec next (start server mem cache garbage) trace = some process) {event : AcceptEvent}
    {shared : Shared} {acceptor : Acceptor} (uncreated : process.acceptor.created event = [])
    (ctx : shared.ctx = process.shared.ctx) (none : receivedBy (.acceptor event) = [])
    (waiting : acceptor.waiting = process.acceptor.waiting)
    (create : ∀ client, acceptor.pc = .create client → process.acceptor.pc = .create client)
    (refilled : acceptor.refilled = process.acceptor.refilled) :
    Handing ⟨shared, acceptor, process.threads ++ process.acceptor.created event⟩
      (trace ++ [.acceptor event]) where
  filled client here := ctx.trans (handing.filled client (create client here))
  slot notRefilled client last := by
    rw [uncreated, List.append_nil] at last
    exact ctx.trans (handing.slot (refilled ▸ notRefilled) client last)
  clients := by
    rw [received_snoc, none, List.append_nil, uncreated, List.append_nil, waiting]
    exact handing.clients
  works := handing.works_after run event

/-- Every step of the accept loop keeps the handlers with their clients. -/
theorem Handing.acceptor (handing : Handing process trace)
    (run : exec next (start server mem cache garbage) trace = some process) {event : AcceptEvent}
    (inTime : timely process (.acceptor event) = true)
    (step : process.next (.acceptor event) = some after) :
    Handing after (trace ++ [.acceptor event]) := by
  obtain ⟨acceptor, shared, moved, performed, rfl⟩ := next_acceptor step
  have works := handing.works_after run event
  obtain ⟨before, ⟨listening, todo, pc⟩, threads⟩ := process
  have advance := Acceptor.step_of_next moved
  dsimp only at advance performed works
  cases advance with
  | cleanup call rest pc =>
    have frame := Shared.cleanup_frame performed
    exact handing.quiet run (by simp [Acceptor.created]) frame.2.1 rfl rfl
      (fun client here => here) rfl
  | refused =>
    obtain rfl := Option.some.inj performed
    exact handing.quiet run rfl rfl rfl rfl nofun rfl
  | accepted client =>
    simp only [Shared.performAccept, Option.ite_none_right_eq_some] at performed
    obtain ⟨-, rfl⟩ := Shared.opened_eq_some.mp performed.2
    exact handing.quiet run rfl rfl rfl rfl nofun rfl
  | unreadable client got empty =>
    simp only [Shared.performAccept, Option.ite_none_right_eq_some] at performed
    rcases empty with rfl | rfl
    all_goals
      obtain rfl := Option.some.inj performed.2
      exact handing.quiet run rfl rfl rfl rfl nofun rfl
  | semWait client =>
    simp only [Shared.performAccept, Option.ite_none_right_eq_some, Option.some.injEq] at performed
    obtain ⟨-, rfl⟩ := performed
    exact handing.quiet run rfl rfl rfl rfl nofun rfl
  | exit =>
    obtain rfl := Option.some.inj performed
    exact handing.quiet run rfl rfl rfl rfl nofun rfl
  | uncreated client => exact nomatch inTime
  | store client =>
    obtain rfl := Option.some.inj performed
    have clients : (received trace).map Prod.fst = threads.map Thread.client ++ [client] :=
      handing.clients
    exact
      { filled := fun other here => congrArg some (AcceptPc.create.inj here)
        slot := nofun
        clients := by
          rw [received_snoc, List.map_append, clients]
          simp [receivedBy, Acceptor.created, Acceptor.waiting]
        works := works }
  | received client byte rest short =>
    simp only [Shared.performAccept, Option.ite_none_right_eq_some, Option.some.injEq] at performed
    obtain ⟨-, rfl⟩ := performed
    have clients : (received trace).map Prod.fst = threads.map Thread.client ++ [] :=
      handing.clients
    have slot := handing.slot rfl
    exact
      { filled := nofun
        slot := fun _ other last => slot other (by simpa [Acceptor.created] using last)
        clients := by
          rw [received_snoc, List.map_append, clients]
          simp [receivedBy, Acceptor.created, Acceptor.waiting]
        works := works }
  | created client err passed =>
    obtain rfl := Option.some.inj performed
    have success : err = 0 := by simpa [timely] using inTime
    have clients : (received trace).map Prod.fst = threads.map Thread.client ++ [client] :=
      handing.clients
    have filled : before.ctx = some client := handing.filled client rfl
    exact
      { filled := nofun
        slot := by
          intro _ other last
          rw [filled]
          simpa [Acceptor.created, success] using last
        clients := by
          rw [received_snoc, List.map_append, clients]
          simp [receivedBy, Acceptor.created, Acceptor.waiting, success]
        works := works }

/-- A handler that reads in time keeps working for its client, and the others are not affected. -/
theorem Handing.thread (handing : Handing process trace) (blocks : Blocks (received trace) process)
    {i : Nat} {event : Event} (inTime : timely process (.thread i event) = true)
    (step : process.next (.thread i event) = some after) :
    Handing after (trace ++ [.thread i event]) := by
  obtain ⟨thread, handler, shared, here, moved, performed, rfl⟩ := next_thread step
  have ctx := (Shared.perform_frame performed).2.1
  have same := clients_moved here handler
  have quiet : received (trace ++ [.thread i event]) = received trace := by
    rw [received_snoc, receivedBy_thread, List.append_nil]
  exact
    { filled := fun client there => ctx.trans (handing.filled client there)
      slot := by
        intro notRefilled client last
        rw [same] at last
        exact ctx.trans (handing.slot notRefilled client last)
      clients := by
        rw [quiet, same]
        exact handing.clients
      works := by
        intro j other text there entry
        rw [quiet] at entry
        rcases thread_moved there with ⟨rfl, rfl⟩ | ⟨apart, old⟩
        · obtain ⟨works, own⟩ := handing.works j thread text here entry
          have reads := handing.readsOwn blocks here entry inTime performed
          obtain ⟨works', own'⟩ := (Handler.step_of_next moved).own works reads
          refine ⟨works', fun event' member => ?_⟩
          rw [eventsOf_self] at member
          rcases List.mem_append.mp member with before | now
          · exact own event' before
          · rw [List.mem_singleton.mp now]
            exact own'
        · rw [eventsOf_other trace event apart.symm]
          exact handing.works j other text old entry }

/-- Before the first step there is nothing to hand over. -/
theorem handing_start : Handing (start server mem cache garbage) [] where
  filled := nofun
  slot _ client last := nomatch last
  clients := rfl
  works i thread text here := by simp [start] at here

/-- A step in time keeps the handlers with their clients. -/
theorem Handing.next (handing : Handing process trace)
    (run : exec next (start server mem cache garbage) trace = some process) {label : Label}
    (inTime : timely process label = true) (step : process.next label = some after) :
    Handing after (trace ++ [label]) := by
  cases label with
  | acceptor event => exact handing.acceptor run inTime step
  | thread i event => exact handing.thread (blocks_run run) inTime step

/-- Along a run in which every handler reads `ctx` in time, the handlers stay with their clients. -/
theorem handing_run (run : exec next (start server mem cache garbage) trace = some process)
    (meets : Meets next (fun state label => timely state label = true)
      (start server mem cache garbage) trace) : Handing process trace :=
  exec_induct_meets (motive := fun labels state => Handing state labels) handing_start
    (fun _ _ _ _ earlier handing inTime step => handing.next earlier inTime step) run meets

/-- Every handler has its entry among the requests read. -/
theorem Handing.entry (handing : Handing process trace) {i : Nat} {thread : Thread}
    (here : process.threads[i]? = some thread) :
    ∃ text, (received trace)[i]? = some (thread.client, text) := by
  have inside := (List.getElem?_eq_some_iff.mp here).1
  have client : ((received trace).map Prod.fst)[i]? = some thread.client := by
    rw [handing.clients, List.getElem?_append_left (by simpa using inside), List.getElem?_map,
      here, Option.map_some]
  rw [List.getElem?_map, Option.map_eq_some_iff] at client
  obtain ⟨⟨entryClient, text⟩, entry, rfl⟩ := client
  exact ⟨text, entry⟩

/-- What handing over in time amounts to. -/
theorem Handing.handled (handing : Handing process trace)
    (blocks : Blocks (received trace) process) : process.Handled trace where
  each i thread here := by
    obtain ⟨text, entry⟩ := handing.entry here
    exact ⟨text, entry, (handing.works i thread text here entry).2⟩
  all := by
    have lengths := congrArg List.length handing.clients
    simpa using lengths
  apart := blocks.apart

end Process

open Process

/-- In every run in which each handler reads `ctx` before the accept loop fills it again and every
`pthread_create` succeeds, the handler created for each client works on that client's socket and
request, and every request that was read is handled by exactly one handler. -/
theorem handled_in_time {server : Fd} {mem : Memory} {cache : Ptr} {garbage : Cache}
    {trace : List Label} {process : Process}
    (run : exec next (start server mem cache garbage) trace = some process)
    (meets : Meets next (fun state label => timely state label = true)
      (start server mem cache garbage) trace) : process.Handled trace :=
  (handing_run run meets).handled (blocks_run run)

/-- Two clients, each served before the next one is accepted. -/
def oneAfterAnother : List Label :=
  served 0 ⟨4, 0⟩ [65] 2 5 [104, 105] ++ served 1 ⟨4, 1⟩ [66] 4 5 [104, 111]

/-- Two clients served one after the other. -/
theorem handled_in_time_twice :
    ∃ process, exec next (start 3 Heap.empty 1 ⟨7, 0, 0, 0⟩) oneAfterAnother = some process ∧
      process.Handled oneAfterAnother := by
  obtain ⟨process, run⟩ := Option.isSome_iff_exists.mp
    (by decide +kernel :
      (exec next (start 3 Heap.empty 1 ⟨7, 0, 0, 0⟩) oneAfterAnother).isSome)
  exact ⟨process, run, handled_in_time run (by decide +kernel)⟩

/-- The accept loop fills `ctx` for a second client before the handler of the first one has read
it. -/
def overtaken : List Label :=
  acceptOne ⟨4, 0⟩ (requestFor [65]).bytes ++ acceptOne ⟨5, 1⟩ (requestFor [66]).bytes ++
    lookUp 0 ⟨5, 1⟩ (requestFor [66]) none ++ lookUp 1 ⟨5, 1⟩ (requestFor [66]) none

/-- Then the first client's handler works on the second client's socket and request. -/
theorem handled_overtaken :
    ∃ process, exec next (start 3 Heap.empty 1 ⟨7, 0, 0, 0⟩) overtaken = some process ∧
      process.threads.map Thread.client = [⟨4, 0⟩, ⟨5, 1⟩] ∧ ¬ process.Handled overtaken := by
  have outcome : (exec next (start 3 Heap.empty 1 ⟨7, 0, 0, 0⟩) overtaken).map
      (fun process => process.threads.map Thread.client) = some [⟨4, 0⟩, ⟨5, 1⟩] := by
    decide +kernel
  obtain ⟨process, run, clients⟩ := Option.map_eq_some_iff.mp outcome
  refine ⟨process, run, clients, fun handled => ?_⟩
  have first := congrArg (·[0]?) clients
  simp only [List.getElem?_map, Option.map_eq_some_iff, List.getElem?_cons_zero] at first
  obtain ⟨thread, here, client⟩ := first
  obtain ⟨text, -, own⟩ := handled.each 0 thread here
  have wrong : (5 : Fd) = thread.client.clientSocket :=
    own (.loadSocket 5) (by simp [eventsOf, overtaken, acceptOne, lookUp])
  rw [client] at wrong
  exact absurd wrong (by decide)

end NsuOs.Proxy
