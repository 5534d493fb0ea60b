import NsuOs.Base.Table
import NsuOs.Proxy.CacheHistory
import NsuOs.Proxy.Handler

/-!
# The proxy process

The accept loop and its handlers over what they share: the semaphore, the stack slot `ctx`, the
request blocks, the descriptor table and the cache. A label says who moves and which call it makes
with which result; a run is any list of labels, so every interleaving and every outcome of every
call is a run. A call is possible when the caller's program makes it there and the shared state
allows its result.

Request blocks are numbered in the order of the accepted clients. Runs are followed up to the
first undefined step, such as a use of a freed request block or of the cache behind
`destroy_cache`.
-/
namespace NsuOs.Proxy

open NsuOs.Run

/-- `MAX_USERS_COUNT`. -/
def maxUsersCount : Nat := 10

/-- `PTHREAD_ERROR`. -/
def pthreadError : Int := -1

/-- `context`: a client descriptor and a request block. -/
structure Context where
  /-- `client_socket`. -/
  clientSocket : Fd
  /-- `request`. -/
  request : Nat
  deriving DecidableEq

/-- What an open descriptor stands for. -/
inductive Conn where
  /-- A standard stream. -/
  | standard
  /-- The listening socket. -/
  | server
  /-- The connection of the client with this request block. -/
  | client (block : Nat)
  /-- The connection a thread made to a remote server. -/
  | remote (thread : Nat)
  deriving DecidableEq

/-- What the threads of the process share. -/
structure Shared where
  /-- The value of `thread_semaphore`. -/
  permits : Nat
  /-- The stack slot of `ctx`, which every iteration of the accept loop reuses. -/
  ctx : Option Context
  /-- The request blocks allocated so far; `none` once freed. -/
  requests : List (Option CString)
  /-- The descriptor table. -/
  fds : Fd → Option Conn
  /-- The calls of `close` so far, each with what its number stood for. -/
  closes : List (Fd × Option Conn)
  /-- The cache. -/
  store : Store
  /-- Whether `destroy_cache` was called. -/
  destroyed : Bool

/-- A call of the accept loop with its arguments and its result. -/
inductive AcceptEvent where
  /-- `accept` and `calloc` for the request; `none` when `accept` fails. -/
  | accept (client : Option Context)
  /-- `read_request`: what its `read` returned. -/
  | read (client : Context) (got : Option (List UInt8))
  /-- `sem_wait`. -/
  | semWait
  /-- The assignment to `ctx`. -/
  | store (client : Context)
  /-- `pthread_create` with its error number. -/
  | create (err : Int)
  /-- `close`, `free`, `destroy_cache`. -/
  | cleanup (call : Cleanup)
  /-- `exit`. -/
  | exit

/-- Where the accept loop is; `client` holds its variables `client_socket` and `request`. -/
inductive AcceptPc where
  /-- About to accept. -/
  | accept
  /-- About to read the request. -/
  | read (client : Context)
  /-- About to take a permit. -/
  | semWait (client : Context)
  /-- About to fill `ctx`. -/
  | store (client : Context)
  /-- About to create the handler. -/
  | create (client : Context)
  /-- About to exit. -/
  | exit
  /-- The process has ended. -/
  | exited
  deriving DecidableEq

/-- The accept loop. -/
structure Acceptor where
  /-- `server_socket`. -/
  server : Fd
  /-- Calls to make before going on. -/
  todo : List Cleanup
  /-- The program point behind them. -/
  pc : AcceptPc

/-- A handler thread and the client it was created for. -/
structure Thread where
  /-- The client the accept loop held when it created the thread. -/
  client : Context
  /-- The handler it runs. -/
  handler : Handler

/-- The process. -/
structure Process where
  /-- What the threads share. -/
  shared : Shared
  /-- The accept loop. -/
  acceptor : Acceptor
  /-- The handlers, in the order of their creation. -/
  threads : List Thread

/-- Who moves, and with which call. -/
inductive Label where
  /-- The accept loop. -/
  | acceptor (event : AcceptEvent)
  /-- A handler. -/
  | thread (thread : Nat) (event : Event)

namespace Acceptor

/-- Go on at a program point with calls to make before. -/
def goto (acceptor : Acceptor) (pc : AcceptPc) (todo : List Cleanup) : Acceptor :=
  { acceptor with todo := todo, pc := pc }

/-- One step of `accept_new_client`, with `read_request` inlined. -/
def next (acceptor : Acceptor) (event : AcceptEvent) : Option Acceptor :=
  match acceptor.todo with
  | call :: rest =>
    match event with
    | .cleanup made => if made = call then some (acceptor.goto acceptor.pc rest) else none
    | _ => none
  | [] =>
    match acceptor.pc, event with
    | .accept, .accept none => some (acceptor.goto .exit [.close acceptor.server, .destroyCache])
    | .accept, .accept (some client) => some (acceptor.goto (.read client) [])
    | .read client, .read client' got =>
      if client' = client then
        match got with
        | some (byte :: rest) =>
          if (byte :: rest).length < maxBufferSize then some (acceptor.goto (.semWait client) [])
          else none
        | some [] | none => some (acceptor.goto .accept [.close client.clientSocket,
            .freeRequest client.request, .close client.clientSocket])
      else none
    | .semWait client, .semWait => some (acceptor.goto (.store client) [])
    | .store client, .store ctx =>
      if ctx = client then some (acceptor.goto (.create client) []) else none
    | .create client, .create err =>
      if err = pthreadError then
        some (acceptor.goto .exit [.close client.clientSocket, .close acceptor.server,
          .destroyCache])
      else some (acceptor.goto .accept [])
    | .exit, .exit => some (acceptor.goto .exited [])
    | _, _ => none

/-- The thread a call starts. -/
def created (acceptor : Acceptor) (event : AcceptEvent) : List Thread :=
  match acceptor.pc, event with
  | .create client, .create err => if err = 0 then [⟨client, Handler.start⟩] else []
  | _, _ => []

end Acceptor

namespace Shared

/-- The request block holds this text. -/
def Holds (shared : Shared) (block : Nat) (text : CString) : Prop :=
  shared.requests[block]? = some (some text)

instance (shared : Shared) (block : Nat) (text : CString) :
    Decidable (shared.Holds block text) :=
  inferInstanceAs (Decidable (_ = _))

/-- `write` accepts one byte to all bytes on an open descriptor, or fails. -/
def Accepts (shared : Shared) (fd : Fd) (bytes : List UInt8) : Option Nat → Prop
  | none => True
  | some count => shared.fds fd ≠ none ∧ count ≤ bytes.length ∧ (0 < count ∨ bytes = [])

instance (shared : Shared) (fd : Fd) (bytes : List UInt8) (sent : Option Nat) :
    Decidable (shared.Accepts fd bytes sent) :=
  match sent with
  | none => inferInstanceAs (Decidable True)
  | some count => inferInstanceAs (Decidable
      (shared.fds fd ≠ none ∧ count ≤ bytes.length ∧ (0 < count ∨ bytes = [])))

/-- `read` returns up to `MAX_BUFFER_SIZE` bytes from an open descriptor, or fails. -/
def Returns (shared : Shared) (fd : Fd) : Option (List UInt8) → Prop
  | none => True
  | some bytes => shared.fds fd ≠ none ∧ bytes.length ≤ maxBufferSize

instance (shared : Shared) (fd : Fd) (got : Option (List UInt8)) :
    Decidable (shared.Returns fd got) :=
  match got with
  | none => inferInstanceAs (Decidable True)
  | some bytes => inferInstanceAs (Decidable
      (shared.fds fd ≠ none ∧ bytes.length ≤ maxBufferSize))

/-- An unused number now stands for a connection. -/
def opened (shared : Shared) (fd : Fd) (conn : Conn) : Option Shared :=
  if 0 ≤ fd ∧ shared.fds fd = none then
    some { shared with fds := Table.put shared.fds fd conn }
  else none

/-- `close`. -/
def close (shared : Shared) (fd : Fd) : Shared :=
  { shared with
    fds := Table.drop shared.fds fd
    closes := shared.closes ++ [(fd, shared.fds fd)] }

/-- The calls whose result is not looked at. -/
def cleanup (shared : Shared) : Cleanup → Option Shared
  | .close fd => some (shared.close fd)
  | .free _ => some shared
  | .freeRequest block =>
    match shared.requests[block]? with
    | some (some _) => some { shared with requests := shared.requests.set block none }
    | _ => none
  | .destroyCache => some { shared with destroyed := true }

/-- A call on the cache. -/
def onStore (shared : Shared) (op : Op) : Option Shared :=
  (shared.store.next op).map fun store => { shared with store := store }

/-- What a call of a handler does to the shared state, if it can have that result. -/
def perform (shared : Shared) (thread : Nat) : Event → Option Shared
  | .loadSocket fd =>
    if shared.ctx.map Context.clientSocket = some fd then some shared else none
  | .loadRequest block => if shared.ctx.map Context.request = some block then some shared else none
  | .strcpy block text _ => if shared.Holds block text then some shared else none
  | .find req found =>
    if shared.destroyed = false ∧ found = (shared.store.find req).written then
      shared.onStore (.find req)
    else none
  | .write _ fd bytes sent => if shared.Accepts fd bytes sent then some shared else none
  | .reload block => if shared.ctx.map Context.request = some block then some shared else none
  | .fetch block text record response garbage =>
    if shared.Holds block text then shared.onStore (.fetch thread text record response garbage)
    else none
  | .getaddrinfo _ _ => some shared
  | .socket none => some shared
  | .socket (some fd) => shared.opened fd (.remote thread)
  | .connect _ _ => some shared
  | .read fd got => if shared.Returns fd got then some shared else none
  | .addResponse chunk => shared.onStore (.add thread chunk)
  | .push => if shared.destroyed = false then shared.onStore (.push thread) else none
  | .cleanup call => shared.cleanup call
  | .post => some { shared with permits := shared.permits + 1 }
  | .ret => some shared

/-- What a call of the accept loop does to the shared state, if it can have that result. -/
def performAccept (shared : Shared) : AcceptEvent → Option Shared
  | .accept none => some shared
  | .accept (some client) =>
    if client.request = shared.requests.length then
      { shared with requests := shared.requests ++ [some (CString.ofBytes [])] }.opened
        client.clientSocket (.client client.request)
    else none
  | .read client got =>
    if shared.Returns client.clientSocket got then
      match got with
      | some (byte :: rest) => some { shared with
          requests := shared.requests.set client.request
            (some (CString.ofBytes (byte :: rest))) }
      | some [] | none => some shared
    else none
  | .semWait =>
    if 0 < shared.permits then some { shared with permits := shared.permits - 1 } else none
  | .store client => some { shared with ctx := some client }
  | .create _ => some shared
  | .cleanup call => shared.cleanup call
  | .exit => some shared

end Shared

namespace Process

/-- One step of the process. -/
def next (process : Process) : Label → Option Process
  | .acceptor event => do
    let acceptor ← process.acceptor.next event
    let shared ← process.shared.performAccept event
    some ⟨shared, acceptor, process.threads ++ process.acceptor.created event⟩
  | .thread i event =>
    if process.acceptor.pc = .exited then none
    else do
      let thread ← process.threads[i]?
      let handler ← thread.handler.next event
      let shared ← process.shared.perform i event
      some { process with
        shared := shared
        threads := process.threads.set i { thread with handler := handler } }

/-- The process when `accept_new_client` is called: the standard streams and the listening socket
are open, the semaphore holds `MAX_USERS_COUNT` and the cache is the one `init_cache` made. -/
def start (server : Fd) (mem : Memory) (cache : Ptr) (garbage : Cache) : Process where
  shared :=
    { permits := maxUsersCount
      ctx := none
      requests := []
      fds := fun fd =>
        if fd = server then some .server
        else if 0 ≤ fd ∧ fd ≤ 2 then some .standard else none
      closes := []
      store := Store.start mem cache garbage
      destroyed := false }
  acceptor := ⟨server, [], .accept⟩
  threads := []

end Process

/-- Every step the accept loop can make, one constructor for each outcome of each call. -/
inductive Acceptor.Step (server : Fd) : Acceptor → AcceptEvent → Acceptor → Prop
  /-- A call is made and ticked off. -/
  | cleanup (call : Cleanup) (rest : List Cleanup) (pc : AcceptPc) :
    Step server ⟨server, call :: rest, pc⟩ (.cleanup call) ⟨server, rest, pc⟩
  /-- `accept` fails. -/
  | refused : Step server ⟨server, [], .accept⟩ (.accept none)
      ⟨server, [.close server, .destroyCache], .exit⟩
  /-- A client is accepted. -/
  | accepted (client : Context) :
    Step server ⟨server, [], .accept⟩ (.accept (some client)) ⟨server, [], .read client⟩
  /-- A request is read. -/
  | received (client : Context) (byte : UInt8) (rest : List UInt8)
    (short : (byte :: rest).length < maxBufferSize) :
    Step server ⟨server, [], .read client⟩ (.read client (some (byte :: rest)))
      ⟨server, [], .semWait client⟩
  /-- No request is read: `read_request` and then the loop close the client. -/
  | unreadable (client : Context) (got : Option (List UInt8)) (empty : got = none ∨ got = some []) :
    Step server ⟨server, [], .read client⟩ (.read client got)
      ⟨server, [.close client.clientSocket, .freeRequest client.request,
        .close client.clientSocket], .accept⟩
  /-- A permit is taken. -/
  | semWait (client : Context) :
    Step server ⟨server, [], .semWait client⟩ .semWait ⟨server, [], .store client⟩
  /-- `ctx` is filled. -/
  | store (client : Context) :
    Step server ⟨server, [], .store client⟩ (.store client) ⟨server, [], .create client⟩
  /-- `pthread_create` returns anything but `PTHREAD_ERROR`. -/
  | created (client : Context) (err : Int) (passed : err ≠ pthreadError) :
    Step server ⟨server, [], .create client⟩ (.create err) ⟨server, [], .accept⟩
  /-- `pthread_create` returns `PTHREAD_ERROR`. -/
  | uncreated (client : Context) :
    Step server ⟨server, [], .create client⟩ (.create pthreadError)
      ⟨server, [.close client.clientSocket, .close server, .destroyCache], .exit⟩
  /-- The process ends. -/
  | exit : Step server ⟨server, [], .exit⟩ .exit ⟨server, [], .exited⟩

/-- The accept loop makes no step but these. -/
theorem Acceptor.step_of_next {acceptor after : Acceptor} {event : AcceptEvent}
    (step : acceptor.next event = some after) :
    Acceptor.Step acceptor.server acceptor event after := by
  obtain ⟨server, todo, pc⟩ := acceptor
  cases todo with
  | cons call rest =>
    simp only [Acceptor.next] at step
    split at step
    · simp only [Option.ite_none_right_eq_some, Option.some.injEq] at step
      obtain ⟨rfl, rfl⟩ := step
      exact .cleanup _ _ _
    · exact nomatch step
  | nil =>
    simp only [Acceptor.next] at step
    split at step
    all_goals try simp only [Option.ite_none_right_eq_some, Option.some.injEq, reduceCtorEq] at step
    case h_1 => exact step ▸ .refused
    case h_2 => exact step ▸ .accepted _
    case h_3 =>
      obtain ⟨rfl, step⟩ := step
      split at step
      · simp only [Option.ite_none_right_eq_some, Option.some.injEq] at step
        obtain ⟨short, rfl⟩ := step
        exact .received _ _ _ short
      · exact Option.some.inj step ▸ .unreadable _ _ (Or.inr rfl)
      · exact Option.some.inj step ▸ .unreadable _ _ (Or.inl rfl)
    case h_4 => exact step ▸ .semWait _
    case h_5 =>
      obtain ⟨rfl, rfl⟩ := step
      exact .store _
    case h_6 =>
      split at step
      · rename_i failed
        exact failed ▸ Option.some.inj step ▸ .uncreated _
      · rename_i passed
        exact Option.some.inj step ▸ .created _ _ passed
    case h_7 => exact step ▸ .exit

namespace Shared

variable {shared after : Shared}

/-- A call on the cache changes the cache alone. -/
theorem onStore_eq_some {op : Op} : shared.onStore op = some after ↔
    ∃ store, shared.store.next op = some store ∧ { shared with store := store } = after :=
  Option.map_eq_some_iff

/-- Opening a descriptor changes the table alone. -/
theorem opened_eq_some {fd : Fd} {conn : Conn} : shared.opened fd conn = some after ↔
    (0 ≤ fd ∧ shared.fds fd = none) ∧
      { shared with fds := Table.put shared.fds fd conn } = after := by
  simp [opened]

/-- The permits an event gives back. -/
def posts : Event → Nat
  | .post => 1
  | _ => 0

/-- Everything a call of a handler can do to the shared state. -/
theorem perform_cases {thread : Nat} {event : Event}
    (step : shared.perform thread event = some after) :
    (posts event = 0 ∧ after = shared) ∨
      (event = .post ∧ after = { shared with permits := shared.permits + 1 }) ∨
      (posts event = 0 ∧ ∃ op, shared.onStore op = some after) ∨
      (∃ fd, event = .socket (some fd) ∧ shared.opened fd (.remote thread) = some after) ∨
      ∃ call, event = .cleanup call ∧ shared.cleanup call = some after := by
  unfold perform at step
  split at step
  all_goals try simp only [Option.ite_none_right_eq_some, Option.some.injEq] at step
  case h_4 | h_7 | h_14 => exact Or.inr (Or.inr (Or.inl ⟨rfl, _, step.2⟩))
  case h_10 => exact Or.inr (Or.inr (Or.inr (Or.inl ⟨_, rfl, step⟩)))
  case h_13 => exact Or.inr (Or.inr (Or.inl ⟨rfl, _, step⟩))
  case h_15 => exact Or.inr (Or.inr (Or.inr (Or.inr ⟨_, rfl, step⟩)))
  case h_16 => exact Or.inr (Or.inl ⟨rfl, step.symm⟩)
  case h_8 | h_9 | h_11 | h_17 => exact Or.inl ⟨rfl, step.symm⟩
  all_goals exact Or.inl ⟨rfl, step.2.symm⟩

/-- Cleaning up touches neither the semaphore nor `ctx` nor the cache. -/
theorem cleanup_frame {call : Cleanup} (step : shared.cleanup call = some after) :
    after.permits = shared.permits ∧ after.ctx = shared.ctx ∧ after.store = shared.store := by
  cases call with
  | close fd => exact Option.some.inj step ▸ ⟨rfl, rfl, rfl⟩
  | free part => exact Option.some.inj step ▸ ⟨rfl, rfl, rfl⟩
  | freeRequest block =>
    simp only [cleanup] at step
    split at step
    · exact Option.some.inj step ▸ ⟨rfl, rfl, rfl⟩
    · exact nomatch step
  | destroyCache => exact Option.some.inj step ▸ ⟨rfl, rfl, rfl⟩

/-- A handler changes the semaphore by posting, never `ctx`, and the cache by calls on it. -/
theorem perform_frame {thread : Nat} {event : Event}
    (step : shared.perform thread event = some after) :
    after.permits = shared.permits + posts event ∧ after.ctx = shared.ctx ∧
      ∃ ops, exec Store.next shared.store ops = some after.store := by
  rcases perform_cases step with ⟨none, rfl⟩ | ⟨rfl, rfl⟩ | ⟨none, op, called⟩ |
    ⟨fd, rfl, called⟩ | ⟨call, rfl, called⟩
  · exact ⟨by rw [none, Nat.add_zero], rfl, [], rfl⟩
  · exact ⟨rfl, rfl, [], rfl⟩
  · obtain ⟨store, stepped, rfl⟩ := onStore_eq_some.mp called
    exact ⟨by rw [none, Nat.add_zero], rfl, [op], by simp [exec, stepped]⟩
  · obtain ⟨-, rfl⟩ := opened_eq_some.mp called
    exact ⟨rfl, rfl, [], rfl⟩
  · obtain ⟨permits, ctx, store⟩ := cleanup_frame called
    exact ⟨permits, ctx, [], congrArg some store.symm⟩

/-- Cleaning up allocates no request block and writes none. -/
theorem cleanup_requests {call : Cleanup} (step : shared.cleanup call = some after) :
    after.requests.length = shared.requests.length ∧
      ∀ block text, after.Holds block text → shared.Holds block text := by
  cases call with
  | close fd => exact Option.some.inj step ▸ ⟨rfl, fun _ _ holds => holds⟩
  | free part => exact Option.some.inj step ▸ ⟨rfl, fun _ _ holds => holds⟩
  | freeRequest freed =>
    simp only [cleanup] at step
    split at step
    · obtain rfl := Option.some.inj step
      refine ⟨List.length_set, fun block text holds => ?_⟩
      simp only [Holds, List.getElem?_set] at holds
      split at holds
      · split at holds <;> simp at holds
      · exact holds
    · exact nomatch step
  | destroyCache => exact Option.some.inj step ▸ ⟨rfl, fun _ _ holds => holds⟩

/-- A handler allocates no request block and writes none. -/
theorem perform_requests {thread : Nat} {event : Event}
    (step : shared.perform thread event = some after) :
    after.requests.length = shared.requests.length ∧
      ∀ block text, after.Holds block text → shared.Holds block text := by
  rcases perform_cases step with ⟨-, rfl⟩ | ⟨-, rfl⟩ | ⟨-, op, called⟩ | ⟨fd, -, called⟩ |
    ⟨call, -, called⟩
  · exact ⟨rfl, fun _ _ holds => holds⟩
  · exact ⟨rfl, fun _ _ holds => holds⟩
  · obtain ⟨store, -, rfl⟩ := onStore_eq_some.mp called
    exact ⟨rfl, fun _ _ holds => holds⟩
  · obtain ⟨-, rfl⟩ := opened_eq_some.mp called
    exact ⟨rfl, fun _ _ holds => holds⟩
  · exact cleanup_requests called

/-- The accept loop never touches the cache. -/
theorem performAccept_store {event : AcceptEvent}
    (step : shared.performAccept event = some after) : after.store = shared.store := by
  unfold performAccept at step
  split at step
  case h_2 =>
    rw [Option.ite_none_right_eq_some] at step
    obtain ⟨-, rfl⟩ := opened_eq_some.mp step.2
    rfl
  case h_3 =>
    rw [Option.ite_none_right_eq_some] at step
    have change := step.2
    split at change <;> exact Option.some.inj change ▸ rfl
  case h_4 =>
    rw [Option.ite_none_right_eq_some] at step
    exact Option.some.inj step.2 ▸ rfl
  case h_7 => exact (cleanup_frame step).2.2
  all_goals exact Option.some.inj step ▸ rfl

end Shared

/-- The events of one handler in a run. -/
def eventsOf (thread : Nat) (trace : List Label) : List Event :=
  trace.filterMap fun
    | .thread other event => if other = thread then some event else none
    | .acceptor _ => none

/-- The accept loop adds nothing to a handler's events. -/
@[simp] theorem eventsOf_acceptor (thread : Nat) (trace : List Label) (event : AcceptEvent) :
    eventsOf thread (trace ++ [.acceptor event]) = eventsOf thread trace := by
  simp [eventsOf]

/-- A handler's own step adds its event. -/
@[simp] theorem eventsOf_self (thread : Nat) (trace : List Label) (event : Event) :
    eventsOf thread (trace ++ [.thread thread event]) = eventsOf thread trace ++ [event] := by
  simp [eventsOf]

/-- The events of a handler are its labels. -/
theorem mem_eventsOf {i : Nat} {trace : List Label} {event : Event} :
    event ∈ eventsOf i trace ↔ .thread i event ∈ trace := by
  simp only [eventsOf, List.mem_filterMap]
  constructor
  · rintro ⟨label, member, isEvent⟩
    cases label with
    | acceptor other => exact nomatch isEvent
    | thread j other =>
      simp only [Option.ite_none_right_eq_some, Option.some.injEq] at isEvent
      obtain ⟨rfl, rfl⟩ := isEvent
      exact member
  · intro member
    exact ⟨_, member, by simp⟩

/-- The events of a handler around one of its steps. -/
theorem eventsOf_around (thread : Nat) (earlier later : List Label) (event : Event) :
    eventsOf thread (earlier ++ .thread thread event :: later) =
      eventsOf thread earlier ++ event :: eventsOf thread later := by
  simp [eventsOf]

/-- Another handler's step adds nothing. -/
theorem eventsOf_other {thread other : Nat} (trace : List Label) (event : Event)
    (apart : other ≠ thread) :
    eventsOf thread (trace ++ [.thread other event]) = eventsOf thread trace := by
  simp [eventsOf, apart]

namespace Process

variable {process after : Process}

/-- A step of the accept loop. -/
theorem next_acceptor {event : AcceptEvent} (step : process.next (.acceptor event) = some after) :
    ∃ acceptor shared, process.acceptor.next event = some acceptor ∧
      process.shared.performAccept event = some shared ∧
      after = ⟨shared, acceptor, process.threads ++ process.acceptor.created event⟩ := by
  simp only [next, Option.bind_eq_bind, Option.bind_eq_some_iff, Option.some.injEq] at step
  obtain ⟨acceptor, moved, shared, performed, rfl⟩ := step
  exact ⟨acceptor, shared, moved, performed, rfl⟩

/-- A step of a handler. -/
theorem next_thread {i : Nat} {event : Event} (step : process.next (.thread i event) = some after) :
    ∃ thread handler shared, process.threads[i]? = some thread ∧
      thread.handler.next event = some handler ∧ process.shared.perform i event = some shared ∧
      after = { process with
        shared := shared
        threads := process.threads.set i { thread with handler := handler } } := by
  simp only [next, Option.bind_eq_bind] at step
  split at step
  · exact nomatch step
  · simp only [Option.bind_eq_some_iff, Option.some.injEq] at step
    obtain ⟨thread, here, handler, moved, shared, performed, rfl⟩ := step
    exact ⟨thread, handler, shared, here, moved, performed, rfl⟩

/-- The threads after a step of the accept loop: the old ones and the one it created. -/
theorem thread_appended {event : AcceptEvent} {i : Nat} {thread : Thread}
    (here : (process.threads ++ process.acceptor.created event)[i]? = some thread) :
    process.threads[i]? = some thread ∨ (i = process.threads.length ∧ event = .create 0 ∧
      ∃ client, process.acceptor.pc = .create client ∧ thread = ⟨client, Handler.start⟩) := by
  rw [List.getElem?_append] at here
  split at here
  · exact Or.inl here
  · right
    rename_i beyond
    unfold Acceptor.created at here
    split at here
    · rename_i client err isCreate
      split at here
      · rename_i success
        obtain ⟨inside, rfl⟩ := List.getElem?_eq_some_iff.mp here
        have last : i = process.threads.length := by
          rw [List.length_singleton] at inside
          omega
        exact ⟨last, success ▸ rfl, client, isCreate, by simp⟩
      · exact nomatch here
    · exact nomatch here

/-- The threads after a step of a handler: it has moved and the others stand. -/
theorem thread_moved {threads : List Thread} {i j : Nat} {moved thread : Thread}
    (here : (threads.set i moved)[j]? = some thread) :
    (j = i ∧ thread = moved) ∨ (j ≠ i ∧ threads[j]? = some thread) := by
  rw [List.getElem?_set] at here
  split at here
  · rename_i same
    split at here
    · exact Or.inl ⟨same.symm, (Option.some.inj here).symm⟩
    · exact nomatch here
  · rename_i apart
    exact Or.inr ⟨Ne.symm apart, here⟩

variable {server : Fd} {mem : Memory} {cache : Ptr} {garbage : Cache} {trace : List Label}

/-- A thread that does not exist yet has done nothing. -/
theorem eventsOf_uncreated (run : exec next (start server mem cache garbage) trace = some process)
    {i : Nat} (beyond : process.threads.length ≤ i) : eventsOf i trace = [] := by
  revert i
  refine exec_induct (motive := fun labels state => ∀ {i}, state.threads.length ≤ i →
    eventsOf i labels = []) (fun _ => rfl) ?_ run
  intro labels middle label finish _ ih step i beyond
  cases label with
  | acceptor event =>
    obtain ⟨acceptor, shared, -, -, rfl⟩ := next_acceptor step
    rw [List.length_append] at beyond
    rw [eventsOf_acceptor]
    exact ih (by omega)
  | thread j event =>
    obtain ⟨thread, handler, shared, here, -, -, rfl⟩ := next_thread step
    rw [List.length_set] at beyond
    obtain ⟨inside, -⟩ := List.getElem?_eq_some_iff.mp here
    rw [eventsOf_other labels event (by omega)]
    exact ih beyond

/-- What a handler did in a run of the process is a run of the handler, whatever the others did
in between. -/
theorem handler_run (run : exec next (start server mem cache garbage) trace = some process)
    {i : Nat} {thread : Thread} (here : process.threads[i]? = some thread) :
    exec Handler.next Handler.start (eventsOf i trace) = some thread.handler := by
  revert i thread
  refine exec_induct (motive := fun labels state => ∀ {i thread}, state.threads[i]? = some thread →
    exec Handler.next Handler.start (eventsOf i labels) = some thread.handler) ?_ ?_ run
  · intro i thread here
    exact nomatch here
  · intro labels middle label finish earlier ih step i thread here
    cases label with
    | acceptor event =>
      obtain ⟨acceptor, shared, -, -, rfl⟩ := next_acceptor step
      rw [eventsOf_acceptor]
      rcases thread_appended here with old | ⟨last, -, client, -, rfl⟩
      · exact ih old
      · rw [eventsOf_uncreated earlier last.ge]
        rfl
    | thread j event =>
      obtain ⟨moving, handler, shared, there, moved, -, rfl⟩ := next_thread step
      rcases thread_moved here with ⟨rfl, rfl⟩ | ⟨apart, old⟩
      · rw [eventsOf_self]
        exact exec_snoc.mpr ⟨moving.handler, ih there, moved⟩
      · rw [eventsOf_other labels event apart.symm]
        exact ih old

/-- What happened to the cache in a run of the process is a run of the cache. -/
theorem store_run (run : exec next (start server mem cache garbage) trace = some process) :
    ∃ ops, exec Store.next (Store.start mem cache garbage) ops = some process.shared.store := by
  refine exec_induct (motive := fun _ state => ∃ ops,
    exec Store.next (Store.start mem cache garbage) ops = some state.shared.store)
    ⟨[], rfl⟩ ?_ run
  intro labels middle label finish _ ih step
  obtain ⟨ops, before⟩ := ih
  cases label with
  | acceptor event =>
    obtain ⟨acceptor, shared, -, performed, rfl⟩ := next_acceptor step
    exact ⟨ops, before.trans (congrArg some (Shared.performAccept_store performed).symm)⟩
  | thread j event =>
    obtain ⟨moving, handler, shared, -, -, performed, rfl⟩ := next_thread step
    obtain ⟨-, -, more, later⟩ := Shared.perform_frame performed
    exact ⟨ops ++ more, by rw [exec_append, before, Option.bind_some, later]⟩

end Process

section Sessions

/-- The accept loop takes a client, reads its request and creates a handler. -/
def acceptOne (client : Context) (request : List UInt8) : List Label :=
  [.acceptor (.accept (some client)), .acceptor (.read client (some request)),
    .acceptor .semWait, .acceptor (.store client), .acceptor (.create 0)]

/-- A handler reads `ctx`, copies the request and looks it up. -/
def lookUp (i : Nat) (client : Context) (text : CString) (found : Option (List UInt8)) :
    List Label :=
  [.thread i (.loadSocket client.clientSocket), .thread i (.loadRequest client.request),
    .thread i (.strcpy client.request text Buffer.zeros), .thread i (.find text found)]

/-- A handler makes a record and connects to the remote server `h`. -/
def reach (i : Nat) (client : Context) (text : CString) (record : Ptr) (dest : Fd) : List Label :=
  [.thread i (.fetch client.request text record (record + 1) ⟨0, 0, 0, 0⟩),
    .thread i (.getaddrinfo (CString.ofBytes [104]) true), .thread i (.socket (some dest)),
    .thread i (.connect dest true)]

/-- A handler passes one chunk from the remote server to the client, which accepts `count` bytes
of it. -/
def relay (i : Nat) (client : Context) (dest : Fd) (chunk : List UInt8) (count : Nat) :
    List Label :=
  [.thread i (.read dest (some chunk)),
    .thread i (.write .client client.clientSocket chunk (some count)),
    .thread i (.addResponse chunk)]

/-- A handler pushes its record, cleans up, posts and returns. -/
def leave (i : Nat) (client : Context) (dest : Fd) : List Label :=
  [.thread i .push, .thread i (.cleanup (.close client.clientSocket)),
    .thread i (.cleanup (.close dest)), .thread i (.cleanup (.free .buffer)),
    .thread i (.cleanup (.freeRequest client.request)), .thread i .post]

/-- One client is served from the remote server. -/
def served (i : Nat) (client : Context) (path : List UInt8) (record : Ptr) (dest : Fd)
    (chunk : List UInt8) : List Label :=
  acceptOne client (requestFor path).bytes ++ lookUp i client (requestFor path) none ++
    reach i client (requestFor path) record dest ++
    [.thread i (.write .remote dest (requestFor path).bytes (some (requestFor path).strlen))] ++
    relay i client dest chunk chunk.length ++ [.thread i (.read dest (some []))] ++
    leave i client dest

end Sessions

end NsuOs.Proxy
