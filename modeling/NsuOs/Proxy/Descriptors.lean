import NsuOs.Proxy.Context
import NsuOs.Proxy.Permits

/-!
# Who owns which descriptor

A descriptor number is reused as soon as it is closed, so a second `close` may end somebody else's
connection. In a run in which requests are readable, lookups miss, connections are made and `ctx`
is read in time, every handler holds its client's connection and its own to the remote server
until it closes each of them once, and no call is made on anybody else's.
-/
namespace NsuOs.Proxy

open NsuOs.Run NsuOs.Table

/-- Which descriptors a program point has to do with. -/
inductive Phase where
  /-- On the miss path before the socket is made. -/
  | early
  /-- With a socket for the remote server. -/
  | connected (dest : Fd)
  /-- On the hit path. -/
  | cached
  /-- Behind the last use of a descriptor. -/
  | final

/-- The phase of a program point. -/
def Pc.phase : Pc → Phase
  | .loadSocket | .loadRequest _ | .strcpy _ _ | .find _ | .fetch _ | .getaddrinfo _ | .socket _ =>
    .early
  | .connect _ dest | .writeRequest _ dest | .read _ dest _ | .writeClient _ dest _ _
  | .addResponse _ dest _ _ | .push _ dest => .connected dest
  | .writeCached _ _ | .reload _ => .cached
  | .post | .ret | .done => .final

/-- No `close` is left to do. -/
def NoClose (todo : List Cleanup) : Prop := ∀ fd, .close fd ∉ todo

/-- The connections the handler of a client still has to close, with their descriptors. -/
inductive Stage (client : Context) (i : Nat) : Handler → List (Fd × Conn) → Prop
  /-- Only the client's. -/
  | early (pc : Pc) (isEarly : pc.phase = .early) :
    Stage client i ⟨[], pc⟩ [(client.clientSocket, .client client.request)]
  /-- The client's and the one to the remote server. -/
  | connected (pc : Pc) (dest : Fd) (hasDest : pc.phase = .connected dest) :
    Stage client i ⟨[], pc⟩ [(client.clientSocket, .client client.request), (dest, .remote i)]
  /-- Both, about to be closed. -/
  | closing (dest : Fd) (rest : List Cleanup) (pc : Pc) (noClose : NoClose rest)
    (final : pc.phase = .final) :
    Stage client i ⟨.close client.clientSocket :: .close dest :: rest, pc⟩
      [(client.clientSocket, .client client.request), (dest, .remote i)]
  /-- The one to the remote server, about to be closed. -/
  | half (dest : Fd) (rest : List Cleanup) (pc : Pc) (noClose : NoClose rest)
    (final : pc.phase = .final) :
    Stage client i ⟨.close dest :: rest, pc⟩ [(dest, .remote i)]
  /-- None. -/
  | ended (rest : List Cleanup) (pc : Pc) (noClose : NoClose rest) (final : pc.phase = .final) :
    Stage client i ⟨rest, pc⟩ []

/-- What a call of a handler does to the descriptor table. -/
def Event.act (i : Nat) : Event → Act Fd Conn
  | .socket (some dest) => .put dest (.remote i)
  | .cleanup (.close fd) => .drop fd
  | _ => .keep

/-- What a call of the accept loop does to the descriptor table. -/
def AcceptEvent.act : AcceptEvent → Act Fd Conn
  | .accept (some client) => .put client.clientSocket (.client client.request)
  | .cleanup (.close fd) => .drop fd
  | _ => .keep

/-- Handlers open no client connections. -/
theorem Event.act_ne_put_client (event : Event) (i block : Nat) (fd : Fd) :
    event.act i ≠ .put fd (.client block) := by
  cases event with
  | socket dest => cases dest <;> exact nofun
  | cleanup call => cases call <;> exact nofun
  | _ => exact nofun

/-- A call of `write` is on the descriptor held for its target. -/
def Writes (client : Context) (i : Nat) (held : List (Fd × Conn)) : Event → Prop
  | .write .remote fd _ _ => (fd, .remote i) ∈ held
  | .write _ fd _ _ => (fd, .client client.request) ∈ held
  | _ => True

/-- The step reads a request, misses in the cache or connects. -/
def tidy : Label → Bool
  | .acceptor (.read _ (some (_ :: _))) => true
  | .acceptor (.read _ _) => false
  | .thread _ (.find _ found) => found = none
  | .thread _ (.getaddrinfo _ ok) => ok
  | .thread _ (.socket fd) => fd.isSome
  | .thread _ (.connect _ ok) => ok
  | _ => true

namespace Stage

variable {client : Context} {i : Nat} {pc : Pc} {held : List (Fd × Conn)}

/-- Before the socket is made a handler holds its client's connection. -/
theorem eq_of_early (stage : Stage client i ⟨[], pc⟩ held) (isEarly : pc.phase = .early) :
    held = [(client.clientSocket, .client client.request)] := by
  cases stage with
  | early => rfl
  | connected _ dest hasDest => exact nomatch isEarly.symm.trans hasDest
  | ended _ _ noClose final => exact nomatch isEarly.symm.trans final

/-- With a socket it holds both connections. -/
theorem eq_of_connected (stage : Stage client i ⟨[], pc⟩ held) {dest : Fd}
    (hasDest : pc.phase = .connected dest) :
    held = [(client.clientSocket, .client client.request), (dest, .remote i)] := by
  cases stage with
  | early _ isEarly => exact nomatch isEarly.symm.trans hasDest
  | connected _ other hasOther =>
    obtain rfl := Phase.connected.inj (hasOther.symm.trans hasDest)
    rfl
  | ended _ _ noClose final => exact nomatch final.symm.trans hasDest

/-- At the end it holds nothing. -/
theorem eq_of_final (stage : Stage client i ⟨[], pc⟩ held) (isFinal : pc.phase = .final) :
    held = [] := by
  cases stage with
  | early _ isEarly => exact nomatch isEarly.symm.trans isFinal
  | connected _ dest hasDest => exact nomatch hasDest.symm.trans isFinal
  | ended => rfl

/-- The hit path is not taken. -/
theorem phase_ne_cached (stage : Stage client i ⟨[], pc⟩ held) : pc.phase ≠ .cached := by
  intro isCached
  cases stage with
  | early _ isEarly => exact nomatch isEarly.symm.trans isCached
  | connected _ dest hasDest => exact nomatch hasDest.symm.trans isCached
  | ended _ _ noClose final => exact nomatch final.symm.trans isCached

/-- The connections of a holding are the handler's own. -/
theorem conn_mem {handler : Handler} (stage : Stage client i handler held) {entry : Fd × Conn}
    (member : entry ∈ held) : entry.2 = .client client.request ∨ entry.2 = .remote i := by
  cases stage <;> simp only [List.mem_cons, List.not_mem_nil, or_false] at member
  · exact Or.inl (congrArg Prod.snd member)
  · rcases member with rfl | rfl
    · exact Or.inl rfl
    · exact Or.inr rfl
  · rcases member with rfl | rfl
    · exact Or.inl rfl
    · exact Or.inr rfl
  · exact Or.inr (congrArg Prod.snd member)

/-- A handler holds no connection twice. -/
theorem nodup {handler : Handler} (stage : Stage client i handler held) :
    (held.map Prod.snd).Nodup := by
  cases stage <;> simp

/-- A call that is ticked off closes the first descriptor held, or none. -/
theorem cleanup {call : Cleanup} {rest : List Cleanup}
    (stage : Stage client i ⟨call :: rest, pc⟩ held) :
    ∃ held', Stage client i ⟨rest, pc⟩ held' ∧
      ((Event.cleanup call).act i).Moves held held' := by
  cases stage with
  | closing dest later _ noClose final =>
    exact ⟨_, .half dest later pc noClose final, _, rfl⟩
  | half dest _ _ noClose final => exact ⟨_, .ended _ pc noClose final, _, rfl⟩
  | ended _ _ noClose final =>
    have later : NoClose rest := fun fd member => noClose fd (List.mem_cons_of_mem _ member)
    refine ⟨[], .ended rest pc later final, ?_⟩
    cases call with
    | close fd => exact absurd List.mem_cons_self (noClose fd)
    | _ => rfl

end Stage

/-- A handler moves from stage to stage and uses its own descriptors only. -/
theorem Handler.Step.stage {handler after : Handler} {event : Event} {client : Context}
    {text : CString} {i : Nat} {held : List (Fd × Conn)} (step : Handler.Step handler event after)
    (works : handler.pc.Of client text) (kept : tidy (.thread i event) = true)
    (stage : Stage client i handler held) :
    ∃ held', Stage client i after held' ∧ (event.act i).Moves held held' ∧
      Writes client i held event := by
  cases step
  case cleanup call rest pc =>
    obtain ⟨held', stage', moves⟩ := stage.cleanup
    exact ⟨held', stage', moves, trivial⟩
  case loadSocket | loadRequest | strcpy | miss | fetch | resolved =>
    obtain rfl := stage.eq_of_early rfl
    exact ⟨_, .early _ rfl, rfl, trivial⟩
  case hit | unresolved | noSocket | refused => exact nomatch kept
  case writeCached | reload => exact absurd rfl stage.phase_ne_cached
  case socket locals dest =>
    obtain rfl := stage.eq_of_early rfl
    exact ⟨_, .connected _ dest rfl, rfl, trivial⟩
  case connected locals dest | chunk locals dest _ _ _ | ended locals dest _ |
      readFailed locals dest _ | addResponse locals dest _ _ _ =>
    obtain rfl := stage.eq_of_connected rfl
    exact ⟨_, .connected _ dest rfl, rfl, trivial⟩
  case requestSent locals dest count =>
    obtain rfl := stage.eq_of_connected rfl
    exact ⟨_, .connected _ dest rfl, rfl, by simp [Writes]⟩
  case chunkSent locals dest stored chunk count =>
    obtain rfl := stage.eq_of_connected rfl
    have own := (works locals rfl).clientSocket
    exact ⟨_, .connected _ dest rfl, rfl, by simp [Writes, own]⟩
  case requestFailed locals dest =>
    obtain rfl := stage.eq_of_connected rfl
    have own := (works locals rfl).clientSocket
    refine ⟨_, ?_, rfl, by simp [Writes]⟩
    rw [Handler.writeFailed, own]
    exact .closing dest [] .ret nofun rfl
  case chunkFailed locals dest stored chunk =>
    obtain rfl := stage.eq_of_connected rfl
    have own := (works locals rfl).clientSocket
    refine ⟨_, ?_, rfl, by simp [Writes, own]⟩
    rw [Handler.writeFailed, own]
    exact .closing dest [] .ret nofun rfl
  case push locals dest =>
    obtain rfl := stage.eq_of_connected rfl
    have own := (works locals rfl).clientSocket
    refine ⟨_, ?_, rfl, trivial⟩
    rw [Handler.finish, own]
    exact .closing dest _ .post (by simp [NoClose]) rfl
  case post | ret =>
    obtain rfl := stage.eq_of_final rfl
    exact ⟨[], .ended [] _ nofun rfl, rfl, trivial⟩

namespace Shared

variable {shared after : Shared}

/-- The table and the log change as the call says. -/
def Acted (act : Act Fd Conn) (shared after : Shared) : Prop :=
  act.Allowed shared.fds ∧ after.fds = act.apply shared.fds ∧
    after.closes = shared.closes ++ act.log shared.fds

/-- A call that leaves table and log alone. -/
theorem Acted.keep (fds : after.fds = shared.fds) (closes : after.closes = shared.closes) :
    Acted .keep shared after :=
  ⟨trivial, fds, closes.trans (List.append_nil _).symm⟩

/-- What cleaning up does to the table. -/
theorem cleanup_acted {call : Cleanup} (step : shared.cleanup call = some after) (i : Nat) :
    Acted ((Event.cleanup call).act i) shared after := by
  cases call with
  | close fd => exact Option.some.inj step ▸ ⟨trivial, rfl, rfl⟩
  | free part => exact Option.some.inj step ▸ .keep rfl rfl
  | freeRequest block =>
    simp only [cleanup] at step
    split at step
    · exact Option.some.inj step ▸ .keep rfl rfl
    · cases step
  | destroyCache => exact Option.some.inj step ▸ .keep rfl rfl

/-- What a call of a handler does to the table. -/
theorem perform_acted {i : Nat} {event : Event} (step : shared.perform i event = some after) :
    Acted (event.act i) shared after := by
  cases event with
  | cleanup call => exact cleanup_acted step i
  | socket fd =>
    cases fd with
    | none => exact Option.some.inj step ▸ .keep rfl rfl
    | some dest =>
      obtain ⟨⟨-, unused⟩, rfl⟩ := opened_eq_some.mp step
      exact ⟨unused, rfl, (List.append_nil _).symm⟩
  | _ =>
    rcases perform_cases step with ⟨-, rfl⟩ | ⟨-, rfl⟩ | ⟨-, op, called⟩ | ⟨fd, impossible, -⟩ |
      ⟨call, impossible, -⟩
    · exact .keep rfl rfl
    · exact .keep rfl rfl
    · obtain ⟨store, -, rfl⟩ := onStore_eq_some.mp called
      exact .keep rfl rfl
    · exact nomatch impossible
    · exact nomatch impossible

/-- What a call of the accept loop does to the table. -/
theorem performAccept_acted {event : AcceptEvent} (step : shared.performAccept event = some after) :
    Acted event.act shared after := by
  cases event with
  | accept client =>
    cases client with
    | none => exact Option.some.inj step ▸ .keep rfl rfl
    | some client =>
      simp only [performAccept, Option.ite_none_right_eq_some] at step
      obtain ⟨⟨-, unused⟩, rfl⟩ := opened_eq_some.mp step.2
      exact ⟨unused, rfl, (List.append_nil _).symm⟩
  | read client got =>
    simp only [performAccept, Option.ite_none_right_eq_some] at step
    have change := step.2
    split at change <;> exact Option.some.inj change ▸ .keep rfl rfl
  | semWait =>
    simp only [performAccept, Option.ite_none_right_eq_some, Option.some.injEq] at step
    exact step.2 ▸ .keep rfl rfl
  | cleanup call =>
    have acted := cleanup_acted (show shared.cleanup call = some after from step) 0
    cases call <;> exact acted
  | store client => exact Option.some.inj step ▸ .keep rfl rfl
  | create err => exact Option.some.inj step ▸ .keep rfl rfl
  | exit => exact Option.some.inj step ▸ .keep rfl rfl

/-- How often the connection of a client was closed. -/
def closed (shared : Shared) (block : Nat) : Nat :=
  shared.closes.countP fun entry => decide (entry.2 = some (.client block))

variable {act : Act Fd Conn} {held held' : List (Fd × Conn)}

/-- What a call closes is counted. -/
theorem Acted.closed_eq (acted : Acted act shared after) (block : Nat) :
    after.closed block = shared.closed block +
      (act.log shared.fds).countP (fun entry => decide (entry.2 = some (.client block))) := by
  rw [closed, acted.2.2, List.countP_append]
  rfl

/-- Closed and held together, a connection is counted as often as before. -/
theorem Acted.closed_own (acted : Acted act shared after) (moves : act.Moves held held')
    (good : Held shared.fds held) {block : Nat} (notPut : ∀ fd, act ≠ .put fd (.client block)) :
    after.closed block + held'.countP (fun entry => decide (entry.2 = .client block)) =
      shared.closed block + held.countP (fun entry => decide (entry.2 = .client block)) := by
  have count := moves.count good notPut
  rw [acted.closed_eq]
  omega

/-- Nobody closes a connection that is not held. -/
theorem Acted.closed_other (acted : Acted act shared after) (moves : act.Moves held held')
    (good : Held shared.fds held) {block : Nat}
    (outside : ∀ entry, held = entry :: held' → entry.2 ≠ .client block) :
    after.closed block = shared.closed block := by
  rw [acted.closed_eq]
  rcases moves.log_eq good with none | ⟨entry, first, one⟩
  · rw [none]
    rfl
  · rw [one]
    simp [outside entry first]

/-- Whoever closes what it holds closes a live connection. -/
theorem Acted.live (acted : Acted act shared after) (moves : act.Moves held held')
    (good : Held shared.fds held) (live : ∀ entry ∈ shared.closes, entry.2 ≠ none) :
    ∀ entry ∈ after.closes, entry.2 ≠ none := by
  intro entry member
  rw [acted.2.2] at member
  rcases List.mem_append.mp member with old | new
  · exact live entry old
  · rcases moves.log_eq good with none | ⟨first, -, one⟩
    · rw [none] at new
      exact nomatch new
    · rw [one, List.mem_singleton] at new
      rw [new]
      exact nofun

end Shared

/-- The client the accept loop is busy with. -/
def AcceptPc.client : AcceptPc → Option Context
  | .read client | .semWait client | .store client | .create client => some client
  | _ => none

/-- The connections the accept loop still has to close or to hand over. -/
inductive AcceptStage (server : Fd) : Acceptor → List (Fd × Conn) → Prop
  /-- The listening socket. -/
  | idle : AcceptStage server ⟨server, [], .accept⟩ [(server, .server)]
  /-- The listening socket and a client. -/
  | busy (client : Context) (pc : AcceptPc) (has : pc.client = some client) :
    AcceptStage server ⟨server, [], pc⟩
      [(server, .server), (client.clientSocket, .client client.request)]
  /-- The listening socket, about to be closed. -/
  | leaving : AcceptStage server ⟨server, [.close server, .destroyCache], .exit⟩ [(server, .server)]
  /-- None. -/
  | gone (rest : List Cleanup) (pc : AcceptPc) (noClose : NoClose rest)
    (ended : pc = .exit ∨ pc = .exited) : AcceptStage server ⟨server, rest, pc⟩ []

/-- The accept loop keeps its listening socket. -/
theorem AcceptStage.server_eq {server : Fd} {acceptor : Acceptor} {held : List (Fd × Conn)}
    (stage : AcceptStage server acceptor held) : server = acceptor.server := by
  cases stage <;> rfl

/-- The accept loop holds no connection twice. -/
theorem AcceptStage.nodup {server : Fd} {acceptor : Acceptor} {held : List (Fd × Conn)}
    (stage : AcceptStage server acceptor held) : (held.map Prod.snd).Nodup := by
  cases stage <;> simp

/-- About to accept, it holds the listening socket. -/
theorem AcceptStage.eq_of_accept {server : Fd} {held : List (Fd × Conn)}
    (stage : AcceptStage server ⟨server, [], .accept⟩ held) : held = [(server, .server)] := by
  cases stage with
  | idle => rfl
  | busy client _ has => exact nomatch has
  | gone _ _ noClose ended => rcases ended with isExit | isExit <;> exact nomatch isExit

/-- Busy with a client, it holds the client too. -/
theorem AcceptStage.eq_of_client {server : Fd} {pc : AcceptPc} {client : Context}
    {held : List (Fd × Conn)} (stage : AcceptStage server ⟨server, [], pc⟩ held)
    (busy : pc.client = some client) :
    held = [(server, .server), (client.clientSocket, .client client.request)] := by
  cases stage with
  | idle => exact nomatch busy
  | busy other _ has =>
    obtain rfl := Option.some.inj (has.symm.trans busy)
    rfl
  | gone _ _ noClose ended =>
    rcases ended with isExit | isExit
    · rw [isExit] at busy
      exact nomatch busy
    · rw [isExit] at busy
      exact nomatch busy

/-- The connections of the accept loop are the listening socket and its client's. -/
theorem AcceptStage.conn_mem {server : Fd} {acceptor : Acceptor} {held : List (Fd × Conn)}
    (stage : AcceptStage server acceptor held) {entry : Fd × Conn} (member : entry ∈ held) :
    entry.2 = .server ∨ ∃ client, acceptor.pc.client = some client ∧
      entry.2 = .client client.request := by
  cases stage <;> simp only [List.mem_cons, List.not_mem_nil, or_false] at member
  · exact Or.inl (congrArg Prod.snd member)
  · rename_i client pc has
    rcases member with rfl | rfl
    · exact Or.inl rfl
    · exact Or.inr ⟨client, has, rfl⟩
  · exact Or.inl (congrArg Prod.snd member)

namespace Process

variable {process after : Process} {trace : List Label}

/-- Clients have blocks of their own. -/
structure Apart (process : Process) : Prop where
  /-- Two threads have different clients. -/
  threads : ∀ (i j : Nat) (first second : Thread), process.threads[i]? = some first →
    process.threads[j]? = some second → first.client.request = second.client.request → i = j
  /-- The client the accept loop is busy with has no thread. -/
  waiting : ∀ client thread, process.acceptor.pc.client = some client →
    thread ∈ process.threads → thread.client.request ≠ client.request
  /-- The threads' blocks are allocated. -/
  inside : ∀ thread ∈ process.threads, thread.client.request < process.shared.requests.length

/-- Handing over in time keeps clients apart. -/
theorem Handing.clientsApart (handing : Handing process trace)
    (blocks : Blocks (received trace) process) : process.Apart := by
  have requests : (received trace).map (·.1.request) =
      (process.threads.map Thread.client ++ process.acceptor.waiting).map Context.request := by
    rw [← handing.clients, List.map_map]
    rfl
  have distinct := blocks.apart
  rw [requests, List.map_append, List.map_map] at distinct
  have entryOf : ∀ thread ∈ process.threads, ∃ entry ∈ received trace,
      entry.1 = thread.client := by
    intro thread member
    have listed : thread.client ∈ (received trace).map Prod.fst := by
      rw [handing.clients]
      exact List.mem_append_left _ (List.mem_map_of_mem member)
    obtain ⟨entry, isEntry, same⟩ := List.mem_map.mp listed
    exact ⟨entry, isEntry, same⟩
  refine ⟨?_, ?_, ?_⟩
  · intro i j first second here there same
    have inside := (List.getElem?_eq_some_iff.mp here).1
    refine (List.getElem?_inj (by simpa using inside) (List.nodup_append.mp distinct).1).mp ?_
    simp [here, there, same]
  · intro client thread busy member same
    obtain ⟨entry, isEntry, isClient⟩ := entryOf thread member
    have apart := (List.nodup_append.mp distinct).2.2
    cases at_ : process.acceptor.pc with
    | read reading =>
      rw [at_] at busy
      obtain rfl := Option.some.inj busy
      have older := (blocks.filling reading at_).2 entry isEntry
      rw [isClient, same] at older
      exact Nat.lt_irrefl _ older
    | semWait waiting | store waiting | create waiting =>
      rw [at_] at busy
      obtain rfl := Option.some.inj busy
      refine apart thread.client.request ?_ waiting.request ?_ same
      · exact List.mem_map.mpr ⟨thread, member, rfl⟩
      · simp [Acceptor.waiting, at_]
    | _ =>
      rw [at_] at busy
      cases busy
  · intro thread member
    obtain ⟨entry, isEntry, same⟩ := entryOf thread member
    rw [← same]
    exact blocks.inside entry isEntry

/-- Every descriptor in use is held by one party, which closes it once. -/
structure Holding (process : Process) : Prop where
  /-- The accept loop holds the listening socket and its client. -/
  acceptor : ∃ held, AcceptStage process.acceptor.server process.acceptor held ∧
    Held process.shared.fds held
  /-- A handler holds its client until it has closed it. -/
  threads : ∀ (i : Nat) (thread : Thread), process.threads[i]? = some thread →
    ∃ held, Stage thread.client i thread.handler held ∧ Held process.shared.fds held ∧
      process.shared.closed thread.client.request +
        held.countP (fun entry => decide (entry.2 = .client thread.client.request)) = 1
  /-- The client of the accept loop was not closed. -/
  waiting : ∀ client, process.acceptor.pc.client = some client →
    process.shared.closed client.request = 0
  /-- Clients to come were not closed. -/
  fresh : ∀ block, process.shared.requests.length ≤ block → process.shared.closed block = 0
  /-- Every call of `close` ended a connection. -/
  live : ∀ entry ∈ process.shared.closes, entry.2 ≠ none

/-- A step of the accept loop that creates no handler and closes no client. -/
theorem Holding.acceptorStep (holding : Holding process) (apart : process.Apart)
    {shared : Shared} {acceptor : Acceptor} {act : Act Fd Conn} {held held' : List (Fd × Conn)}
    {server : Fd} (acted : Shared.Acted act process.shared shared) (moves : act.Moves held held')
    (stage : AcceptStage server process.acceptor held) (good : Held process.shared.fds held)
    (stage' : AcceptStage server acceptor held')
    (listening : ∀ entry, held = entry :: held' → entry.2 = .server)
    (longer : process.shared.requests.length ≤ shared.requests.length)
    (waiting : ∀ client, acceptor.pc.client = some client →
      process.acceptor.pc.client = some client ∨
        client.request = process.shared.requests.length)
    {created : List Thread} (uncreated : created = []) :
    Holding ⟨shared, acceptor, process.threads ++ created⟩ := by
  rw [uncreated, List.append_nil]
  have same : ∀ block, shared.closed block = process.shared.closed block := fun block =>
    acted.closed_other moves good fun entry first => by
      rw [listening entry first]
      exact nofun
  exact
    { acceptor := ⟨held', stage'.server_eq ▸ stage',
        acted.2.1 ▸ moves.held good acted.1 stage.nodup⟩
      threads := by
        intro i thread here
        obtain ⟨mine, mineStage, mineGood, count⟩ := holding.threads i thread here
        refine ⟨mine, mineStage, ?_, ?_⟩
        · show Held shared.fds mine
          rw [acted.2.1]
          refine moves.others good acted.1 mineGood fun entry member other otherMember equal => ?_
          rcases stage.conn_mem member with isServer | ⟨client, busy, isClient⟩
          · rw [isServer] at equal
            rcases mineStage.conn_mem otherMember with own | own <;>
              exact nomatch own.symm.trans equal
          · rw [isClient] at equal
            rcases mineStage.conn_mem otherMember with own | own
            · have requests := Conn.client.inj (own.symm.trans equal)
              exact apart.waiting client thread busy (List.mem_of_getElem? here) requests
            · exact nomatch own.symm.trans equal
        · show shared.closed _ + _ = 1
          rw [same]
          exact count
      waiting := by
        intro client busy
        show shared.closed _ = 0
        rw [same]
        rcases waiting client busy with before | new
        · exact holding.waiting client before
        · exact holding.fresh _ (Nat.le_of_eq new.symm)
      fresh := by
        intro block beyond
        show shared.closed _ = 0
        rw [same]
        exact holding.fresh block (Nat.le_trans longer beyond)
      live := acted.live moves good holding.live }

/-- A step of the accept loop keeps every descriptor with its holder. -/
theorem Holding.acceptorNext (holding : Holding process) (apart : process.Apart)
    {event : AcceptEvent} (inTime : timely process (.acceptor event) = true)
    (kept : tidy (.acceptor event) = true) (step : process.next (.acceptor event) = some after) :
    Holding after := by
  obtain ⟨acceptor, shared, moved, performed, rfl⟩ := next_acceptor step
  have acted := Shared.performAccept_acted performed
  obtain ⟨held, stage, good⟩ := holding.acceptor
  obtain ⟨before, ⟨server, todo, pc⟩, threads⟩ := process
  have advance := Acceptor.step_of_next moved
  dsimp only at advance performed stage good acted
  cases advance with
  | cleanup call rest pc =>
    have longer := (Shared.cleanup_requests performed).1.ge
    have uncreated : Acceptor.created ⟨server, call :: rest, pc⟩ (.cleanup call) = [] := by
      simp [Acceptor.created]
    cases stage with
    | leaving =>
      refine holding.acceptorStep apart acted ⟨_, rfl⟩ .leaving good
        (.gone [.destroyCache] .exit (by simp [NoClose]) (Or.inl rfl)) ?_ longer
        (fun client busy => Or.inl busy) uncreated
      intro entry first
      rw [← (List.cons.inj first).1]
    | gone _ _ noClose ended =>
      have later : NoClose rest := fun fd member => noClose fd (List.mem_cons_of_mem _ member)
      have keep : (AcceptEvent.cleanup call).act = .keep := by
        cases call with
        | close fd => exact absurd List.mem_cons_self (noClose fd)
        | _ => rfl
      rw [keep] at acted
      exact holding.acceptorStep apart acted rfl (.gone _ pc noClose ended) good
        (.gone rest pc later ended) (by simp) longer
        (fun client busy => Or.inl busy) uncreated
  | refused =>
    obtain rfl := stage.eq_of_accept
    exact holding.acceptorStep apart acted rfl .idle good .leaving (by simp)
      (Option.some.inj performed ▸ Nat.le_refl _) (fun client busy => by cases busy) rfl
  | accepted client =>
    obtain rfl := stage.eq_of_accept
    have allocated := performed
    simp only [Shared.performAccept, Option.ite_none_right_eq_some] at allocated
    obtain ⟨-, rfl⟩ := Shared.opened_eq_some.mp allocated.2
    refine holding.acceptorStep apart acted rfl .idle good (.busy client _ rfl) ?_ ?_ ?_ rfl
    · intro entry first
      simp at first
    · simp
    · rintro other busy
      obtain rfl := Option.some.inj busy
      exact Or.inr allocated.1
  | received client byte rest short =>
    obtain rfl := stage.eq_of_client rfl
    simp only [Shared.performAccept, Option.ite_none_right_eq_some, Option.some.injEq] at performed
    refine holding.acceptorStep apart acted rfl stage good (.busy client (.semWait client) rfl)
      (by simp) ?_ (fun other busy => Or.inl busy) rfl
    rw [← performed.2]
    exact List.length_set.ge
  | unreadable client got empty => rcases empty with rfl | rfl <;> cases kept
  | semWait client =>
    obtain rfl := stage.eq_of_client rfl
    simp only [Shared.performAccept, Option.ite_none_right_eq_some, Option.some.injEq] at performed
    exact holding.acceptorStep apart acted rfl stage good (.busy client (.store client) rfl)
      (by simp) (performed.2 ▸ Nat.le_refl _) (fun other busy => Or.inl busy) rfl
  | store client =>
    obtain rfl := stage.eq_of_client rfl
    exact holding.acceptorStep apart acted rfl stage good (.busy client (.create client) rfl)
      (by simp) (Option.some.inj performed ▸ Nat.le_refl _) (fun other busy => Or.inl busy) rfl
  | created client err passed =>
    obtain rfl := stage.eq_of_client rfl
    obtain rfl := Option.some.inj performed
    obtain ⟨listening, handedOver⟩ := held_cons.mp good
    exact
      { acceptor := ⟨_, .idle, held_cons.mpr ⟨listening, held_nil⟩⟩
        threads := by
          intro i thread here
          rcases thread_appended here with old | ⟨-, -, other, isCreate, rfl⟩
          · exact holding.threads i thread old
          · obtain rfl := AcceptPc.create.inj isCreate
            have unclosed := holding.waiting client rfl
            exact ⟨_, .early _ rfl, handedOver, by simp [unclosed]⟩
        waiting := fun other busy => by cases busy
        fresh := holding.fresh
        live := holding.live }
  | uncreated client => cases inTime
  | exit =>
    cases stage with
    | busy client _ has => cases has
    | gone _ _ noClose ended =>
      exact holding.acceptorStep apart acted rfl (.gone [] _ noClose ended) good
        (.gone [] .exited (by simp [NoClose]) (Or.inr rfl)) (by simp)
        (Option.some.inj performed ▸ Nat.le_refl _) (fun client busy => by cases busy) rfl

/-- A handler's connections are nobody else's. -/
theorem Apart.conn_ne (apart : process.Apart) {i : Nat} {thread : Thread} {held : List (Fd × Conn)}
    {entry : Fd × Conn} (here : process.threads[i]? = some thread)
    (stage : Stage thread.client i thread.handler held) (member : entry ∈ held) :
    (∀ j other held' entry', j ≠ i → process.threads[j]? = some other →
      Stage other.client j other.handler held' → entry' ∈ held' → entry'.2 ≠ entry.2) ∧
    (∀ j other, j ≠ i → process.threads[j]? = some other →
      entry.2 ≠ .client other.client.request) ∧
    (∀ client, process.acceptor.pc.client = some client → entry.2 ≠ .client client.request) ∧
    (∀ block, process.shared.requests.length ≤ block → entry.2 ≠ .client block) ∧
    entry.2 ≠ .server := by
  have notClient : ∀ j other, j ≠ i → process.threads[j]? = some other →
      entry.2 ≠ .client other.client.request := by
    intro j other different there equal
    rcases stage.conn_mem member with own | own
    · have requests := Conn.client.inj (own.symm.trans equal)
      exact different (apart.threads j i other thread there here requests.symm)
    · exact nomatch own.symm.trans equal
  refine ⟨?_, notClient, ?_, ?_, ?_⟩
  · intro j other held' entry' different there stage' member' equal
    rcases stage'.conn_mem member' with own' | own'
    · exact notClient j other different there (equal.symm.trans own')
    · rcases stage.conn_mem member with own | own
      · exact nomatch own'.symm.trans (equal.trans own)
      · exact different (Conn.remote.inj (own'.symm.trans (equal.trans own)))
  · intro client busy equal
    rcases stage.conn_mem member with own | own
    · have requests := Conn.client.inj (own.symm.trans equal)
      exact apart.waiting client thread busy (List.mem_of_getElem? here) requests
    · exact nomatch own.symm.trans equal
  · intro block beyond equal
    rcases stage.conn_mem member with own | own
    · have requests := Conn.client.inj (own.symm.trans equal)
      have inside := apart.inside thread (List.mem_of_getElem? here)
      omega
    · exact nomatch own.symm.trans equal
  · intro equal
    rcases stage.conn_mem member with own | own <;> exact nomatch own.symm.trans equal

/-- A step of a handler keeps every descriptor with its holder. -/
theorem Holding.threadNext (holding : Holding process) (apart : process.Apart) {i : Nat}
    {event : Event} {thread : Thread} {text : CString} (here : process.threads[i]? = some thread)
    (works : thread.handler.pc.Of thread.client text) (kept : tidy (.thread i event) = true)
    (step : process.next (.thread i event) = some after) : Holding after := by
  obtain ⟨moving, handler, shared, there, moved, performed, rfl⟩ := next_thread step
  obtain rfl := Option.some.inj (there.symm.trans here)
  have acted := Shared.perform_acted performed
  have length := (Shared.perform_requests performed).1
  obtain ⟨held, stage, good, count⟩ := holding.threads i moving here
  obtain ⟨held', stage', moves, -⟩ := (Handler.step_of_next moved).stage works kept stage
  have member : ∀ entry, held = entry :: held' → entry ∈ held := by
    rintro entry rfl
    exact List.mem_cons_self
  exact
    { acceptor := by
        obtain ⟨theirs, theirStage, theirGood⟩ := holding.acceptor
        refine ⟨theirs, theirStage, ?_⟩
        show Held shared.fds theirs
        rw [acted.2.1]
        refine moves.others good acted.1 theirGood fun entry member other otherMember equal => ?_
        obtain ⟨-, -, notWaiting, -, notServer⟩ := apart.conn_ne here stage member
        rcases theirStage.conn_mem otherMember with isServer | ⟨client, busy, isClient⟩
        · exact notServer (equal.symm.trans isServer)
        · exact notWaiting client busy (equal.symm.trans isClient)
      threads := by
        intro j other now
        rcases thread_moved now with ⟨rfl, rfl⟩ | ⟨different, old⟩
        · refine ⟨held', stage', acted.2.1 ▸ moves.held good acted.1 stage.nodup, ?_⟩
          exact (acted.closed_own moves good (event.act_ne_put_client _ _)).trans count
        · obtain ⟨theirs, theirStage, theirGood, theirCount⟩ := holding.threads j other old
          refine ⟨theirs, theirStage, ?_, ?_⟩
          · show Held shared.fds theirs
            rw [acted.2.1]
            exact moves.others good acted.1 theirGood fun entry member entry' member' =>
              (apart.conn_ne here stage member).1 j other theirs entry' different old theirStage
                member'
          · show shared.closed _ + _ = 1
            rw [acted.closed_other moves good fun entry first =>
              (apart.conn_ne here stage (member entry first)).2.1 j other different old]
            exact theirCount
      waiting := by
        intro client busy
        show shared.closed _ = 0
        rw [acted.closed_other moves good fun entry first =>
          (apart.conn_ne here stage (member entry first)).2.2.1 client busy]
        exact holding.waiting client busy
      fresh := by
        intro block beyond
        have outside := length ▸ beyond
        show shared.closed _ = 0
        rw [acted.closed_other moves good fun entry first =>
          (apart.conn_ne here stage (member entry first)).2.2.2.1 block outside]
        exact holding.fresh block outside
      live := acted.live moves good holding.live }

/-- The call is not on a descriptor that stands for somebody else's connection. -/
def OwnTarget (process : Process) : Label → Prop
  | .thread i (.write .remote fd _ _) =>
    ∀ conn, process.shared.fds fd = some conn → conn = .remote i
  | .thread i (.write _ fd _ _) => ∀ conn, process.shared.fds fd = some conn →
    ∃ thread, process.threads[i]? = some thread ∧ conn = .client thread.client.request
  | .thread i (.cleanup (.close fd)) => ∀ conn, process.shared.fds fd = some conn →
    conn = .remote i ∨
      ∃ thread, process.threads[i]? = some thread ∧ conn = .client thread.client.request
  | .acceptor (.cleanup (.close fd)) => ∀ conn, process.shared.fds fd = some conn →
    conn = .server ∨ ∃ block, conn = .client block ∧ block + 1 = process.shared.requests.length
  | _ => True

/-- Whoever uses what it holds uses nobody else's. -/
theorem Holding.ownTarget (holding : Holding process) {i : Nat} {event : Event} {thread : Thread}
    {text : CString} (here : process.threads[i]? = some thread)
    (works : thread.handler.pc.Of thread.client text) (kept : tidy (.thread i event) = true)
    (step : process.next (.thread i event) = some after) :
    process.OwnTarget (.thread i event) := by
  obtain ⟨moving, handler, shared, there, moved, -, rfl⟩ := next_thread step
  obtain rfl := Option.some.inj (there.symm.trans here)
  obtain ⟨held, stage, good, -⟩ := holding.threads i moving here
  obtain ⟨held', -, moves, writes⟩ := (Handler.step_of_next moved).stage works kept stage
  cases event with
  | write target fd bytes sent =>
    cases target with
    | remote =>
      intro conn stands
      exact (Option.some.inj ((good _ writes).symm.trans stands)).symm
    | cached | client =>
      intro conn stands
      exact ⟨moving, here, (Option.some.inj ((good _ writes).symm.trans stands)).symm⟩
  | cleanup call =>
    cases call with
    | close fd =>
      intro conn stands
      obtain ⟨own, rfl⟩ := moves
      obtain rfl := Option.some.inj ((held_cons.mp good).1.symm.trans stands)
      rcases stage.conn_mem List.mem_cons_self with isClient | isRemote
      · exact Or.inr ⟨moving, here, isClient⟩
      · exact Or.inl isRemote
    | _ => trivial
  | _ => trivial

/-- The accept loop closes its listening socket only. -/
theorem Holding.ownTarget_acceptor (holding : Holding process) {event : AcceptEvent}
    (step : process.next (.acceptor event) = some after) :
    process.OwnTarget (.acceptor event) := by
  obtain ⟨acceptor, shared, moved, -, rfl⟩ := next_acceptor step
  obtain ⟨held, stage, good⟩ := holding.acceptor
  cases event with
  | cleanup call =>
    cases call with
    | close fd =>
      intro conn stands
      left
      obtain ⟨before, ⟨server, todo, pc⟩, threads⟩ := process
      have advance := Acceptor.step_of_next moved
      dsimp only at advance stage good stands
      cases advance with
      | cleanup _ rest pc =>
        cases stage with
        | leaving => exact (Option.some.inj ((held_cons.mp good).1.symm.trans stands)).symm
        | gone _ _ noClose ended => exact absurd List.mem_cons_self (noClose fd)
    | _ => trivial
  | _ => trivial

variable {server : Fd} {mem : Memory} {cache : Ptr} {garbage : Cache}

/-- Before the first step the accept loop holds the listening socket. -/
theorem holding_start : Holding (start server mem cache garbage) where
  acceptor := ⟨_, .idle, held_cons.mpr ⟨by simp [start], held_nil⟩⟩
  threads i thread here := by simp [start] at here
  waiting := nofun
  fresh _ _ := rfl
  live := nofun

/-- The step is tidy, and a handler that reads `ctx` does so in time. -/
def Orderly (process : Process) (label : Label) : Prop :=
  timely process label = true ∧ tidy label = true

instance (process : Process) (label : Label) : Decidable (process.Orderly label) :=
  inferInstanceAs (Decidable (_ ∧ _))

/-- A handler of a run that reads `ctx` in time works for its client. -/
theorem Handing.of_thread (handing : Handing process trace) {i : Nat} {thread : Thread}
    (here : process.threads[i]? = some thread) :
    ∃ text, thread.handler.pc.Of thread.client text := by
  obtain ⟨text, entry⟩ := handing.entry here
  exact ⟨text, (handing.works i thread text here entry).1⟩

/-- An orderly step keeps every descriptor with its holder and is on the caller's own. -/
theorem Holding.next (holding : Holding process) (handing : Handing process trace)
    (blocks : Blocks (received trace) process) {label : Label} (orderly : process.Orderly label)
    (step : process.next label = some after) : Holding after ∧ process.OwnTarget label := by
  have apart := handing.clientsApart blocks
  cases label with
  | acceptor event =>
    exact ⟨holding.acceptorNext apart orderly.1 orderly.2 step, holding.ownTarget_acceptor step⟩
  | thread i event =>
    obtain ⟨thread, -, -, here, -, -, -⟩ := next_thread step
    obtain ⟨text, works⟩ := handing.of_thread here
    exact ⟨holding.threadNext apart here works orderly.2 step,
      holding.ownTarget here works orderly.2 step⟩

/-- Along an orderly run every descriptor has its holder. -/
theorem holding_run (run : exec next (start server mem cache garbage) trace = some process)
    (meets : Meets next Orderly (start server mem cache garbage) trace) :
    Handing process trace ∧ Holding process := by
  refine exec_induct_meets (motive := fun labels state => Handing state labels ∧ Holding state)
    ⟨handing_start, holding_start⟩ ?_ run meets
  intro labels middle label finish earlier ih orderly step
  obtain ⟨handing, holding⟩ := ih
  exact ⟨handing.next earlier orderly.1 step,
    (holding.next handing (blocks_run earlier) orderly step).1⟩

end Process

/-- A handler returns with nothing left to do. -/
theorem Handler.Step.todo_nil {handler after : Handler} {event : Event}
    (step : Handler.Step handler event after)
    (before : handler.running = false → handler.todo = []) (returned : after.running = false) :
    after.todo = [] := by
  cases step
  case cleanup call rest pc => exact nomatch before returned
  case writeCached locals copy sent => cases sent <;> exact nomatch returned
  all_goals first | rfl | exact nomatch returned

/-- A handler that has returned has nothing left to do. -/
theorem Handler.todo_of_done {events : List Event} {handler : Handler}
    (run : exec Handler.next Handler.start events = some handler) :
    handler.running = false → handler.todo = [] :=
  exec_invariant (fun _ _ _ before step => (Handler.step_of_next step).todo_nil before)
    (fun _ => rfl) run

open Process

/-- In every run in which requests are readable, lookups miss, connections are made, `ctx` is read
in time and threads are created: no call of `write` or `close` is on a descriptor that stands for
somebody else's connection, every `close` ends a connection, and the connection of a client whose
handler has returned was closed exactly once. -/
theorem descriptors_owned {server : Fd} {mem : Memory} {cache : Ptr} {garbage : Cache}
    {trace : List Label} {process : Process}
    (run : exec next (start server mem cache garbage) trace = some process)
    (meets : Meets next Orderly (start server mem cache garbage) trace) :
    (∀ earlier label later before, trace = earlier ++ label :: later →
      exec next (start server mem cache garbage) earlier = some before → before.OwnTarget label) ∧
    (∀ entry ∈ process.shared.closes, entry.2 ≠ none) ∧
    ∀ (i : Nat) (thread : Thread), process.threads[i]? = some thread →
      thread.handler.running = false → process.shared.closed thread.client.request = 1 := by
  refine ⟨?_, (holding_run run meets).2.live, ?_⟩
  · rintro earlier label later before rfl reached
    obtain ⟨after, step, -⟩ := exec_step run reached
    obtain ⟨handing, holding⟩ := holding_run reached (meets_left meets)
    exact (holding.next handing (blocks_run reached) (meets_at meets reached) step).2
  · intro i thread here returned
    obtain ⟨held, stage, -, count⟩ := (holding_run run meets).2.threads i thread here
    have nothing := Handler.todo_of_done (handler_run run here) returned
    obtain ⟨client, ⟨todo, pc⟩⟩ := thread
    dsimp only at nothing stage count returned
    subst nothing
    have final : pc.phase = .final := by
      cases pc with
      | done => rfl
      | _ => exact nomatch returned
    obtain rfl := stage.eq_of_final final
    exact count

/-- Two clients whose handlers run at the same time. -/
def sideBySide : List Label :=
  acceptOne ⟨4, 0⟩ (requestFor [65]).bytes ++ lookUp 0 ⟨4, 0⟩ (requestFor [65]) none ++
    acceptOne ⟨5, 1⟩ (requestFor [66]).bytes ++ lookUp 1 ⟨5, 1⟩ (requestFor [66]) none ++
    reach 0 ⟨4, 0⟩ (requestFor [65]) 2 6 ++ reach 1 ⟨5, 1⟩ (requestFor [66]) 4 7 ++
    [.thread 0 (.write .remote 6 (requestFor [65]).bytes none),
      .thread 1 (.write .remote 7 (requestFor [66]).bytes (some (requestFor [66]).strlen)),
      .thread 0 (.cleanup (.close 4)), .thread 1 (.read 7 (some [])),
      .thread 0 (.cleanup (.close 6)), .thread 0 .ret] ++
    leave 1 ⟨5, 1⟩ 7

/-- Both clients are closed once, although one request could not be written. -/
theorem descriptors_owned_sideBySide :
    ∃ process, exec next (start 3 Heap.empty 1 ⟨7, 0, 0, 0⟩) sideBySide = some process ∧
      process.shared.closed 0 = 1 ∧ process.shared.closed 1 = 1 := by
  have outcome : (exec next (start 3 Heap.empty 1 ⟨7, 0, 0, 0⟩) sideBySide).map
      (fun process => process.threads.map fun thread =>
        (thread.client.request, thread.handler.running)) = some [(0, false), (1, false)] := by
    decide +kernel
  obtain ⟨process, run, facts⟩ := Option.map_eq_some_iff.mp outcome
  obtain ⟨first, second, whole⟩ := List.length_eq_two.mp
    (by simpa using congrArg List.length facts : process.threads.length = 2)
  rw [whole] at facts
  simp only [List.map_cons, List.map_nil, List.cons.injEq, Prod.mk.injEq, and_true] at facts
  obtain ⟨⟨zero, returned⟩, one, returned'⟩ := facts
  have once := (descriptors_owned run (by decide +kernel)).2.2
  have firstOnce := once 0 first (by rw [whole]; rfl) returned
  have secondOnce := once 1 second (by rw [whole]; rfl) returned'
  rw [zero] at firstOnce
  rw [one] at secondOnce
  exact ⟨process, run, firstOnce, secondOnce⟩

/-- A client is served from the cache; its handler has closed the descriptor once when the accept
loop takes a third client and gets the same number. -/
def closedAndReused : List Label :=
  served 0 ⟨4, 0⟩ [65] 2 5 [104, 105] ++ acceptOne ⟨4, 1⟩ (requestFor [65]).bytes ++
    lookUp 1 ⟨4, 1⟩ (requestFor [65]) (some [104, 105]) ++
    [.thread 1 (.write .cached 4 [104, 105] (some 2)),
      .thread 1 (.cleanup (.free .cacheRecord)), .thread 1 (.cleanup (.close 4)),
      .acceptor (.accept (some ⟨4, 2⟩)), .thread 1 (.reload 1),
      .thread 1 (.cleanup (.freeRequest 1))]

/-- The second `close` of the handler that served from the cache ends the third client's
connection. -/
theorem descriptor_of_another :
    ∃ before after, exec next (start 3 Heap.empty 1 ⟨7, 0, 0, 0⟩) closedAndReused = some before ∧
      before.next (.thread 1 (.cleanup (.close 4))) = some after ∧
      before.shared.fds 4 = some (.client 2) ∧
      ¬ before.OwnTarget (.thread 1 (.cleanup (.close 4))) := by
  have outcome : (exec next (start 3 Heap.empty 1 ⟨7, 0, 0, 0⟩) closedAndReused).map
      (fun process => (process.shared.fds 4, process.threads.map (·.client.request),
        (process.next (.thread 1 (.cleanup (.close 4)))).isSome)) =
        some (some (.client 2), [0, 1], true) := by
    decide +kernel
  obtain ⟨before, run, facts⟩ := Option.map_eq_some_iff.mp outcome
  simp only [Prod.mk.injEq] at facts
  obtain ⟨stands, clients, possible⟩ := facts
  obtain ⟨after, step⟩ := Option.isSome_iff_exists.mp possible
  refine ⟨before, after, run, step, stands, fun own => ?_⟩
  rcases own _ stands with isRemote | ⟨thread, here, isClient⟩
  · exact nomatch isRemote
  · have second := congrArg (·[1]?) clients
    simp only [List.getElem?_map, here, Option.map_some] at second
    have request : thread.client.request = 1 := by simpa using second
    rw [request] at isClient
    exact absurd isClient (by decide)

end NsuOs.Proxy
