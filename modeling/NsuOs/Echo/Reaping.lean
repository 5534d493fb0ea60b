import NsuOs.Base.Run

/-!
# The children of the echo server

`main` of `server.c` forks a child for each connection, and `sigchld_handler` waits for one child
each time it runs. `SIGCHLD` is a single bit: the exit of a child sets it, the start of the handler
clears it, and the handler does not start while it is running. So exits coalesce, and the account
below keeps apart the exits that the bit and a running handler still stand for from those that
found the bit already set.
-/
namespace NsuOs.Echo

open NsuOs.Run

/-- Where `main` is in its accept loop. -/
inductive AcceptPc
  /-- At `accept`. -/
  | accept
  /-- At `fork`, with a connection. -/
  | fork
  /-- At `close(clt_sock)` of the parent. -/
  | close
  /-- `accept` or `fork` failed and the server exited. -/
  | exited
  deriving DecidableEq

/-- Where the process is in `sigchld_handler`. -/
inductive HandlerPc
  /-- Not running. -/
  | idle
  /-- At the `wait`. -/
  | wait
  /-- After the `wait`. -/
  | leaving
  deriving DecidableEq

/-- The server process: where it is, the children that run, those that have exited and were not
waited for, and whether `SIGCHLD` is pending. -/
structure Parent where
  /-- Where the accept loop is. -/
  main : AcceptPc
  /-- Where the handler of `SIGCHLD` is. -/
  handler : HandlerPc
  /-- The children that run. -/
  running : List Nat
  /-- The children that have exited and were not waited for. -/
  zombies : List Nat
  /-- `SIGCHLD` is pending. -/
  pending : Bool
  deriving DecidableEq

/-- A call of the server with its result, an exit of a child, or a delivery of the signal. -/
inductive Event
  /-- `accept` returns. -/
  | accept (success : Bool)
  /-- `fork` returns, with the child if it succeeds. -/
  | fork (child : Option Nat)
  /-- The parent closes its copy of the connection. -/
  | close
  /-- A child exits. -/
  | exit (child : Nat)
  /-- The pending signal is delivered. -/
  | deliver
  /-- `wait` returns, with the child it reaped. -/
  | wait (child : Option Nat)
  /-- The handler returns. -/
  | leave
  deriving DecidableEq

/-- One step of the accept loop of `main`. A child leaves the loop at once, so only the parent's
side is kept here. -/
def acceptLoop (server : Parent) : Event → Option Parent
  | .accept success =>
    if server.main = .accept then
      some { server with main := if success then .fork else .exited }
    else none
  | .fork none => if server.main = .fork then some { server with main := .exited } else none
  | .fork (some child) =>
    if server.main = .fork ∧ child ∉ server.running ∧ child ∉ server.zombies then
      some { server with main := .close, running := child :: server.running }
    else none
  | .close => if server.main = .close then some { server with main := .accept } else none
  | _ => none

/-- One step of `sigchld_handler`: `wait` takes any exited child, blocks while there are only
running ones, and fails without children. -/
def sigchldHandler (server : Parent) : Event → Option Parent
  | .wait (some child) =>
    if server.handler = .wait ∧ child ∈ server.zombies then
      some { server with handler := .leaving, zombies := server.zombies.erase child }
    else none
  | .wait none =>
    if server.handler = .wait ∧ server.running = [] ∧ server.zombies = [] then
      some { server with handler := .leaving }
    else none
  | .leave => if server.handler = .leaving then some { server with handler := .idle } else none
  | _ => none

/-- One step of the process or of its surroundings. The loop is interrupted while the handler runs,
and the signal is blocked meanwhile; a child exits at any time. -/
def Parent.next (server : Parent) (event : Event) : Option Parent :=
  if server.main = .exited then none
  else
    match event with
    | .accept _ | .fork _ | .close =>
      if server.handler = .idle then acceptLoop server event else none
    | .exit child =>
      if child ∈ server.running then
        some { server with
          running := server.running.erase child
          zombies := child :: server.zombies
          pending := true }
      else none
    | .deliver =>
      if server.pending = true ∧ server.handler = .idle then
        some { server with handler := .wait, pending := false }
      else none
    | .wait _ | .leave => sigchldHandler server event

/-- The server before its first `accept`, with the handler installed. -/
def Parent.start : Parent := ⟨.accept, .idle, [], [], false⟩

/-- No `SIGCHLD` is pending and the handler is not running. -/
def Parent.Quiet (server : Parent) : Prop := server.pending = false ∧ server.handler = .idle

/-- The condition on a step: a child exits only while no `SIGCHLD` is pending. -/
def ExitsSeparately (server : Parent) : Event → Prop
  | .exit _ => server.pending = false
  | _ => True

instance (server : Parent) : ∀ event, Decidable (ExitsSeparately server event)
  | .exit _ => inferInstanceAs (Decidable (server.pending = false))
  | .accept _ | .fork _ | .close | .deliver | .wait _ | .leave => .isTrue trivial

/-- The waits still to come: one for a pending signal and one for a handler before its `wait`. -/
def Parent.due (server : Parent) : Nat :=
  (if server.pending then 1 else 0) + if server.handler = .wait then 1 else 0

/-- A step of the accept loop leaves the exited children and the signal alone. -/
theorem acceptLoop_frame {server after : Parent} {event : Event}
    (step : acceptLoop server event = some after) :
    after.zombies = server.zombies ∧ after.pending = server.pending ∧
      after.handler = server.handler := by
  cases event with
  | accept success =>
    simp only [acceptLoop, Option.ite_none_right_eq_some, Option.some.injEq] at step
    obtain ⟨-, rfl⟩ := step
    exact ⟨rfl, rfl, rfl⟩
  | fork child =>
    cases child with
    | none =>
      simp only [acceptLoop, Option.ite_none_right_eq_some, Option.some.injEq] at step
      obtain ⟨-, rfl⟩ := step
      exact ⟨rfl, rfl, rfl⟩
    | some child =>
      simp only [acceptLoop, Option.ite_none_right_eq_some, Option.some.injEq] at step
      obtain ⟨-, rfl⟩ := step
      exact ⟨rfl, rfl, rfl⟩
  | close =>
    simp only [acceptLoop, Option.ite_none_right_eq_some, Option.some.injEq] at step
    obtain ⟨-, rfl⟩ := step
    exact ⟨rfl, rfl, rfl⟩
  | exit | deliver | wait | leave => simp [acceptLoop] at step

/-- Each `wait` takes one exited child, if the waits still to come find one each. -/
theorem sigchldHandler_balance {server after : Parent} {event : Event}
    (found : server.due ≤ server.zombies.length)
    (step : sigchldHandler server event = some after) :
    after.zombies.length + server.due = server.zombies.length + after.due := by
  cases event with
  | wait child =>
    cases child with
    | none =>
      simp only [sigchldHandler, Option.ite_none_right_eq_some, Option.some.injEq] at step
      obtain ⟨⟨waiting, -, nobody⟩, rfl⟩ := step
      simp [Parent.due, waiting, nobody] at found
    | some child =>
      simp only [sigchldHandler, Option.ite_none_right_eq_some, Option.some.injEq] at step
      obtain ⟨⟨waiting, member⟩, rfl⟩ := step
      have fewer := List.length_erase_add_one member
      simp only [Parent.due, waiting, reduceCtorEq, if_false, if_true]
      omega
  | leave =>
    simp only [sigchldHandler, Option.ite_none_right_eq_some, Option.some.injEq] at step
    obtain ⟨leaving, rfl⟩ := step
    simp [Parent.due, leaving]
  | accept | fork | close | exit | deliver => simp [sigchldHandler] at step

/-- How a step changes the exited children and the waits still to come: by the same number, except
that an exit while the signal is pending adds a child for which no wait will come. -/
theorem Parent.next_balance {server after : Parent} {event : Event}
    (found : server.due ≤ server.zombies.length) (step : server.next event = some after) :
    after.zombies.length + server.due =
      server.zombies.length + after.due + if ExitsSeparately server event then 0 else 1 := by
  have alive : server.main ≠ .exited := by
    intro gone
    simp [Parent.next, gone] at step
  simp only [Parent.next, if_neg alive] at step
  cases event with
  | accept | fork | close =>
    obtain ⟨-, looped⟩ := Option.ite_none_right_eq_some.mp step
    obtain ⟨zombies, pending, handler⟩ := acceptLoop_frame looped
    simp [Parent.due, ExitsSeparately, zombies, pending, handler]
  | exit child =>
    simp only [Option.ite_none_right_eq_some, Option.some.injEq] at step
    obtain ⟨-, rfl⟩ := step
    cases pending : server.pending <;>
      simp [Parent.due, ExitsSeparately, pending] <;> omega
  | deliver =>
    simp only [Option.ite_none_right_eq_some, Option.some.injEq] at step
    obtain ⟨⟨pending, idle⟩, rfl⟩ := step
    simp [Parent.due, ExitsSeparately, pending, idle]
  | wait | leave =>
    have taken := sigchldHandler_balance found step
    simpa [ExitsSeparately] using taken

/-- Along every run each wait still to come finds an exited child, and there are no other exited
children exactly when every child exited separately. -/
theorem Parent.account {events : List Event} {server : Parent}
    (run : exec Parent.next .start events = some server) :
    server.due ≤ server.zombies.length ∧
      (server.zombies.length = server.due ↔
        Meets Parent.next ExitsSeparately .start events) := by
  refine exec_induct (motive := fun labels state => state.due ≤ state.zombies.length ∧
    (state.zombies.length = state.due ↔ Meets Parent.next ExitsSeparately .start labels))
    ⟨Nat.zero_le _, by simp [Parent.due, Parent.start, Meets]⟩ ?_ run
  rintro earlier middle event after reached ⟨found, settled⟩ step
  have balance := middle.next_balance found step
  rw [meets_snoc reached, ← settled]
  by_cases separate : ExitsSeparately middle event
  · rw [if_pos separate] at balance
    refine ⟨by omega, ⟨fun all => ⟨by omega, separate⟩, fun both => ?_⟩⟩
    have before := both.1
    omega
  · rw [if_neg separate] at balance
    refine ⟨by omega, ⟨fun all => ?_, fun both => absurd both.2 separate⟩⟩
    omega

/-- Whenever no signal is pending and the handler is not running, no exited child is left exactly
when on the way there no child exited while a signal was pending. -/
theorem reaped_iff_exitsSeparately {events : List Event} {server : Parent}
    (run : exec Parent.next .start events = some server) (quiet : server.Quiet) :
    server.zombies = [] ↔ Meets Parent.next ExitsSeparately .start events := by
  obtain ⟨-, settled⟩ := Parent.account run
  have nothing : server.due = 0 := by simp [Parent.due, quiet.1, quiet.2]
  rw [← settled, nothing, List.length_eq_zero_iff]

/-- Two clients are served; the children end one after the other, the second while the handler
already waits for the first. -/
def apart : List Event :=
  [.accept true, .fork (some 7), .close, .accept true, .fork (some 8), .close, .exit 7, .deliver,
    .exit 8, .wait (some 7), .leave, .deliver, .wait (some 8), .leave]

/-- Both children are waited for. -/
theorem reaped_apart :
    ∃ server, exec Parent.next .start apart = some server ∧ server.Quiet ∧
      server.zombies = [] := by
  have run : exec Parent.next .start apart = some ⟨.accept, .idle, [], [], false⟩ := by decide
  have separate : Meets Parent.next ExitsSeparately .start apart := by decide
  exact ⟨_, run, ⟨rfl, rfl⟩, (reaped_iff_exitsSeparately run ⟨rfl, rfl⟩).mpr separate⟩

/-- The same two children, both ending before the handler starts. -/
def together : List Event :=
  [.accept true, .fork (some 7), .close, .accept true, .fork (some 8), .close, .exit 7, .exit 8,
    .deliver, .wait (some 7), .leave]

/-- One of them is never waited for. -/
theorem together_leaves_zombie :
    ∃ server, exec Parent.next .start together = some server ∧ server.Quiet ∧
      server.zombies ≠ [] :=
  ⟨⟨.accept, .idle, [], [8], false⟩, by decide, ⟨rfl, rfl⟩, by decide⟩

end NsuOs.Echo
