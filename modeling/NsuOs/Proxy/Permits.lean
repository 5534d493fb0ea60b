import NsuOs.Proxy.System

/-!
# The permits of `thread_semaphore`

A client is in service from the `sem_wait` made for it until its handler returns or its handler
cannot be created. Along every run the permits, the clients in service and the permits lost add
up to `MAX_USERS_COUNT`; a permit is lost by each return that no `sem_post` precedes and by each
failed `pthread_create`. The returns without `sem_post` are reached through a cached response and
through a failed `write`, so without those the semaphore is conserved.
-/
namespace NsuOs.Proxy

open NsuOs.Run

/-- The handler has not returned. -/
def Handler.running (handler : Handler) : Bool :=
  match handler.pc with
  | .done => false
  | _ => true

/-- A handler that does not run any more is at its end. -/
theorem Handler.done_of_returned {handler : Handler} (returned : handler.running = false) :
    handler.pc = .done := by
  unfold Handler.running at returned
  split at returned
  · assumption
  · exact nomatch returned

/-- The accept loop holds a permit for a client whose handler does not exist yet. -/
def Acceptor.serving (acceptor : Acceptor) : Nat :=
  match acceptor.pc with
  | .store _ | .create _ => 1
  | _ => 0

/-- The number of clients in service. -/
def Process.inService (process : Process) : Nat :=
  process.acceptor.serving + process.threads.countP (·.handler.running)

/-- The semaphore value and the clients in service add up to `MAX_USERS_COUNT`. -/
def Process.Conserved (process : Process) : Prop :=
  process.shared.permits + process.inService = maxUsersCount

/-- The permits a step loses. -/
def leaked : Label → Nat
  | .thread _ .ret => 1
  | .acceptor (.create err) => if err = 0 then 0 else 1
  | _ => 0

/-- The permits a run loses. -/
def leaks (trace : List Label) : Nat := (trace.map leaked).sum

/-- One more step loses its permits. -/
theorem leaks_snoc (trace : List Label) (label : Label) :
    leaks (trace ++ [label]) = leaks trace + leaked label := by
  simp [leaks]

/-- A handler stops running by posting or by returning without a post. -/
theorem Handler.Step.running_eq {handler after : Handler} {event : Event}
    (step : Handler.Step handler event after) (i : Nat) :
    handler.running.toNat =
      after.running.toNat + Shared.posts event + leaked (.thread i event) := by
  cases step
  case writeCached locals copy sent => cases sent <;> rfl
  all_goals rfl

/-- The accept loop moves permits from the semaphore to clients, and loses one for each handler it
cannot create. -/
theorem Acceptor.Step.permits_eq {server : Fd} {acceptor next : Acceptor} {event : AcceptEvent}
    {shared after : Shared} (step : Acceptor.Step server acceptor event next)
    (performed : shared.performAccept event = some after) :
    shared.permits + acceptor.serving = after.permits + next.serving +
      (acceptor.created event).countP (·.handler.running) + leaked (.acceptor event) := by
  cases step with
  | cleanup call rest pc =>
    have same := (Shared.cleanup_frame performed).1
    have none : Acceptor.created ⟨server, call :: rest, pc⟩ (.cleanup call) = [] := by
      simp [Acceptor.created]
    rw [same, none]
    rfl
  | refused => exact Option.some.inj performed ▸ rfl
  | accepted client =>
    simp only [Shared.performAccept, Option.ite_none_right_eq_some] at performed
    obtain ⟨-, rfl⟩ := Shared.opened_eq_some.mp performed.2
    rfl
  | received client byte rest short =>
    simp only [Shared.performAccept, Option.ite_none_right_eq_some, Option.some.injEq] at performed
    exact performed.2 ▸ rfl
  | unreadable client got empty =>
    simp only [Shared.performAccept, Option.ite_none_right_eq_some] at performed
    rcases empty with rfl | rfl
    · exact Option.some.inj performed.2 ▸ rfl
    · exact Option.some.inj performed.2 ▸ rfl
  | semWait client =>
    simp only [Shared.performAccept, Option.ite_none_right_eq_some, Option.some.injEq] at performed
    obtain ⟨positive, rfl⟩ := performed
    simp only [serving, Acceptor.created, leaked, List.countP_nil]
    omega
  | store client => exact Option.some.inj performed ▸ rfl
  | created client err passed =>
    obtain rfl := Option.some.inj performed
    by_cases success : err = 0
    · simp [serving, Acceptor.created, leaked, success, Handler.running, Handler.start, Pc.now]
    · simp [serving, Acceptor.created, leaked, success]
  | uncreated client =>
    obtain rfl := Option.some.inj performed
    simp [serving, Acceptor.created, leaked, pthreadError]
  | exit => exact Option.some.inj performed ▸ rfl

namespace Process

variable {process after : Process} {server : Fd} {mem : Memory} {cache : Ptr} {garbage : Cache}
  {trace : List Label}

/-- One thread that moves changes the number of running threads by its own. -/
theorem countP_moved {threads : List Thread} {i : Nat} {thread : Thread}
    (here : threads[i]? = some thread) (moved : Thread) :
    (threads.set i moved).countP (·.handler.running) + thread.handler.running.toNat =
      threads.countP (·.handler.running) + moved.handler.running.toNat := by
  obtain ⟨inside, rfl⟩ := List.getElem?_eq_some_iff.mp here
  have counted := @List.boole_getElem_le_countP _ (fun t : Thread => t.handler.running) threads i
    inside
  rw [List.countP_set inside]
  simp only [Bool.toNat, cond_eq_ite]
  omega

/-- One step keeps the sum of permits, clients in service and permits lost. -/
theorem ledger_step {label : Label} (step : process.next label = some after) :
    after.shared.permits + after.inService + leaked label =
      process.shared.permits + process.inService := by
  cases label with
  | acceptor event =>
    obtain ⟨acceptor, shared, moved, performed, rfl⟩ := next_acceptor step
    have moved := (Acceptor.step_of_next moved).permits_eq performed
    simp only [inService, List.countP_append]
    omega
  | thread i event =>
    obtain ⟨thread, handler, shared, here, moved, performed, rfl⟩ := next_thread step
    have permits := (Shared.perform_frame performed).1
    have running := (Handler.step_of_next moved).running_eq i
    have counted := countP_moved here { thread with handler := handler }
    dsimp only at counted
    simp only [inService, permits]
    omega

/-- Along every run permits, clients in service and permits lost add up to `MAX_USERS_COUNT`. -/
theorem ledger (run : exec next (start server mem cache garbage) trace = some process) :
    process.shared.permits + process.inService + leaks trace = maxUsersCount := by
  refine exec_induct (motive := fun labels state =>
    state.shared.permits + state.inService + leaks labels = maxUsersCount) rfl ?_ run
  intro labels middle label finish _ ih step
  have kept := ledger_step step
  rw [leaks_snoc]
  omega

end Process

/-- The posts among some events. -/
def posted (events : List Event) : Nat := (events.map Shared.posts).sum

/-- A handler returns by one post or by one return without a post. -/
theorem Handler.returned_once {events : List Event} {handler : Handler}
    (run : exec Handler.next Handler.start events = some handler) (i : Nat) :
    handler.running.toNat + posted events + leaks (events.map (.thread i)) = 1 := by
  refine exec_induct (motive := fun events handler =>
    handler.running.toNat + posted events + leaks (events.map (.thread i)) = 1) rfl ?_ run
  intro events middle event finish _ ih step
  have running := (Handler.step_of_next step).running_eq i
  simp only [posted, leaks, List.map_append, List.map_map, List.map_singleton, List.sum_append,
    List.sum_singleton] at ih ⊢
  omega

/-- The step serves no cached response, is no failed write of a request or of a chunk and no failed
`pthread_create`. -/
def lossless : Label → Bool
  | .thread _ (.write .cached _ _ (some _)) => false
  | .thread _ (.write .remote _ _ none) => false
  | .thread _ (.write .client _ _ none) => false
  | .acceptor (.create err) => err = 0
  | _ => true

/-- The handler is on its way to `sem_post`. -/
def Handler.Posting (handler : Handler) : Prop :=
  match handler.pc with
  | .ret | .reload _ => False
  | _ => True

/-- By such steps a handler stays on its way to `sem_post`. -/
theorem Handler.Step.posting {handler after : Handler} {event : Event}
    (step : Handler.Step handler event after) {i : Nat}
    (kept : lossless (.thread i event) = true) (posting : handler.Posting) : after.Posting := by
  cases step
  case writeCached locals copy sent =>
    cases sent with
    | none => trivial
    | some count => exact nomatch kept
  case requestFailed | chunkFailed => exact nomatch kept
  case ret => exact absurd posting id
  all_goals exact posting

/-- A handler on its way to `sem_post` does not return without it. -/
theorem Handler.Step.leaked_eq_zero {handler after : Handler} {event : Event}
    (step : Handler.Step handler event after) (posting : handler.Posting) (i : Nat) :
    leaked (.thread i event) = 0 := by
  cases step
  case ret => exact absurd posting id
  all_goals rfl

namespace Process

variable {process after : Process} {server : Fd} {mem : Memory} {cache : Ptr} {garbage : Cache}
  {trace : List Label}

/-- A run of such steps loses no permit. -/
theorem leaks_eq_zero (run : exec next (start server mem cache garbage) trace = some process)
    (meets : Meets next (fun _ label => lossless label = true) (start server mem cache garbage)
      trace) :
    leaks trace = 0 := by
  suffices kept : leaks trace = 0 ∧ ∀ (i : Nat) (thread : Thread),
      process.threads[i]? = some thread → thread.handler.Posting from kept.1
  refine exec_induct_meets (motive := fun labels state => leaks labels = 0 ∧
    ∀ (i : Nat) (thread : Thread), state.threads[i]? = some thread → thread.handler.Posting)
    ⟨rfl, fun i thread here => by simp [start] at here⟩ ?_ run meets
  intro labels middle label finish _ ih kept step
  obtain ⟨none, posting⟩ := ih
  rw [leaks_snoc, none, Nat.zero_add]
  cases label with
  | acceptor event =>
    obtain ⟨acceptor, shared, -, -, rfl⟩ := next_acceptor step
    refine ⟨?_, fun i thread here => ?_⟩
    · cases event with
      | create err => simpa [leaked, lossless] using kept
      | _ => rfl
    · rcases thread_appended here with old | ⟨-, -, client, -, rfl⟩
      · exact posting i thread old
      · trivial
  | thread j event =>
    obtain ⟨moving, handler, shared, there, moved, -, rfl⟩ := next_thread step
    have advance := Handler.step_of_next moved
    refine ⟨advance.leaked_eq_zero (posting j moving there) j, fun i thread here => ?_⟩
    rcases thread_moved here with ⟨rfl, rfl⟩ | ⟨-, old⟩
    · exact advance.posting kept (posting i moving there)
    · exact posting i thread old

/-- What a handler lost, the run lost. -/
theorem leaks_eventsOf_le (i : Nat) (trace : List Label) :
    leaks ((eventsOf i trace).map (.thread i)) ≤ leaks trace := by
  induction trace with
  | nil => exact Nat.le_refl _
  | cons label rest ih =>
    have whole : leaks (label :: rest) = leaked label + leaks rest := by simp [leaks]
    rw [whole]
    cases label with
    | acceptor event =>
      have same : eventsOf i (.acceptor event :: rest) = eventsOf i rest := by simp [eventsOf]
      rw [same]
      omega
    | thread j event =>
      by_cases own : j = i
      · have one : eventsOf i (.thread j event :: rest) = event :: eventsOf i rest := by
          simp [eventsOf, own]
        have split : leaks ((event :: eventsOf i rest).map (.thread i)) =
            leaked (.thread i event) + leaks ((eventsOf i rest).map (.thread i)) := by
          simp [leaks]
        rw [one, split, own]
        omega
      · have same : eventsOf i (.thread j event :: rest) = eventsOf i rest := by
          simp [eventsOf, own]
        rw [same]
        omega

/-- Every handler that has returned gave its permit back exactly once. -/
def GivesBack (process : Process) (trace : List Label) : Prop :=
  ∀ i thread, process.threads[i]? = some thread → thread.handler.running = false →
    posted (eventsOf i trace) = 1

/-- The accept loop is not blocked in `sem_wait` unless a handler is running. -/
def NotStuck (process : Process) : Prop :=
  ∀ client, process.acceptor.pc = .semWait client → process.shared.permits = 0 →
    ∃ thread ∈ process.threads, thread.handler.running = true

/-- A conserved semaphore does not block for ever. -/
theorem Conserved.notStuck (conserved : process.Conserved) : process.NotStuck := by
  intro client waiting empty
  have none : process.acceptor.serving = 0 := by simp [Acceptor.serving, waiting]
  have some : 0 < process.threads.countP (·.handler.running) := by
    simp only [Conserved, inService, empty, none, maxUsersCount] at conserved
    omega
  exact List.countP_pos_iff.mp some

/-- Without losses every returned handler has posted once. -/
theorem givesBack_of_leaks (run : exec next (start server mem cache garbage) trace = some process)
    (none : leaks trace = 0) : process.GivesBack trace := by
  intro i thread here returned
  have once := Handler.returned_once (handler_run run here) i
  have bound := leaks_eventsOf_le i trace
  rw [returned] at once
  simp only [Bool.toNat_false] at once
  omega

end Process

open Process

/-- In every reachable state the semaphore is conserved exactly when no handler returned without
`sem_post` and no `pthread_create` failed; and in a run that serves no cached response and in
which no write of a request or of a chunk and no `pthread_create` fails, it is conserved, every
returned handler gave its permit back once, and the accept loop never waits for nobody. -/
theorem permits_conserved_iff {server : Fd} {mem : Memory} {cache : Ptr} {garbage : Cache}
    {trace : List Label} {process : Process}
    (run : exec next (start server mem cache garbage) trace = some process) :
    (process.Conserved ↔ leaks trace = 0) ∧
    (Meets next (fun _ label => lossless label = true) (start server mem cache garbage) trace →
      process.Conserved ∧ process.GivesBack trace ∧ process.NotStuck) := by
  have sum := ledger run
  have conserved : process.Conserved ↔ leaks trace = 0 := by
    unfold Conserved
    omega
  refine ⟨conserved, fun meets => ?_⟩
  have none := leaks_eq_zero run meets
  exact ⟨conserved.mpr none, givesBack_of_leaks run none, (conserved.mpr none).notStuck⟩

/-- One client served from the remote server gives its permit back. -/
theorem permits_conserved_served :
    ∃ process, exec next (start 3 Heap.empty 1 ⟨7, 0, 0, 0⟩)
        (served 0 ⟨4, 0⟩ [65] 2 5 [104, 105]) = some process ∧
      process.Conserved ∧ process.GivesBack (served 0 ⟨4, 0⟩ [65] 2 5 [104, 105]) := by
  obtain ⟨process, run⟩ := Option.isSome_iff_exists.mp
    (by decide +kernel : (exec next (start 3 Heap.empty 1 ⟨7, 0, 0, 0⟩)
      (served 0 ⟨4, 0⟩ [65] 2 5 [104, 105])).isSome)
  have kept := (permits_conserved_iff run).2 (by decide +kernel)
  exact ⟨process, run, kept.1, kept.2.1⟩

/-- A client whose request cannot be written to the remote server. -/
def upstreamFails : List Label :=
  acceptOne ⟨4, 0⟩ (requestFor [65]).bytes ++ lookUp 0 ⟨4, 0⟩ (requestFor [65]) none ++
    reach 0 ⟨4, 0⟩ (requestFor [65]) 2 5 ++
    [.thread 0 (.write .remote 5 (requestFor [65]).bytes none), .thread 0 (.cleanup (.close 4)),
      .thread 0 (.cleanup (.close 5)), .thread 0 .ret]

/-- After a failed write of the request nobody is in service and a permit is gone. -/
theorem permits_lost :
    ∃ process, exec next (start 3 Heap.empty 1 ⟨7, 0, 0, 0⟩) upstreamFails = some process ∧
      process.shared.permits = 9 ∧ process.inService = 0 ∧ ¬ process.Conserved := by
  have outcome : (exec next (start 3 Heap.empty 1 ⟨7, 0, 0, 0⟩) upstreamFails).map
      (fun process => (process.shared.permits, process.inService)) = some (9, 0) := by
    decide +kernel
  obtain ⟨process, run, facts⟩ := Option.map_eq_some_iff.mp outcome
  obtain ⟨permits, serving⟩ := Prod.mk.inj facts
  refine ⟨process, run, permits, serving, ?_⟩
  rw [Conserved, permits, serving]
  decide

end NsuOs.Proxy
