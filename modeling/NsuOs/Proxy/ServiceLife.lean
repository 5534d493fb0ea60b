import NsuOs.Proxy.Permits

/-!
# How long the proxy serves

A handler that has served a cached response, or whose `write` of a request or of a chunk has
failed, only cleans up and returns without `sem_post`. Each such handler and each failed
`pthread_create` takes one of the `MAX_USERS_COUNT` permits for good, so the number of clients the
proxy can have at work falls by one each time. There are at most `MAX_USERS_COUNT` of them in the
life of the process; behind the last one no handler is created any more, and the accept loop waits
in `sem_wait` for ever for the next client whose request it reads.
-/
namespace NsuOs.Proxy

open NsuOs.Run

/-- The steps of a run that lose a permit. -/
def losses (trace : List Label) : Nat := trace.countP fun label => !lossless label

/-- The handler is past the last `sem_post` and has not returned. -/
def Handler.lost (handler : Handler) : Bool :=
  match handler.pc with
  | .ret | .reload _ => true
  | _ => false

/-- The handler runs and can still post. -/
def Handler.atWork (handler : Handler) : Bool := handler.running && !handler.lost

/-- The clients for which a permit is held that can still come back. -/
def Process.atWork (process : Process) : Nat :=
  process.acceptor.serving + process.threads.countP (·.handler.atWork)

/-- A handler stops being at work by posting or by a step that loses its permit. -/
theorem Handler.Step.atWork_eq {handler after : Handler} {event : Event}
    (step : Handler.Step handler event after) (i : Nat) :
    handler.atWork.toNat = after.atWork.toNat + Shared.posts event +
      (!lossless (.thread i event)).toNat := by
  cases step
  case writeCached locals copy sent => cases sent <;> rfl
  all_goals rfl

/-- The accept loop loses a permit where it cannot create a handler. -/
theorem leaked_acceptor (event : AcceptEvent) :
    leaked (.acceptor event) = (!lossless (.acceptor event)).toNat := by
  cases event with
  | create err => by_cases success : err = 0 <;> simp [leaked, lossless, success]
  | _ => rfl

/-- A thread that is created is at work. -/
theorem Acceptor.created_atWork (acceptor : Acceptor) (event : AcceptEvent) :
    (acceptor.created event).countP (·.handler.atWork) =
      (acceptor.created event).countP (·.handler.running) := by
  unfold Acceptor.created
  split
  · split <;> rfl
  · rfl

/-- The accept loop leaves `sem_wait` by making it. -/
theorem Acceptor.Step.leaves_semWait {server : Fd} {acceptor next : Acceptor} {event : AcceptEvent}
    (step : Acceptor.Step server acceptor event next) {client : Context}
    (waiting : acceptor.pc = .semWait client) : event = .semWait ∨ next.pc = .semWait client := by
  cases step with
  | cleanup call rest pc => exact .inr waiting
  | semWait => exact .inl rfl
  | _ => cases waiting

/-- One more step adds its loss. -/
theorem losses_snoc (trace : List Label) (label : Label) :
    losses (trace ++ [label]) = losses trace + (!lossless label).toNat := by
  cases kept : lossless label <;> simp [losses, List.countP_append, kept]

namespace Process

variable {process after : Process} {server : Fd} {mem : Memory} {cache : Ptr} {garbage : Cache}
  {trace later : List Label}

/-- One thread that moves changes a count of threads by its own part. -/
theorem countP_set_add (holds : Thread → Bool) {threads : List Thread} {i : Nat} {thread : Thread}
    (here : threads[i]? = some thread) (moved : Thread) :
    (threads.set i moved).countP holds + (holds thread).toNat =
      threads.countP holds + (holds moved).toNat := by
  obtain ⟨inside, rfl⟩ := List.getElem?_eq_some_iff.mp here
  have counted := @List.boole_getElem_le_countP _ holds threads i inside
  rw [List.countP_set inside]
  simp only [Bool.toNat, cond_eq_ite]
  omega

/-- One step keeps the sum of permits, clients at work and losses. -/
theorem capacity_step {label : Label} (step : process.next label = some after) :
    after.shared.permits + after.atWork + (!lossless label).toNat =
      process.shared.permits + process.atWork := by
  cases label with
  | acceptor event =>
    obtain ⟨acceptor, shared, moved, performed, rfl⟩ := next_acceptor step
    have permits := (Acceptor.step_of_next moved).permits_eq performed
    have lost := leaked_acceptor event
    have created := process.acceptor.created_atWork event
    simp only [atWork, List.countP_append]
    omega
  | thread i event =>
    obtain ⟨thread, handler, shared, here, moved, performed, rfl⟩ := next_thread step
    have permits := (Shared.perform_frame performed).1
    have working := (Handler.step_of_next moved).atWork_eq i
    have counted := countP_set_add (·.handler.atWork) here { thread with handler := handler }
    dsimp only at counted
    simp only [atWork, permits]
    omega

/-- Along every run permits, clients at work and losses add up to `MAX_USERS_COUNT`. -/
theorem capacity (run : exec next (start server mem cache garbage) trace = some process) :
    process.shared.permits + process.atWork + losses trace = maxUsersCount := by
  refine exec_induct (motive := fun labels state =>
    state.shared.permits + state.atWork + losses labels = maxUsersCount) rfl ?_ run
  intro labels middle label finish _ ih step
  have kept := capacity_step step
  rw [losses_snoc]
  omega

/-- Nobody can be served any more: no permit is left and none can come back. -/
def Exhausted (process : Process) : Prop := process.shared.permits = 0 ∧ process.atWork = 0

/-- An exhausted process stays exhausted, whatever its threads do. -/
theorem Exhausted.next {label : Label} (exhausted : process.Exhausted)
    (step : process.next label = some after) : after.Exhausted := by
  obtain ⟨none, idle⟩ := exhausted
  have kept := capacity_step step
  constructor <;> omega

/-- An exhausted process creates no handler. -/
theorem Exhausted.threads {label : Label} (exhausted : process.Exhausted)
    (step : process.next label = some after) : after.threads.length = process.threads.length := by
  cases label with
  | acceptor event =>
    obtain ⟨acceptor, shared, -, -, rfl⟩ := next_acceptor step
    have serving : process.acceptor.serving = 0 := Nat.eq_zero_of_add_eq_zero_right exhausted.2
    have nobody : process.acceptor.created event = [] := by
      unfold Acceptor.created
      split
      · rename_i client err isCreate
        simp [Acceptor.serving, isCreate] at serving
      · rfl
    simp [nobody]
  | thread i event =>
    obtain ⟨thread, handler, shared, -, -, -, rfl⟩ := next_thread step
    simp

/-- In an exhausted process the accept loop does not get past `sem_wait`. -/
theorem Exhausted.semWait {label : Label} {client : Context} (exhausted : process.Exhausted)
    (waiting : process.acceptor.pc = .semWait client) (step : process.next label = some after) :
    after.acceptor.pc = .semWait client := by
  cases label with
  | acceptor event =>
    obtain ⟨acceptor, shared, moved, performed, rfl⟩ := next_acceptor step
    rcases (Acceptor.step_of_next moved).leaves_semWait waiting with rfl | stays
    · simp only [Shared.performAccept, exhausted.1, Nat.lt_irrefl, if_false] at performed
      cases performed
    · exact stays
  | thread i event =>
    obtain ⟨thread, handler, shared, -, -, -, rfl⟩ := next_thread step
    exact waiting

end Process

open Process

/-- In every run the permits, the clients at work and the losses so far add up to
`MAX_USERS_COUNT`; and once there were `MAX_USERS_COUNT` losses, however the process goes on, it
creates no handler, nobody is at work and an accept loop in `sem_wait` stays there. -/
theorem service_wears_out {server : Fd} {mem : Memory} {cache : Ptr} {garbage : Cache}
    {trace later : List Label} {process after : Process}
    (run : exec next (start server mem cache garbage) trace = some process)
    (onward : exec next process later = some after) :
    process.shared.permits + process.atWork + losses trace = maxUsersCount ∧
      (losses trace = maxUsersCount →
        after.threads.length = process.threads.length ∧ after.atWork = 0 ∧
          ∀ client, process.acceptor.pc = .semWait client →
            after.acceptor.pc = .semWait client) := by
  have sum := capacity run
  refine ⟨sum, ?_⟩
  intro spent
  have exhausted : process.Exhausted := by
    constructor <;> omega
  have kept : after.Exhausted ∧ after.threads.length = process.threads.length ∧
      ∀ client, process.acceptor.pc = .semWait client → after.acceptor.pc = .semWait client := by
    refine exec_induct (motive := fun _ state => state.Exhausted ∧
      state.threads.length = process.threads.length ∧
      ∀ client, process.acceptor.pc = .semWait client → state.acceptor.pc = .semWait client)
      ⟨exhausted, rfl, fun _ waiting => waiting⟩ ?_ onward
    intro labels middle label finish _ held step
    obtain ⟨drained, same, stays⟩ := held
    exact ⟨drained.next step, (drained.threads step).trans same,
      fun client waiting => drained.semWait (stays client waiting) step⟩
  exact ⟨kept.2.1, kept.1.2, kept.2.2⟩

/-- A client whose request cannot be written to the remote server, as the `i`-th client. -/
def lostClient (i : Nat) : List Label :=
  acceptOne ⟨4, i⟩ (requestFor [65]).bytes ++ lookUp i ⟨4, i⟩ (requestFor [65]) none ++
    reach i ⟨4, i⟩ (requestFor [65]) (2 + 2 * i) 5 ++
    [.thread i (.write .remote 5 (requestFor [65]).bytes none), .thread i (.cleanup (.close 4)),
      .thread i (.cleanup (.close 5)), .thread i .ret]

/-- After ten clients whose request could not be written, the eleventh one is accepted, read and
never served: nobody is at work and the accept loop waits for ever. -/
theorem service_wears_out_eleventh :
    ∃ process, exec next (start 3 Heap.empty 1 ⟨7, 0, 0, 0⟩)
        ((List.range 10).flatMap lostClient ++ [.acceptor (.accept (some ⟨4, 10⟩)),
          .acceptor (.read ⟨4, 10⟩ (some [71]))]) = some process ∧
      ∀ later after, exec next process later = some after →
        after.threads.length = 10 ∧ after.atWork = 0 ∧
          after.acceptor.pc = .semWait ⟨4, 10⟩ := by
  have outcome : (exec next (start 3 Heap.empty 1 ⟨7, 0, 0, 0⟩)
      ((List.range 10).flatMap lostClient ++ [.acceptor (.accept (some ⟨4, 10⟩)),
        .acceptor (.read ⟨4, 10⟩ (some [71]))])).map
      (fun process => (process.threads.length, process.acceptor.pc)) =
        some (10, .semWait ⟨4, 10⟩) := by
    decide +kernel
  obtain ⟨process, run, facts⟩ := Option.map_eq_some_iff.mp outcome
  obtain ⟨created, waiting⟩ := Prod.mk.inj facts
  refine ⟨process, run, ?_⟩
  intro later after onward
  obtain ⟨same, idle, stays⟩ := (service_wears_out run onward).2 (by decide +kernel)
  exact ⟨same.trans created, idle, stays _ waiting⟩

end NsuOs.Proxy
