import NsuOs.Locks.Exclusion

/-!
# No wake-up of the futex mutex is lost

The unlock gives the word back before it wakes anybody, and it wakes one sleeper only, so between
the two steps the word may be free while threads sleep. The invariant is that somebody then still
answers for the sleepers: a thread that is about to call `FUTEX_WAKE`, or one that is awake in
`mutex_lock` and will therefore take the lock and later unlock it.
-/
namespace NsuOs.Locks

open NsuOs.Run

variable {ι : Type*}

/-- Thread `i` sleeps in `FUTEX_WAIT`. -/
def Process.Asleep (process : Process ι) (i : ι) : Prop :=
  (process.thread i).pc = .asleep ∧ i ∈ process.shared.sleepers

/-- Thread `i` is about to execute `FUTEX_WAKE`. -/
def Process.AboutToWake (process : Process ι) (i : ι) : Prop :=
  (process.thread i).pc = .futexWake

/-- The thread is inside `mutex_lock`. -/
def Pc.locking : Pc → Bool
  | .exchange | .futexWait | .asleep => true
  | .test | .load | .store _ | .release | .futexWake | .increment | .finished => false

/-- Thread `i` is inside `mutex_lock` and the kernel does not hold it asleep. -/
def Process.AwakeInLock (process : Process ι) (i : ι) : Prop :=
  (process.thread i).pc.locking = true ∧ i ∉ process.shared.sleepers

/-- A thread among the sleepers is inside `FUTEX_WAIT`. -/
def InWait (_ : Unit) (me : ι) (shared : Shared ι) (mine : Locals) : Prop :=
  me ∈ shared.sleepers → mine.pc = .asleep

/-- While the word is free and somebody sleeps, some thread answers for the sleepers. -/
def Process.Answered (process : Process ι) : Prop :=
  process.shared.lock = statusUnlock → process.shared.sleepers.Nonempty →
    ∃ j, process.AboutToWake j ∨ process.AwakeInLock j

variable [DecidableEq ι] {kind : Kind} {rounds : ι → Nat}

/-- A step adds no sleeper but the thread itself. -/
theorem Moves.sleepers_subset {me : ι} {shared after : Shared ι} {i : Nat} {pc : Pc}
    {event : Event ι} {moved : Locals}
    (move : Moves kind rounds me shared i pc event after moved) {j : ι} (other : j ≠ me)
    (member : j ∈ after.sleepers) : j ∈ shared.sleepers := by
  cases move with
  | sleep futex taken => exact Finset.mem_of_mem_insert_of_ne member other
  | spurious futex => exact Finset.mem_of_mem_erase member
  | wake futex sleeper awake => exact Finset.mem_of_mem_erase member
  | _ => exact member

/-- Only threads inside `FUTEX_WAIT` are among the sleepers, whatever step is taken. -/
theorem inWait_stable :
    Threads.Stable (thread kind rounds) (fun _ _ => True) (InWait (ι := ι)) := by
  intro ghost me shared mine event after moved _ own step
  have move := moves_of_thread step
  refine ⟨ghost, trivial, ?_, ?_⟩
  · intro member
    obtain ⟨pc, i⟩ := mine
    unfold InWait at own
    cases move with
    | sleep futex taken => rfl
    | woken futex awake => exact absurd member awake
    | spurious futex => exact absurd member (Finset.notMem_erase me shared.sleepers)
    | wake futex sleeper awake =>
      have before : me ∈ shared.sleepers := Finset.mem_of_mem_erase member
      have asleep := own before
      simp at asleep
    | _ =>
      have asleep := own member
      simp at asleep
  · intro j theirs other keeps member
    exact keeps (move.sleepers_subset other member)

/-- In every state of every run the sleepers are inside `FUTEX_WAIT`. -/
theorem Process.inWait_run {labels : List (ι × Event ι)} {process : Process ι}
    (run : exec (next kind rounds) .start labels = some process) (i : ι)
    (member : i ∈ process.shared.sleepers) : (process.thread i).pc = .asleep := by
  have initial : Threads.Holds (fun _ _ => True) InWait (Process.start (ι := ι)) := by
    refine ⟨(), trivial, fun i member => ?_⟩
    simp [start, init] at member
  obtain ⟨_, -, threads⟩ := inWait_stable.exec initial run
  exact threads i member

/-- A thread that does not move answers for the sleepers as before, unless it falls asleep. -/
theorem Process.answers_other {process after : Process ι} {i j : ι} {event : Event ι}
    (step : next kind rounds process (i, event) = some after) (other : j ≠ i)
    (answers : process.AboutToWake j ∨ process.AwakeInLock j) :
    after.AboutToWake j ∨ after.AwakeInLock j := by
  have own := Threads.next_eq_some.mp step
  have move := moves_of_thread own.1
  unfold AboutToWake AwakeInLock at *
  rw [own.2 j other]
  apply answers.imp_right
  rintro ⟨locking, awake⟩
  exact ⟨locking, fun member => awake (move.sleepers_subset other member)⟩

/-- After a step that leaves the word free and somebody asleep, the thread answers for the
sleepers, or it woke one, or it changed nothing and did not answer before either. -/
theorem Moves.answer {me : ι} {shared after : Shared ι} {mine moved : Locals} {event : Event ι}
    (move : Moves .mutex rounds me shared mine.i mine.pc event after moved)
    (own : InWait () me shared mine) (free : after.lock = statusUnlock)
    (somebody : after.sleepers.Nonempty) :
    (moved.pc = .futexWake ∨ moved.pc.locking = true ∧ me ∉ after.sleepers) ∨
      (∃ k, k ≠ me ∧ k ∈ shared.sleepers ∧ k ∉ after.sleepers) ∨
      (shared.lock = statusUnlock ∧ shared.sleepers.Nonempty ∧ mine.pc ≠ .futexWake ∧
        mine.pc.locking = false) := by
  obtain ⟨pc, i⟩ := mine
  have awake : pc ≠ .asleep → me ∉ shared.sleepers := fun other member => other (own member)
  have locked : statusLock ≠ statusUnlock := by decide
  cases move with
  | enter more => exact .inl (.inr ⟨rfl, awake (by simp)⟩)
  | acquire free' => exact absurd free locked
  | busy pc taken onward => exact absurd free taken
  | sleep futex taken => exact absurd (taken.symm.trans free) locked
  | again futex free' => exact .inl (.inr ⟨rfl, awake (by simp)⟩)
  | woken futex outside => exact .inl (.inr ⟨rfl, outside⟩)
  | spurious futex => exact .inl (.inr ⟨rfl, Finset.notMem_erase me shared.sleepers⟩)
  | release pc taken onward => exact .inl (.inl onward)
  | wake futex sleeper member =>
    have others : sleeper ≠ me := fun same => awake (by simp) (same ▸ member)
    exact .inr (.inl ⟨sleeper, others, member, Finset.notMem_erase sleeper shared.sleepers⟩)
  | nobody futex deserted => exact absurd deserted somebody.ne_empty
  | finish | load | store | unlocked | increment =>
    exact .inr (.inr ⟨free, somebody, by simp, rfl⟩)

/-- One step of the futex mutex leaves the sleepers answered for. -/
theorem Process.Answered.next {process after : Process ι} {i : ι} {event : Event ι}
    (answered : process.Answered)
    (inWait : ∀ j, j ∈ process.shared.sleepers → (process.thread j).pc = .asleep)
    (step : Locks.next .mutex rounds process (i, event) = some after) : after.Answered := by
  have own := Threads.next_eq_some.mp step
  have move := moves_of_thread own.1
  intro free somebody
  rcases move.answer (inWait i) free somebody with mine | ⟨k, other, before, woken⟩ | quiet
  · exact ⟨i, mine⟩
  · refine ⟨k, .inr ⟨?_, woken⟩⟩
    rw [own.2 k other, inWait k before]
    rfl
  · obtain ⟨freeBefore, sleeping, notWaking, notLocking⟩ := quiet
    obtain ⟨j, answers⟩ := answered freeBefore sleeping
    have other : j ≠ i := by
      rintro rfl
      unfold AboutToWake AwakeInLock at answers
      simp [notWaking, notLocking] at answers
    exact ⟨j, answers_other step other answers⟩

/-- In every state of every run of the futex mutex the sleepers are answered for. -/
theorem Process.answered_run {labels : List (ι × Event ι)} {process : Process ι}
    (run : exec (Locks.next .mutex rounds) .start labels = some process) : process.Answered := by
  refine exec_induct (motive := fun _ process => process.Answered) ?_ ?_ run
  · intro _ somebody
    simp [start, init] at somebody
  · intro labels middle label finish earlier answered step
    exact answered.next (inWait_run earlier) step

/-- Along every run of the futex mutex, with any number of threads and rounds, no thread sleeps
while every other one sleeps or has finished, and whenever a thread sleeps on a free word another
thread is about to call `FUTEX_WAKE` or is awake inside `mutex_lock`. -/
theorem no_lost_wakeup {labels : List (ι × Event ι)} {process : Process ι}
    (run : exec (next .mutex rounds) .start labels = some process) :
    (¬∃ i, process.Asleep i ∧
      ∀ j, j ≠ i → process.Asleep j ∨ (process.thread j).pc = .finished) ∧
    ∀ i, process.Asleep i → process.shared.lock = statusUnlock →
      ∃ j, j ≠ i ∧ (process.AboutToWake j ∨ process.AwakeInLock j) := by
  have answers : ∀ i, process.Asleep i → process.shared.lock = statusUnlock →
      ∃ j, j ≠ i ∧ (process.AboutToWake j ∨ process.AwakeInLock j) := by
    intro i asleep free
    obtain ⟨j, answer⟩ := Process.answered_run run free ⟨i, asleep.2⟩
    refine ⟨j, ?_, answer⟩
    rintro rfl
    rcases answer with waking | awake
    · exact Pc.noConfusion (asleep.1.symm.trans waking)
    · exact awake.2 asleep.2
  refine ⟨?_, answers⟩
  rintro ⟨i, asleep, others⟩
  obtain ⟨holder, word, threads⟩ := Process.held_run run
  by_cases taken : process.shared.lock = statusLock
  · obtain ⟨k, holds⟩ := word.holder_isSome taken
    have inside := (threads k).inside.mpr holds
    have outside : k ≠ i := by
      rintro rfl
      simp [asleep.1, Pc.inside] at inside
    rcases others k outside with sleeping | finished
    · simp [sleeping.1, Pc.inside] at inside
    · simp [finished, Pc.inside] at inside
  · have unheld := word.holder_eq_none taken
    have free : process.shared.lock = statusUnlock := by simpa [WordTells, unheld] using word
    obtain ⟨j, other, answer⟩ := answers i asleep free
    rcases others j other with sleeping | finished
    · rcases answer with waking | awake
      · exact Pc.noConfusion (sleeping.1.symm.trans waking)
      · exact awake.2 sleeping.2
    · rcases answer with waking | awake
      · exact Pc.noConfusion (finished.symm.trans waking)
      · simp [Process.AwakeInLock, finished, Pc.locking] at awake

/-- Thread 1 sleeps, thread 0 has given the word back and not yet called `FUTEX_WAKE`. -/
theorem no_lost_wakeup_between :
    ∃ process, exec (next .mutex fun _ => 1) .start (contended.take 8) = some process ∧
      process.Asleep 1 ∧ process.shared.lock = statusUnlock ∧
      ∃ j, j ≠ 1 ∧ (process.AboutToWake j ∨ process.AwakeInLock j) := by
  have outcome : (exec (next .mutex fun _ => 1) .start (contended.take 8)).map
      (fun process => decide (((process.thread 1).pc = .asleep ∧ 1 ∈ process.shared.sleepers) ∧
        process.shared.lock = statusUnlock)) = some true := by
    decide +kernel
  obtain ⟨process, run, facts⟩ := Option.map_eq_some_iff.mp outcome
  obtain ⟨asleep, free⟩ := of_decide_eq_true facts
  exact ⟨process, run, asleep, free, (no_lost_wakeup run).2 1 asleep free⟩

end NsuOs.Locks
