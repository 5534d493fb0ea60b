import NsuOs.Base.Fairness
import NsuOs.Locks.Wakeups

/-!
# Both programs end

A thread that finds the lock taken tries again, and the futex mutex puts it to sleep in between, so
no bound on the number of steps can be given. What a fair execution cannot do is to retry forever.
Every other step uses up a part of the work that is left. Once no more of it is used up, a free
lock would be taken by a thread that tries, and a taken one given back by its holder; so all
threads have finished, or they sleep on a free word, which nobody would then answer for.
-/
namespace NsuOs.Locks

open NsuOs.Run NsuOs.Threads

variable {ι : Type*}

/-- The steps a thread still has to take in its round, retries apart. -/
def Pc.left : Pc → Nat
  | .finished => 0
  | .increment => 2
  | .futexWake => 3
  | .release => 4
  | .store _ => 5
  | .load => 6
  | .exchange | .futexWait | .asleep => 7
  | .test => 8

/-- The steps a thread still has to take, retries apart. -/
def Locals.work (bound : Nat) (mine : Locals) : Nat := 8 * (bound - mine.i) + mine.pc.left

/-- The steps all threads still have to take, retries apart. -/
def Process.work [Fintype ι] (rounds : ι → Nat) (process : Process ι) : Nat :=
  ∑ i, (process.thread i).work (rounds i)

variable [DecidableEq ι] {kind : Kind} {rounds : ι → Nat}

/-- A step uses up work, or it is a retry, which does not touch the lock word. -/
theorem Moves.works {me : ι} {shared after : Shared ι} {mine moved : Locals} {event : Event ι}
    (move : Moves kind rounds me shared mine.i mine.pc event after moved)
    (loop : mine.InLoop (rounds me)) :
    moved.work (rounds me) < mine.work (rounds me) ∨
      moved.work (rounds me) = mine.work (rounds me) ∧ mine.pc.locking = true ∧
        moved.pc.locking = true ∧ after.lock = shared.lock := by
  obtain ⟨pc, i⟩ := mine
  cases move with
  | busy pc taken onward =>
    subst onward
    cases kind with
    | spinlock => exact .inr ⟨rfl, rfl, rfl, rfl⟩
    | mutex => exact .inr ⟨rfl, rfl, rfl, rfl⟩
  | sleep futex taken => exact .inr ⟨rfl, rfl, rfl, rfl⟩
  | again futex free => exact .inr ⟨rfl, rfl, rfl, rfl⟩
  | woken futex awake => exact .inr ⟨rfl, rfl, rfl, rfl⟩
  | spurious futex => exact .inr ⟨rfl, rfl, rfl, rfl⟩
  | release pc taken onward =>
    subst onward
    cases kind with
    | spinlock => exact .inl (by simp [Locals.work, Pc.left])
    | mutex => exact .inl (by simp [Locals.work, Pc.left])
  | increment =>
    have more : i < rounds me := loop
    refine .inl ?_
    simp only [Locals.work, Pc.left]
    omega
  | _ => exact .inl (by simp [Locals.work, Pc.left])

/-- A step of the process does not increase the work that is left. -/
theorem Process.work_next [Fintype ι] {process after : Process ι} {i : ι} {event : Event ι}
    (step : next kind rounds process (i, event) = some after)
    (loop : (process.thread i).InLoop (rounds i)) :
    after.work rounds < process.work rounds ∨
      after.work rounds = process.work rounds ∧ (process.thread i).pc.locking = true ∧
        (after.thread i).pc.locking = true ∧ after.shared.lock = process.shared.lock := by
  obtain ⟨own, others⟩ := next_eq_some.mp step
  have same : ∑ j ∈ {i}ᶜ, (after.thread j).work (rounds j) =
      ∑ j ∈ {i}ᶜ, (process.thread j).work (rounds j) := by
    apply Finset.sum_congr rfl
    intro j outside
    rw [others j (by simpa using outside)]
  unfold work
  rw [Fintype.sum_eq_add_sum_compl i, Fintype.sum_eq_add_sum_compl i, same]
  rcases (moves_of_thread own).works loop with less | ⟨equal, retry⟩
  · exact .inl (by omega)
  · exact .inr ⟨by omega, retry⟩

/-- A thread of `spinlock.c` is not in a futex call. -/
def InProgram (kind : Kind) (_ : Unit) (_ : ι) (_ : Shared ι) (mine : Locals) : Prop :=
  kind = .spinlock → mine.pc ≠ .futexWait ∧ mine.pc ≠ .asleep ∧ mine.pc ≠ .futexWake

/-- Whatever step is taken, threads of `spinlock.c` make no futex call. -/
theorem inProgram_stable :
    Stable (thread kind rounds) (fun _ _ => True) (InProgram (ι := ι) kind) := by
  intro ghost me shared mine event after moved _ own step
  have move := moves_of_thread step
  refine ⟨ghost, trivial, ?_, fun _ _ _ keeps => keeps⟩
  rintro rfl
  obtain ⟨pc, i⟩ := mine
  cases move with
  | busy pc taken onward => simp [onward]
  | release pc taken onward => simp [onward]
  | sleep futex | again futex | woken futex | spurious futex | wake futex | nobody futex =>
    cases futex
  | _ => simp

/-- In every state of every run the threads are in functions of their program. -/
theorem Process.inProgram_run {labels : List (ι × Event ι)} {process : Process ι}
    (run : exec (next kind rounds) .start labels = some process) (i : ι) :
    InProgram kind () i process.shared (process.thread i) := by
  have initial : Holds (fun _ _ => True) (InProgram kind) (Process.start (ι := ι)) :=
    ⟨(), trivial, fun i spinning => by simp [start]⟩
  obtain ⟨_, -, threads⟩ := inProgram_stable.exec initial run
  exact threads i

/-- A thread that has not finished and does not sleep can take a step. -/
theorem thread_awake {me : ι} {shared : Shared ι} {mine : Locals}
    (inProgram : InProgram kind () me shared mine) (running : mine.pc ≠ .finished)
    (awake : mine.pc = .asleep → me ∉ shared.sleepers) :
    ∃ event after, event ≠ .spurious ∧ thread kind rounds me shared mine event = some after := by
  obtain ⟨pc, k⟩ := mine
  cases pc with
  | finished => exact absurd rfl running
  | test | load | store | increment => exact ⟨.go, _, by simp, rfl⟩
  | exchange =>
    cases kind with
    | spinlock => exact ⟨.go, _, by simp, rfl⟩
    | mutex => exact ⟨.go, _, by simp, rfl⟩
  | release =>
    cases kind with
    | spinlock => exact ⟨.go, _, by simp, rfl⟩
    | mutex => exact ⟨.go, _, by simp, rfl⟩
  | futexWait =>
    cases kind with
    | spinlock => exact absurd rfl (inProgram rfl).1
    | mutex =>
      by_cases taken : shared.lock = statusLock
      · exact ⟨.go, _, by simp, by simp only [thread, Kind.lock, mutexLock, if_pos taken]; rfl⟩
      · exact ⟨.go, _, by simp, by simp only [thread, Kind.lock, mutexLock, if_neg taken]; rfl⟩
  | asleep =>
    cases kind with
    | spinlock => exact absurd rfl (inProgram rfl).2.1
    | mutex =>
      have outside := awake rfl
      exact ⟨.go, _, by simp, by simp only [thread, Kind.lock, mutexLock, if_neg outside]; rfl⟩
  | futexWake =>
    cases kind with
    | spinlock => exact absurd rfl (inProgram rfl).2.2
    | mutex =>
      rcases shared.sleepers.eq_empty_or_nonempty with deserted | ⟨sleeper, member⟩
      · exact ⟨.wake none, _, by simp,
          by simp only [thread, Kind.unlock, mutexUnlock, if_pos deserted]; rfl⟩
      · exact ⟨.wake (some sleeper), _, by simp,
          by simp only [thread, Kind.unlock, mutexUnlock, if_pos member]; rfl⟩

/-- From a moment on every step is a retry. -/
def OnlyRetries (execution : Execution (thread kind rounds) Process.start) (n : Nat) : Prop :=
  ∀ m i event, n ≤ m → execution.label m = some (i, event) →
    ((execution.state m).thread i).pc.locking = true ∧
      ((execution.state (m + 1)).thread i).pc.locking = true ∧
      (execution.state (m + 1)).shared.lock = (execution.state m).shared.lock

section Fair

variable {execution : Execution (thread kind rounds) (Process.start (ι := ι))}
  {n m : Nat} {i : ι}

/-- Every step of an execution uses up work or is a retry. -/
theorem work_at [Fintype ι] {event : Event ι} (moved : execution.label n = some (i, event)) :
    Process.work rounds (execution.state (n + 1)) < Process.work rounds (execution.state n) ∨
      Process.work rounds (execution.state (n + 1)) = Process.work rounds (execution.state n) ∧
        ((execution.state n).thread i).pc.locking = true ∧
        ((execution.state (n + 1)).thread i).pc.locking = true ∧
        (execution.state (n + 1)).shared.lock = (execution.state n).shared.lock := by
  obtain ⟨labels, run⟩ := execution.reached n
  obtain ⟨holder, -, threads⟩ := Process.held_run run
  exact Process.work_next (execution.taken n i event moved) (threads i).loop

/-- The work is finite, so only retries are left at some moment. -/
theorem exists_onlyRetries [Fintype ι]
    (execution : Execution (thread kind rounds) (Process.start (ι := ι))) :
    ∃ n, OnlyRetries execution n := by
  obtain ⟨n, -, settled⟩ := execution.settles (Process.work rounds) 0 fun n i event _ moved => by
    rcases work_at moved with less | ⟨equal, -⟩
    · exact Nat.le_of_lt less
    · exact Nat.le_of_eq equal
  refine ⟨n, fun m i event later moved => ?_⟩
  have here := settled m later
  have after := settled (m + 1) (by omega)
  rcases work_at moved with less | ⟨-, retry⟩
  · omega
  · exact retry

/-- A thread that is not in the lock function and could move would use up work, so all threads are
in the lock function or have finished. -/
theorem OnlyRetries.waits (retries : OnlyRetries execution n)
    (fair : execution.Fair (fun _ event => event ≠ .spurious)) (later : n ≤ m) (i : ι) :
    ((execution.state m).thread i).pc.locking = true ∨
      ((execution.state m).thread i).pc = .finished := by
  by_contra working
  obtain ⟨outside, running⟩ := not_or.mp working
  obtain ⟨k, after, same, event, moved⟩ := fair.leads i
    (fun process => process.thread i = (execution.state m).thread i) (n := m) rfl
    (by
      intro k after same
      obtain ⟨labels, run⟩ := execution.reached k
      refine thread_awake (Process.inProgram_run run i) (same ▸ running) ?_
      intro asleep
      rw [same] at asleep
      exact absurd (by rw [asleep]; rfl) outside)
    (by
      intro k j event after same other moved
      exact (execution.thread_at moved other.symm).trans same)
  have locking := (retries k i event (by omega) moved).1
  rw [same] at locking
  exact outside locking

/-- The lock is free: its holder would give it back. -/
theorem OnlyRetries.free (retries : OnlyRetries execution n)
    (fair : execution.Fair (fun _ event => event ≠ .spurious)) (later : n ≤ m) :
    (execution.state m).shared.lock = statusUnlock := by
  obtain ⟨labels, run⟩ := execution.reached m
  obtain ⟨holder, word, threads⟩ := Process.held_run run
  cases holder with
  | none => simpa [WordTells] using word
  | some i =>
    have inside := (threads i).inside.mpr rfl
    rcases retries.waits fair later i with locking | finished
    · cases here : ((execution.state m).thread i).pc <;> simp [here, Pc.inside, Pc.locking] at *
    · rw [finished] at inside
      cases inside

/-- No thread tries the exchange: it would succeed. -/
theorem OnlyRetries.ne_exchange (retries : OnlyRetries execution n)
    (fair : execution.Fair (fun _ event => event ≠ .spurious)) (later : n ≤ m) (i : ι) :
    ((execution.state m).thread i).pc ≠ .exchange := by
  intro here
  obtain ⟨k, after, same, event, moved⟩ := fair.leads i
    (fun process => (process.thread i).pc = .exchange) here
    (by
      intro k after same
      obtain ⟨labels, run⟩ := execution.reached k
      exact thread_awake (Process.inProgram_run run i) (by simp [same]) (by simp [same]))
    (by
      intro k j event after same other moved
      rw [execution.thread_at moved other.symm]
      exact same)
  have free := retries.free fair (Nat.le_trans later after)
  have locking := (retries k i event (by omega) moved).2.1
  have move := moves_of_thread (execution.own_step moved)
  generalize (execution.state (k + 1)).thread i = mine at move locking
  generalize (execution.state (k + 1)).shared = shared at move
  rw [same] at move
  cases move with
  | acquire => cases locking
  | busy pc taken onward => exact taken free

/-- No thread calls `FUTEX_WAIT`, and none has come back from it: it would try the exchange. -/
theorem OnlyRetries.sleeps (retries : OnlyRetries execution n)
    (fair : execution.Fair (fun _ event => event ≠ .spurious)) (later : n ≤ m) (i : ι) :
    Process.Asleep (execution.state m) i ∨ ((execution.state m).thread i).pc = .finished := by
  by_contra awake
  obtain ⟨woken, running⟩ := not_or.mp awake
  obtain ⟨k, after, ⟨same, outside⟩, event, moved⟩ := fair.leads i
    (fun process => process.thread i = (execution.state m).thread i ∧ ¬Process.Asleep process i)
    (n := m) ⟨rfl, woken⟩
    (by
      intro k after ⟨same, outside⟩
      obtain ⟨labels, run⟩ := execution.reached k
      refine thread_awake (Process.inProgram_run run i) (same ▸ running) ?_
      exact fun asleep member => outside ⟨asleep, member⟩)
    (by
      intro k j event after ⟨same, outside⟩ other moved
      obtain ⟨own, others⟩ := next_eq_some.mp (execution.taken k j event moved)
      have stays := others i other.symm
      refine ⟨stays.trans same, ?_⟩
      rintro ⟨asleep, member⟩
      exact outside ⟨stays ▸ asleep, (moves_of_thread own).sleepers_subset other.symm member⟩)
  have free := retries.free fair (Nat.le_trans later after)
  have waiting := (retries k i event (by omega) moved).1
  have exchanges := retries.ne_exchange fair (Nat.le_trans later after) i
  have tries := retries.ne_exchange fair (m := k + 1) (by omega) i
  have locked : statusUnlock ≠ statusLock := by decide
  have move := moves_of_thread (execution.own_step moved)
  unfold Process.Asleep at outside
  generalize (execution.state (k + 1)).thread i = moved at move tries
  generalize (execution.state (k + 1)).shared = shared at move
  generalize (execution.state k).thread i = mine at move waiting exchanges outside
  obtain ⟨pc, round⟩ := mine
  cases move with
  | acquire | busy => exact exchanges rfl
  | sleep futex taken => exact locked (free.symm.trans taken)
  | again | woken | spurious => exact tries rfl
  | _ => cases waiting

/-- In every fair execution of either program, with any number of threads and of rounds, all
threads finish, and from then on the counter is the number of their rounds as an `int`. -/
theorem fair_finishes [Fintype ι] (fair : execution.Fair (fun _ event => event ≠ .spurious)) :
    ∃ n, ∀ m, n ≤ m → (∀ i, ((execution.state m).thread i).pc = .finished) ∧
      (execution.state m).shared.counter = Int32.ofNat (∑ i, rounds i) := by
  obtain ⟨n, retries⟩ := exists_onlyRetries execution
  refine ⟨n, fun m later => ?_⟩
  obtain ⟨labels, run⟩ := execution.reached m
  have finished : ∀ i, ((execution.state m).thread i).pc = .finished := by
    intro i
    rcases retries.sleeps fair later i with asleep | finished
    · -- somebody would answer for the sleeper, but everybody sleeps or has finished
      exfalso
      cases kind with
      | spinlock => exact (Process.inProgram_run run i rfl).2.1 asleep.1
      | mutex =>
        obtain ⟨j, answers⟩ := Process.answered_run run (retries.free fair later) ⟨i, asleep.2⟩
        unfold Process.AboutToWake Process.AwakeInLock at answers
        rcases retries.sleeps fair later j with ⟨sleeping, member⟩ | finished
        · simp [sleeping, member] at answers
        · simp [finished, Pc.locking] at answers
    · exact finished
  refine ⟨finished, ?_⟩
  obtain ⟨holder, -, threads⟩ := Process.held_run run
  rw [Process.counter_run run]
  congr 1
  apply Finset.sum_congr rfl
  intro i _
  have loop := (threads i).loop
  simp only [Locals.InLoop, finished i] at loop
  simp [Locals.written, finished i, loop]

end Fair

/-- The contended run of the futex mutex, and nothing after it, is a fair execution, and its counter
ends with the two rounds. -/
theorem fair_finishes_contended :
    ∃ execution : Execution (thread .mutex fun _ => 1) (Process.start (ι := Fin 2)),
      execution.Fair (fun _ event => event ≠ .spurious) ∧ execution.label 4 = some (1, .go) ∧
        ∃ n, ∀ m, n ≤ m → (∀ i, ((execution.state m).thread i).pc = .finished) ∧
          (execution.state m).shared.counter = 2 := by
  have ended : (exec (next .mutex fun _ => 1) .start contended).map
      (fun process => decide (∀ i, (process.thread i).pc = .finished)) = some true := by
    decide +kernel
  obtain ⟨process, run, finished⟩ := Option.map_eq_some_iff.mp ended
  have stopped : ∀ i, ¬Enabled (thread .mutex fun _ => 1) (fun _ event => event ≠ .spurious) i
      process := by
    rintro i ⟨event, after, -, step⟩
    have here := of_decide_eq_true finished i
    simp only [thread, here, reduceCtorEq] at step
  have fair := Execution.fair_ofRun run stopped
  exact ⟨.ofRun run, fair, rfl, fair_finishes fair⟩

end NsuOs.Locks
