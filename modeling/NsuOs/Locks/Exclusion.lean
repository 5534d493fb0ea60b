import NsuOs.Locks.CasLock

/-!
# Mutual exclusion and the counter

The lock word does not name its holder, so the assertions carry the holder as an auxiliary value:
the word is `STATUS_LOCK` exactly when there is one, and a thread is between its lock and its
unlock exactly when it is the holder. A thread in the middle of `++counter` has read the value
that still stands there, because only the holder writes it.
-/
namespace NsuOs.Locks

open NsuOs.Run

variable {ι : Type*}

/-- The thread is between a successful lock and its unlock. -/
def Pc.inside : Pc → Bool
  | .load | .store _ | .release => true
  | .test | .exchange | .futexWait | .asleep | .futexWake | .increment | .finished => false

/-- The increments of the counter a thread has written. -/
def Locals.written (mine : Locals) : Nat :=
  match mine.pc with
  | .release | .futexWake | .increment => mine.i + 1
  | .test | .exchange | .futexWait | .asleep | .load | .store _ | .finished => mine.i

/-- How far the loop variable can be at each place of the thread function. -/
def Locals.InLoop (bound : Nat) (mine : Locals) : Prop :=
  match mine.pc with
  | .test => mine.i ≤ bound
  | .finished => mine.i = bound
  | .exchange | .futexWait | .asleep | .load | .store _ | .release | .futexWake | .increment =>
    mine.i < bound

/-- The word is `STATUS_LOCK` exactly when there is a holder. -/
def WordTells (holder : Option ι) (shared : Shared ι) : Prop :=
  shared.lock = if holder.isSome then statusLock else statusUnlock

/-- What holds of one thread, given the holder. -/
structure Keeps (rounds : ι → Nat) (holder : Option ι) (me : ι) (shared : Shared ι)
    (mine : Locals) : Prop where
  /-- The thread is in the critical section exactly if it is the holder. -/
  inside : mine.pc.inside = true ↔ holder = some me
  /-- What it is about to store as the counter is what the counter is. -/
  current : ∀ value, mine.pc = .store value → value = shared.counter
  /-- It has rounds left where its place needs one. -/
  loop : mine.InLoop (rounds me)

/-- A word that is not `STATUS_LOCK` has no holder. -/
theorem WordTells.holder_eq_none {holder : Option ι} {shared : Shared ι}
    (word : WordTells holder shared) (free : shared.lock ≠ statusLock) : holder = none := by
  unfold WordTells at word
  cases holder with
  | none => rfl
  | some i => exact absurd word free

/-- A word that is `STATUS_LOCK` has a holder. -/
theorem WordTells.holder_isSome {holder : Option ι} {shared : Shared ι}
    (word : WordTells holder shared) (taken : shared.lock = statusLock) :
    ∃ i, holder = some i := by
  unfold WordTells at word
  cases holder with
  | none =>
    have unlocked : shared.lock = statusUnlock := word
    have equal : statusLock = statusUnlock := taken.symm.trans unlocked
    exact absurd equal (by decide)
  | some i => exact ⟨i, rfl⟩

/-- A thread that neither has nor gets the lock does not depend on the shared memory. -/
theorem Keeps.frame {rounds : ι → Nat} {holder later : Option ι} {me : ι}
    {shared after : Shared ι} {mine : Locals} (keeps : Keeps rounds holder me shared mine)
    (before : holder ≠ some me) (still : later ≠ some me) : Keeps rounds later me after mine := by
  have outside : ¬mine.pc.inside = true := fun inside => before (keeps.inside.mp inside)
  refine ⟨⟨fun inside => absurd inside outside, fun same => absurd same still⟩, ?_, keeps.loop⟩
  intro value here
  have inside : mine.pc.inside = true := by rw [here]; rfl
  exact absurd inside outside

/-- A thread depends on the shared memory only through the counter. -/
theorem Keeps.congr {rounds : ι → Nat} {holder : Option ι} {me : ι} {shared after : Shared ι}
    {mine : Locals} (keeps : Keeps rounds holder me shared mine)
    (same : after.counter = shared.counter) : Keeps rounds holder me after mine := by
  refine ⟨keeps.inside, ?_, keeps.loop⟩
  intro value here
  rw [same]
  exact keeps.current value here

variable {kind : Kind} {rounds : ι → Nat}

/-- A step that takes or gives up no lock and leaves the counter keeps every assertion. -/
theorem keeps_quiet {holder : Option ι} {me : ι} {shared after : Shared ι} {mine moved : Locals}
    (word : WordTells holder shared) (own : Keeps rounds holder me shared mine)
    (lock : after.lock = shared.lock) (counter : after.counter = shared.counter)
    (inside : moved.pc.inside = mine.pc.inside)
    (current : ∀ value, moved.pc = .store value → value = shared.counter)
    (loop : moved.InLoop (rounds me)) :
    ∃ later, WordTells later after ∧ Keeps rounds later me after moved ∧
      ∀ j theirs, j ≠ me → Keeps rounds holder j shared theirs →
        Keeps rounds later j after theirs := by
  refine ⟨holder, ?_, ⟨?_, ?_, loop⟩, fun j theirs _ keeps => keeps.congr counter⟩
  · unfold WordTells
    rw [lock]
    exact word
  · rw [inside]
    exact own.inside
  · rw [counter]
    exact current

variable [DecidableEq ι]

/-- The assertions are stable under every step. -/
theorem keeps_stable : Threads.Stable (thread kind rounds) WordTells (Keeps rounds) := by
  intro holder me shared mine event after moved word own step
  have move := moves_of_thread step
  obtain ⟨pc, i⟩ := mine
  have loop := own.loop
  cases move with
  | enter more => exact keeps_quiet word own rfl rfl rfl (by simp) more
  | finish done =>
    have bound : i ≤ rounds me := loop
    have last : i = rounds me := Nat.le_antisymm bound (Nat.le_of_not_lt done)
    exact keeps_quiet word own rfl rfl rfl (by simp) last
  | acquire free =>
    have unheld : holder = none := word.holder_eq_none (by rw [free]; decide)
    refine ⟨some me, by simp [WordTells], ⟨by simp [Pc.inside], by simp, loop⟩, ?_⟩
    intro j theirs other keeps
    have before : holder ≠ some j := by simp [unheld]
    have still : some me ≠ some j := by simpa using other.symm
    exact keeps.frame before still
  | busy pc taken onward =>
    subst onward
    cases kind with
    | spinlock => exact keeps_quiet word own rfl rfl rfl (by simp) loop
    | mutex => exact keeps_quiet word own rfl rfl rfl (by simp) loop
  | sleep futex taken => exact keeps_quiet word own rfl rfl rfl (by simp) loop
  | again futex free => exact keeps_quiet word own rfl rfl rfl (by simp) loop
  | woken futex awake => exact keeps_quiet word own rfl rfl rfl (by simp) loop
  | spurious futex => exact keeps_quiet word own rfl rfl rfl (by simp) loop
  | load => exact keeps_quiet word own rfl rfl rfl (by simp) loop
  | store value =>
    have holds : holder = some me := own.inside.mp rfl
    refine ⟨holder, word, ⟨own.inside, by simp, loop⟩, ?_⟩
    intro j theirs other keeps
    have elsewhere : holder ≠ some j := by simpa [holds] using other.symm
    exact keeps.frame elsewhere elsewhere
  | release pc taken onward =>
    have holds : holder = some me := own.inside.mp rfl
    refine ⟨none, by simp [WordTells], ?_, ?_⟩
    · subst onward
      cases kind with
      | spinlock => exact ⟨by simp [Pc.inside], by simp, loop⟩
      | mutex => exact ⟨by simp [Pc.inside], by simp, loop⟩
    · intro j theirs other keeps
      have before : holder ≠ some j := by simpa [holds] using other.symm
      exact keeps.frame before (by simp)
  | unlocked free =>
    have holds : holder = some me := own.inside.mp rfl
    have unheld : holder = none := word.holder_eq_none free
    simp [unheld] at holds
  | wake futex sleeper member => exact keeps_quiet word own rfl rfl rfl (by simp) loop
  | nobody futex deserted => exact keeps_quiet word own rfl rfl rfl (by simp) loop
  | increment =>
    have bound : i < rounds me := loop
    exact keeps_quiet word own rfl rfl rfl (by simp) (by simpa [Locals.InLoop] using bound)

/-- The word and the threads meet the assertions for some holder. -/
def Process.Held (rounds : ι → Nat) (process : Process ι) : Prop :=
  Threads.Holds WordTells (Keeps rounds) process

/-- The assertions hold in every state of every run. -/
theorem Process.held_run {labels : List (ι × Event ι)} {process : Process ι}
    (run : exec (next kind rounds) .start labels = some process) : process.Held rounds := by
  apply keeps_stable.exec ?_ run
  exact ⟨none, by simp [WordTells, start, init],
    fun me => ⟨by simp [start, Pc.inside], by simp [start], Nat.zero_le _⟩⟩

/-- A move writes one increment exactly when it is the write of `++counter`. -/
theorem written_move {holder : Option ι} {me : ι} {shared after : Shared ι} {mine moved : Locals}
    {event : Event ι} (own : Keeps rounds holder me shared mine)
    (move : Moves kind rounds me shared mine.i mine.pc event after moved) :
    ∃ more, moved.written = mine.written + more ∧
      after.counter = shared.counter + Int32.ofNat more := by
  obtain ⟨pc, i⟩ := mine
  cases move with
  | store value =>
    have read : value = shared.counter := own.current value rfl
    refine ⟨1, rfl, ?_⟩
    rw [read]
    rfl
  | busy pc taken onward =>
    subst onward
    cases kind with
    | spinlock => exact ⟨0, rfl, by simp⟩
    | mutex => exact ⟨0, rfl, by simp⟩
  | release pc taken onward =>
    subst onward
    cases kind with
    | spinlock => exact ⟨0, rfl, by simp⟩
    | mutex => exact ⟨0, rfl, by simp⟩
  | _ => exact ⟨0, rfl, by simp⟩

/-- The counter is the number of increments written, as an `int`. -/
theorem Process.counter_run [Fintype ι] {labels : List (ι × Event ι)} {process : Process ι}
    (run : exec (next kind rounds) .start labels = some process) :
    process.shared.counter = Int32.ofNat (∑ i, (process.thread i).written) := by
  refine exec_induct (motive := fun _ process =>
    process.shared.counter = Int32.ofNat (∑ i, (process.thread i).written)) ?_ ?_ run
  · simp [start, init, Locals.written]
  · intro labels middle label finish earlier counted step
    obtain ⟨i, event⟩ := label
    obtain ⟨holder, word, threads⟩ := held_run earlier
    have move := moves_of_thread (Threads.next_eq_some.mp step).1
    obtain ⟨more, mine, counter⟩ := written_move (threads i) move
    have sums := Threads.sum_moved step Locals.written
    have total : ∑ j, (finish.thread j).written = ∑ j, (middle.thread j).written + more := by
      omega
    rw [total, Int32.ofNat_add, ← counted, counter]

/-- Thread `i` is between a successful lock and its unlock. -/
def Process.Inside (process : Process ι) (i : ι) : Prop := (process.thread i).pc.inside = true

/-- Along every run of either program, with any number of threads, at most one thread is inside,
the word is `STATUS_LOCK` exactly when one is, and once all have finished the counter is the
number of their rounds as an `int`. -/
theorem lock_excludes [Fintype ι] {labels : List (ι × Event ι)} {process : Process ι}
    (run : exec (next kind rounds) .start labels = some process) :
    (∀ i j, process.Inside i → process.Inside j → i = j) ∧
      (process.shared.lock = statusLock ↔ ∃ i, process.Inside i) ∧
      ((∀ i, (process.thread i).pc = .finished) →
        process.shared.counter = Int32.ofNat (∑ i, rounds i)) := by
  obtain ⟨holder, word, threads⟩ := Process.held_run run
  refine ⟨?_, ⟨?_, ?_⟩, ?_⟩
  · intro i j mine theirs
    have first : holder = some i := (threads i).inside.mp mine
    have second : holder = some j := (threads j).inside.mp theirs
    exact Option.some.inj (first.symm.trans second)
  · intro taken
    obtain ⟨i, holds⟩ := word.holder_isSome taken
    exact ⟨i, (threads i).inside.mpr holds⟩
  · rintro ⟨i, inside⟩
    have holds : holder = some i := (threads i).inside.mp inside
    rw [word, holds]
    rfl
  · intro finished
    rw [Process.counter_run run]
    congr 1
    apply Finset.sum_congr rfl
    intro i _
    have loop := (threads i).loop
    simp only [Locals.InLoop, finished i] at loop
    simp [Locals.written, finished i, loop]

/-- Two threads of one round each on the futex mutex: the second finds the lock taken, sleeps, is
woken and increments after the first. -/
def contended : List (Fin 2 × Event (Fin 2)) :=
  [(0, .go), (0, .go), (1, .go), (1, .go), (1, .go), (0, .go), (0, .go), (0, .go),
    (0, .wake (some 1)), (1, .go), (1, .go), (1, .go), (1, .go), (1, .go), (1, .wake none),
    (1, .go), (1, .go), (0, .go), (0, .go)]

/-- Both threads finish the contended run and the counter is their two rounds. -/
theorem lock_excludes_contended :
    ∃ process, exec (next .mutex fun _ => 1) .start contended = some process ∧
      process.shared.counter = 2 := by
  have ended : (exec (next .mutex fun _ => 1) .start contended).map
      (fun process => decide (∀ i, (process.thread i).pc = .finished)) = some true := by
    decide +kernel
  obtain ⟨process, run, finished⟩ := Option.map_eq_some_iff.mp ended
  have counted := (lock_excludes run).2.2 (of_decide_eq_true finished)
  exact ⟨process, run, counted⟩

end NsuOs.Locks
