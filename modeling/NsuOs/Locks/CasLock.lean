import NsuOs.Base.Threads

/-!
# The compare-and-exchange locks of `spinlock.c` and `mutex.c`

Both programs guard a global `int counter` with one lock word: every thread runs its rounds of
lock, `++counter`, unlock. A compare-and-exchange and a futex call are single steps, and the
increment is a read followed by a write. `FUTEX_WAIT` puts its caller into the kernel's set of
sleepers if the word still is `STATUS_LOCK`; `FUTEX_WAKE` takes one sleeper out of that set,
whichever the kernel picks, and a sleeper may also leave it by itself.
-/
namespace NsuOs.Locks

open NsuOs.Run

variable {ι : Type*}

/-- `STATUS_LOCK`. -/
def statusLock : Int32 := 0

/-- `STATUS_UNLOCK`. -/
def statusUnlock : Int32 := 1

/-- `atomic_compare_exchange_strong`: whether it succeeded and the word it leaves. -/
def compareExchange (word expected desired : Int32) : Bool × Int32 :=
  if word = expected then (true, desired) else (false, word)

/-- The program: `spinlock.c` or `mutex.c`. -/
inductive Kind
  | spinlock
  | mutex
  deriving DecidableEq

/-- Where a thread is. -/
inductive Pc
  /-- The test `i < COUNT_ITERATION` of the `for` loop. -/
  | test
  /-- The compare-and-exchange of the lock function. -/
  | exchange
  /-- The call of `FUTEX_WAIT`. -/
  | futexWait
  /-- Inside `FUTEX_WAIT`, asleep as long as the thread is among the sleepers. -/
  | asleep
  /-- The read of `++counter`. -/
  | load
  /-- The write of `++counter`, with the value read. -/
  | store (value : Int32)
  /-- The compare-and-exchange of the unlock function. -/
  | release
  /-- The call of `FUTEX_WAKE`. -/
  | futexWake
  /-- The `++i` of the `for` loop. -/
  | increment
  /-- The thread function has returned. -/
  | finished
  deriving DecidableEq

/-- The lock word, the global counter and the threads the kernel holds asleep on the word. -/
structure Shared (ι : Type*) where
  /-- The lock word. -/
  lock : Int32
  /-- The global counter. -/
  counter : Int32
  /-- The threads asleep on the lock word. -/
  sleepers : Finset ι
  deriving DecidableEq

/-- A thread's place and its loop variable. -/
structure Locals where
  /-- The place of the thread. -/
  pc : Pc
  /-- Its loop variable. -/
  i : Nat
  deriving DecidableEq

/-- What the environment decides at a step. -/
inductive Event (ι : Type*)
  /-- The thread goes on. -/
  | go
  /-- `FUTEX_WAKE` takes this sleeper, or finds none. -/
  | wake (sleeper : Option ι)
  /-- `FUTEX_WAIT` returns although nobody called `FUTEX_WAKE`. -/
  | spurious
  deriving DecidableEq

/-- `spinlock_init` and `mutex_init`, with `counter` at its initial value. -/
def init : Shared ι := ⟨statusUnlock, 0, ∅⟩

variable [DecidableEq ι]

/-- `spinlock_lock`: exchange until it succeeds. -/
def spinlockLock (shared : Shared ι) (pc : Pc) : Event ι → Option (Shared ι × Pc)
  | .go =>
    match pc with
    | .exchange =>
      let (success, word) := compareExchange shared.lock statusUnlock statusLock
      some ({ shared with lock := word }, if success then .load else .exchange)
    | _ => none
  | _ => none

/-- `mutex_lock`: exchange, and after each failure wait on the word and try again. -/
def mutexLock (me : ι) (shared : Shared ι) (pc : Pc) : Event ι → Option (Shared ι × Pc)
  | .go =>
    match pc with
    | .exchange =>
      let (success, word) := compareExchange shared.lock statusUnlock statusLock
      some ({ shared with lock := word }, if success then .load else .futexWait)
    | .futexWait =>
      if shared.lock = statusLock then
        some ({ shared with sleepers := insert me shared.sleepers }, .asleep)
      else some (shared, .exchange)
    | .asleep => if me ∈ shared.sleepers then none else some (shared, .exchange)
    | _ => none
  | .spurious =>
    match pc with
    | .asleep => some ({ shared with sleepers := shared.sleepers.erase me }, .exchange)
    | _ => none
  | .wake _ => none

/-- `spinlock_unlock`: one exchange, whose result is not looked at. -/
def spinlockUnlock (shared : Shared ι) (pc : Pc) : Event ι → Option (Shared ι × Pc)
  | .go =>
    match pc with
    | .release =>
      let (_, word) := compareExchange shared.lock statusLock statusUnlock
      some ({ shared with lock := word }, .increment)
    | _ => none
  | _ => none

/-- `mutex_unlock`: exchange, and if it succeeded wake at most one sleeper. -/
def mutexUnlock (shared : Shared ι) (pc : Pc) : Event ι → Option (Shared ι × Pc)
  | .go =>
    match pc with
    | .release =>
      let (success, word) := compareExchange shared.lock statusLock statusUnlock
      some ({ shared with lock := word }, if success then .futexWake else .increment)
    | _ => none
  | .wake sleeper =>
    match pc, sleeper with
    | .futexWake, some woken =>
      if woken ∈ shared.sleepers then
        some ({ shared with sleepers := shared.sleepers.erase woken }, .increment)
      else none
    | .futexWake, none => if shared.sleepers = ∅ then some (shared, .increment) else none
    | _, _ => none
  | .spurious => none

/-- The lock function of a program. -/
def Kind.lock (me : ι) (shared : Shared ι) (pc : Pc) (event : Event ι) :
    Kind → Option (Shared ι × Pc)
  | .spinlock => spinlockLock shared pc event
  | .mutex => mutexLock me shared pc event

/-- The unlock function of a program. -/
def Kind.unlock (shared : Shared ι) (pc : Pc) (event : Event ι) :
    Kind → Option (Shared ι × Pc)
  | .spinlock => spinlockUnlock shared pc event
  | .mutex => mutexUnlock shared pc event

/-- One step of `thread_1` or `thread_2`, for a thread whose loop bound is `rounds me`. -/
def thread (kind : Kind) (rounds : ι → Nat) (me : ι) (shared : Shared ι) (mine : Locals)
    (event : Event ι) : Option (Shared ι × Locals) :=
  match mine.pc with
  | .test =>
    if event = .go then
      some (shared, { mine with pc := if mine.i < rounds me then .exchange else .finished })
    else none
  | .exchange | .futexWait | .asleep =>
    (kind.lock me shared mine.pc event).map fun (after, pc) => (after, { mine with pc := pc })
  | .load => if event = .go then some (shared, { mine with pc := .store shared.counter }) else none
  | .store value =>
    if event = .go then some ({ shared with counter := value + 1 }, { mine with pc := .release })
    else none
  | .release | .futexWake =>
    (kind.unlock shared mine.pc event).map fun (after, pc) => (after, { mine with pc := pc })
  | .increment => if event = .go then some (shared, { pc := .test, i := mine.i + 1 }) else none
  | .finished => none

/-- The process: any number of threads on one lock. -/
abbrev Process (ι : Type*) := Threads.State ι (Shared ι) Locals

/-- One step of the process. -/
def next (kind : Kind) (rounds : ι → Nat) : Process ι → ι × Event ι → Option (Process ι) :=
  Threads.next (thread kind rounds)

/-- The lock is initialised and every thread is before its first round. -/
def Process.start : Process ι := ⟨init, fun _ => ⟨.test, 0⟩⟩

/-- Everything one step of a thread can do. -/
inductive Moves (kind : Kind) (rounds : ι → Nat) (me : ι) (shared : Shared ι) (i : Nat) :
    Pc → Event ι → Shared ι → Locals → Prop
  /-- Another round begins. -/
  | enter (more : i < rounds me) : Moves kind rounds me shared i .test .go shared ⟨.exchange, i⟩
  /-- The rounds are over. -/
  | finish (done : ¬i < rounds me) : Moves kind rounds me shared i .test .go shared ⟨.finished, i⟩
  /-- The word was free and is taken. -/
  | acquire (free : shared.lock = statusUnlock) :
      Moves kind rounds me shared i .exchange .go { shared with lock := statusLock } ⟨.load, i⟩
  /-- The word was taken: the spin lock tries again, the mutex is about to sleep. -/
  | busy (pc : Pc) (taken : shared.lock ≠ statusUnlock)
      (onward : pc = match kind with | .spinlock => .exchange | .mutex => .futexWait) :
      Moves kind rounds me shared i .exchange .go shared ⟨pc, i⟩
  /-- The word is still taken and the thread falls asleep. -/
  | sleep (futex : kind = .mutex) (taken : shared.lock = statusLock) :
      Moves kind rounds me shared i .futexWait .go
        { shared with sleepers := insert me shared.sleepers } ⟨.asleep, i⟩
  /-- The word was given back in between, so the thread does not sleep. -/
  | again (futex : kind = .mutex) (free : shared.lock ≠ statusLock) :
      Moves kind rounds me shared i .futexWait .go shared ⟨.exchange, i⟩
  /-- The thread was woken and tries again. -/
  | woken (futex : kind = .mutex) (awake : me ∉ shared.sleepers) :
      Moves kind rounds me shared i .asleep .go shared ⟨.exchange, i⟩
  /-- It wakes up without a cause. -/
  | spurious (futex : kind = .mutex) :
      Moves kind rounds me shared i .asleep .spurious
        { shared with sleepers := shared.sleepers.erase me } ⟨.exchange, i⟩
  /-- The counter is read. -/
  | load : Moves kind rounds me shared i .load .go shared ⟨.store shared.counter, i⟩
  /-- The counter is written. -/
  | store (value : Int32) :
      Moves kind rounds me shared i (.store value) .go { shared with counter := value + 1 }
        ⟨.release, i⟩
  /-- The word is given back; the mutex is about to wake a sleeper. -/
  | release (pc : Pc) (taken : shared.lock = statusLock)
      (onward : pc = match kind with | .spinlock => .increment | .mutex => .futexWake) :
      Moves kind rounds me shared i .release .go { shared with lock := statusUnlock } ⟨pc, i⟩
  /-- The word was not taken, so nothing is given back. -/
  | unlocked (free : shared.lock ≠ statusLock) :
      Moves kind rounds me shared i .release .go shared ⟨.increment, i⟩
  /-- A sleeper is woken. -/
  | wake (futex : kind = .mutex) (sleeper : ι) (member : sleeper ∈ shared.sleepers) :
      Moves kind rounds me shared i .futexWake (.wake (some sleeper))
        { shared with sleepers := shared.sleepers.erase sleeper } ⟨.increment, i⟩
  /-- There is no sleeper. -/
  | nobody (futex : kind = .mutex) (deserted : shared.sleepers = ∅) :
      Moves kind rounds me shared i .futexWake (.wake none) shared ⟨.increment, i⟩
  /-- The round is over. -/
  | increment : Moves kind rounds me shared i .increment .go shared ⟨.test, i + 1⟩

/-- A step is one of the moves. -/
theorem moves_of_thread {kind : Kind} {rounds : ι → Nat} {me : ι} {shared after : Shared ι}
    {mine moved : Locals} {event : Event ι}
    (step : thread kind rounds me shared mine event = some (after, moved)) :
    Moves kind rounds me shared mine.i mine.pc event after moved := by
  obtain ⟨pc, i⟩ := mine
  cases pc with
  | test =>
    simp only [thread, Option.ite_none_right_eq_some, Option.some.injEq, Prod.mk.injEq] at step
    obtain ⟨rfl, rfl, rfl⟩ := step
    split
    · exact .enter ‹_›
    · exact .finish ‹_›
  | exchange =>
    cases kind <;> cases event <;>
      simp only [thread, Kind.lock, spinlockLock, mutexLock, compareExchange, Option.map_some,
        Option.map_none, reduceCtorEq, Option.some.injEq, Prod.mk.injEq] at step
    all_goals
      obtain ⟨rfl, rfl⟩ := step
      by_cases free : shared.lock = statusUnlock
      · simp only [free, if_true]
        exact .acquire free
      · simp only [free, if_false, Bool.false_eq_true]
        exact .busy _ free rfl
  | futexWait =>
    cases kind <;> cases event <;>
      simp only [thread, Kind.lock, spinlockLock, mutexLock, Option.map_none, reduceCtorEq] at step
    split at step
    all_goals
      simp only [Option.map_some, Option.some.injEq, Prod.mk.injEq] at step
      obtain ⟨rfl, rfl⟩ := step
    · exact .sleep rfl ‹_›
    · exact .again rfl ‹_›
  | asleep =>
    cases kind <;> cases event <;>
      simp only [thread, Kind.lock, spinlockLock, mutexLock, Option.map_none, Option.map_some,
        reduceCtorEq, Option.some.injEq, Prod.mk.injEq] at step
    · split at step <;> simp only [Option.map_none, Option.map_some, reduceCtorEq,
        Option.some.injEq, Prod.mk.injEq] at step
      obtain ⟨rfl, rfl⟩ := step
      exact .woken rfl ‹_›
    · obtain ⟨rfl, rfl⟩ := step
      exact .spurious rfl
  | load =>
    simp only [thread, Option.ite_none_right_eq_some, Option.some.injEq, Prod.mk.injEq] at step
    obtain ⟨rfl, rfl, rfl⟩ := step
    exact .load
  | store value =>
    simp only [thread, Option.ite_none_right_eq_some, Option.some.injEq, Prod.mk.injEq] at step
    obtain ⟨rfl, rfl, rfl⟩ := step
    exact .store value
  | release =>
    cases kind <;> cases event <;>
      simp only [thread, Kind.unlock, spinlockUnlock, mutexUnlock, compareExchange,
        Option.map_some, Option.map_none, reduceCtorEq, Option.some.injEq, Prod.mk.injEq] at step
    all_goals
      obtain ⟨rfl, rfl⟩ := step
      by_cases taken : shared.lock = statusLock
      · simp only [taken, if_true]
        exact .release _ taken rfl
      · simp only [taken, if_false, Bool.false_eq_true]
        exact .unlocked taken
  | futexWake =>
    cases kind <;> rcases event with _ | (_ | sleeper) | _ <;>
      simp only [thread, Kind.unlock, spinlockUnlock, mutexUnlock, Option.map_none,
        reduceCtorEq] at step
    all_goals
      split at step <;> simp only [Option.map_none, Option.map_some, reduceCtorEq,
        Option.some.injEq, Prod.mk.injEq] at step
      obtain ⟨rfl, rfl⟩ := step
    · exact .nobody rfl ‹_›
    · exact .wake rfl sleeper ‹_›
  | increment =>
    simp only [thread, Option.ite_none_right_eq_some, Option.some.injEq, Prod.mk.injEq] at step
    obtain ⟨rfl, rfl, rfl⟩ := step
    exact .increment
  | finished =>
    simp only [thread, reduceCtorEq] at step

end NsuOs.Locks
