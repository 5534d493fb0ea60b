import NsuOs.Base.Fairness
import NsuOs.Queues.Deadlock

/-!
# Values keep coming through the condition-variable queue

With one producer and one consumer the queue does not only avoid the state in which both wait: every
value is handed over after finitely many steps. A wake-up without a cause may take the mutex again
and again, so the threads have to be scheduled in a strongly fair way. The argument is about the
thread whose turn it is, the one that does not wait on the flag. The mutex is given back again and
again, a waiter whose flag has changed is signalled, and so that thread cannot stay where it is.
-/
namespace NsuOs.Queues.CondVar

open NsuOs.Run NsuOs.Threads

variable {ι : Type*}

/-- The steps owed to a thread of a role: any it can take, but a wake-up without a cause. -/
def Owed (role : ι → Role) (i : ι) (event : Event ι) : Prop :=
  (role i).Allows event ∧ event ≠ .spurious

/-- The steps to the next completed operation of a thread that does not have to wait. -/
def Pc.left : Pc → Nat
  | .fault => 0
  | .link _ _ | .take => 2
  | .malloc _ => 3
  | .test _ => 4
  | .lock _ | .waiting _ => 5
  | .idle => 6
  | .free _ => 7
  | .unlock _ => 8
  | .signal _ => 9

/-- The steps until the holder of the mutex gives it back. -/
def Pc.holding : Pc → Nat
  | .test _ => 5
  | .malloc _ => 4
  | .link _ _ | .take => 3
  | .signal _ => 2
  | .unlock _ => 1
  | .idle | .lock _ | .waiting _ | .free _ | .fault => 0

variable [DecidableEq ι]

/-- A step completes an operation, or it leaves the operations and the flag as they are. -/
theorem Moves.completes {i : ι} {shared later : Shared ι} {pc moved : Pc} {event : Event ι}
    (move : Moves i shared pc event later moved) :
    later.log.length = shared.log.length + 1 ∨
      later.log = shared.log ∧ later.sharedData = shared.sharedData := by
  cases move with
  | link new val =>
    unfold addNode
    split
    · exact .inr ⟨rfl, rfl⟩
    · exact .inl (by simp)
  | take =>
    unfold getNode
    split
    · exact .inr ⟨rfl, rfl⟩
    · exact .inl (by simp)
  | free tmp =>
    unfold freeNode
    split
    · exact .inr ⟨rfl, rfl⟩
    · exact .inr ⟨rfl, rfl⟩
  | call | lock | wait | enter | relock | spurious | malloc | signal | nobody | unlock =>
    exact .inr ⟨rfl, rfl⟩

/-- A step of a thread that does not have to wait, and completes no operation, brings the next one
closer, unless it is a wake-up without a cause. -/
theorem Moves.nears {i : ι} {shared later : Shared ι} {pc moved : Pc} {event : Event ι}
    (move : Moves i shared pc event later moved) (free : ∀ call, pc = .test call →
      ¬shared.blocked call) (quiet : later.log.length = shared.log.length) :
    moved.left < pc.left ∨ moved = pc ∧ event = .spurious := by
  cases move with
  | wait call blocked => exact absurd blocked (free call rfl)
  | enter call open' => cases call <;> exact .inl (by simp [Call.enter, Pc.left])
  | spurious call => exact .inr ⟨rfl, rfl⟩
  | link new val =>
    refine .inl ?_
    unfold addNode at quiet ⊢
    split at quiet
    · simp [Pc.left]
    · simp at quiet
  | take =>
    refine .inl ?_
    unfold getNode at quiet ⊢
    split at quiet
    · simp [Pc.left]
    · simp at quiet
  | unlock tmp => cases tmp <;> exact .inl (by simp [leave, Pc.left])
  | free tmp =>
    refine .inl ?_
    unfold freeNode
    split <;> simp [Pc.left]
  | call | lock | relock | malloc | signal | nobody => exact .inl (by simp [Pc.left])

/-- A step of the holder brings the unlock closer, or gives the mutex back. -/
theorem Moves.releases {i : ι} {shared later : Shared ι} {pc moved : Pc} {event : Event ι}
    (move : Moves i shared pc event later moved) (holds : pc.holds = true) :
    moved.holding < pc.holding := by
  cases move with
  | enter call => cases call <;> simp [Call.enter, Pc.holding]
  | link new val =>
    unfold addNode
    split <;> simp [Pc.holding]
  | take =>
    unfold getNode
    split <;> simp [Pc.holding]
  | unlock tmp => cases tmp <;> simp [leave, Pc.holding]
  | wait | malloc | signal | nobody => simp [Pc.holding]
  | call | lock | relock | spurious | free => cases holds

/-- A step takes the mutex when it is free, gives it back, or leaves it. -/
theorem Moves.mutex_cases {i : ι} {shared later : Shared ι} {pc moved : Pc} {event : Event ι}
    (move : Moves i shared pc event later moved) :
    shared.mutex = none ∨ later.mutex = none ∨ later.mutex = shared.mutex := by
  cases move with
  | lock call unheld => exact .inl unheld
  | relock call awake unheld => exact .inl unheld
  | wait | unlock => exact .inr (.inl rfl)
  | link new val =>
    unfold addNode
    split <;> exact .inr (.inr rfl)
  | take =>
    unfold getNode
    split <;> exact .inr (.inr rfl)
  | free tmp =>
    unfold freeNode
    split <;> exact .inr (.inr rfl)
  | call | enter | spurious | malloc | signal | nobody => exact .inr (.inr rfl)

/-- A step puts nobody but the thread itself into the wait set. -/
theorem Moves.waiters_subset {i j : ι} {shared later : Shared ι} {pc moved : Pc} {event : Event ι}
    (move : Moves i shared pc event later moved) (other : j ≠ i ∨ ∀ call, pc ≠ .test call)
    (member : j ∈ later.waiters) : j ∈ shared.waiters := by
  cases move with
  | wait call blocked =>
    have apart : j ≠ i := other.resolve_right fun elsewhere => elsewhere call rfl
    exact Finset.mem_of_mem_insert_of_ne member apart
  | spurious call => exact Finset.mem_of_mem_erase member
  | signal tmp waiter woken => exact Finset.mem_of_mem_erase member
  | link new val =>
    unfold addNode at member
    split at member <;> exact member
  | take =>
    unfold getNode at member
    split at member <;> exact member
  | free tmp =>
    unfold freeNode at member
    split at member <;> exact member
  | call | lock | enter | relock | malloc | nobody | unlock => exact member

/-- A thread can take a step it is owed unless it needs the mutex or waits for a signal. -/
theorem step_enabled {role : ι → Role} {owner : Ptr → Option ι} {i : ι} {shared : Shared ι}
    {pc : Pc} (own : Own owner i shared pc)
    (locks : ∀ call, pc = .lock call → shared.mutex = none)
    (wakes : ∀ call, pc = .waiting call → shared.mutex = none ∧ i ∉ shared.waiters) :
    ∃ event after, Owed role i event ∧ step i shared pc event = some after := by
  cases pc with
  | fault => exact absurd rfl own.faultless
  | idle => exact ⟨.call (role i).call, _, ⟨(role i).makes_call, by simp⟩, rfl⟩
  | lock call =>
    have unheld := locks call rfl
    exact ⟨.go, _, ⟨trivial, by simp⟩, by simp only [step, mutexLock, unheld, if_true]; rfl⟩
  | test call =>
    by_cases blocked : shared.blocked call
    · exact ⟨.go, _, ⟨trivial, by simp⟩, if_pos blocked⟩
    · exact ⟨.go, _, ⟨trivial, by simp⟩, if_neg blocked⟩
  | waiting call =>
    obtain ⟨unheld, awake⟩ := wakes call rfl
    exact ⟨.go, _, ⟨trivial, by simp⟩,
      by simp only [step, mutexLock, unheld, awake, if_true, if_false]; rfl⟩
  | malloc val =>
    obtain ⟨p, unused⟩ := shared.heap.exists_unused
    exact ⟨.malloc p, _, ⟨trivial, by simp⟩,
      by simp only [step, mallocNode, unused, if_true]; rfl⟩
  | link new val => exact ⟨.go, _, ⟨trivial, by simp⟩, rfl⟩
  | take => exact ⟨.go, _, ⟨trivial, by simp⟩, rfl⟩
  | signal tmp =>
    rcases shared.waiters.eq_empty_or_nonempty with deserted | ⟨waiter, member⟩
    · exact ⟨.signal none, _, ⟨trivial, by simp⟩,
        by simp only [step, condSignal, deserted, if_true]; rfl⟩
    · exact ⟨.signal (some waiter), _, ⟨trivial, by simp⟩,
        by simp only [step, condSignal, member, if_true]; rfl⟩
  | unlock tmp => exact ⟨.go, _, ⟨trivial, by simp⟩, rfl⟩
  | free tmp => exact ⟨.go, _, ⟨trivial, by simp⟩, rfl⟩

section Fair

variable {role : ι → Role} {maxCount : Int} {n m : Nat} {w : ι}
  {execution : Execution step (Process.start (ι := ι) maxCount)}

/-- Every call of an execution is one its thread's role makes. -/
def Follows (role : ι → Role) (execution : Execution step (Process.start (ι := ι) maxCount)) :
    Prop :=
  ∀ n i event, execution.label n = some (i, event) → (role i).Allows event

/-- The states of such an execution are those that runs of producers and consumers reach. -/
theorem Follows.reaches (follows : Follows role execution) (n : Nat) :
    Reaches role maxCount (execution.state n) := by
  induction n with
  | zero =>
    rw [execution.initial]
    exact reaches_start role maxCount
  | succ n ih =>
    cases moved : execution.label n with
    | none =>
      rw [execution.idle n moved]
      exact ih
    | some label =>
      obtain ⟨labels, repeats, run⟩ := ih
      refine ⟨labels ++ [label], ?_, exec_snoc.mpr ⟨_, run, execution.taken n _ _ moved⟩⟩
      intro other member
      rcases List.mem_append.mp member with old | last
      · exact repeats other old
      · rw [List.mem_singleton.mp last]
        exact follows n label.1 label.2 moved

/-- What a step of an execution does. -/
theorem moves_at {i : ι} {event : Event ι} (moved : execution.label n = some (i, event)) :
    Moves i (execution.state n).shared ((execution.state n).thread i) event
      (execution.state (n + 1)).shared ((execution.state (n + 1)).thread i) :=
  moves_of_step (execution.own_step moved)

/-- The mutex is given back again and again. -/
theorem mutex_freed (fair : execution.StronglyFair (Owed role)) (n : Nat) :
    ∃ m, n ≤ m ∧ (execution.state m).shared.mutex = none := by
  by_contra never
  have held : ∀ m, n ≤ m → (execution.state m).shared.mutex ≠ none :=
    fun m later free => never ⟨m, later, free⟩
  obtain ⟨j, first⟩ := Option.ne_none_iff_exists'.mp (held n (Nat.le_refl n))
  have holds : ∀ m, n ≤ m → (execution.state m).shared.mutex = some j := by
    intro m later
    refine execution.kept_from (fun process => process.shared.mutex = some j) first ?_ later
    intro m i event later same moved
    rcases (moves_at moved).mutex_cases with free | free | kept
    · exact absurd free (held m later)
    · exact absurd free (held (m + 1) (by omega))
    · exact kept.trans same
  have inside : ∀ m, n ≤ m → ((execution.state m).thread j).holds = true := by
    intro m later
    obtain ⟨labels, run⟩ := execution.reached m
    obtain ⟨owner, -, threads⟩ := Process.sound_run run
    exact (threads j).holds.mpr (holds m later)
  obtain ⟨k, later, settled⟩ := execution.settles (fun process => (process.thread j).holding) n
    fun m i event later moved => by
      by_cases same : i = j
      · subst same
        exact Nat.le_of_lt ((moves_at moved).releases (inside m later))
      · rw [execution.thread_at moved (Ne.symm same)]
  obtain ⟨m, after, event, moved⟩ := fair.fair j k fun m after => by
    obtain ⟨labels, run⟩ := execution.reached m
    obtain ⟨owner, -, threads⟩ := Process.sound_run run
    have here := inside m (by omega)
    refine step_enabled (threads j) ?_ ?_
    · intro call locks
      rw [locks] at here
      cases here
    · intro call waits
      rw [waits] at here
      cases here
  have less := (moves_at moved).releases (inside m (by omega))
  have now := settled m after
  have next := settled (m + 1) (by omega)
  omega

/-- From a moment on a thread stays at its place; only wake-ups without a cause may happen to it. -/
structure Stalled (execution : Execution step (Process.start (ι := ι) maxCount)) (w : ι) (n : Nat) :
    Prop where
  /-- The thread stays where it is. -/
  still : ∀ m, n ≤ m → (execution.state m).thread w = (execution.state n).thread w
  /-- Only wake-ups without a cause happen to it. -/
  silent : ∀ m event, n ≤ m → execution.label m = some (w, event) → event = .spurious

/-- A thread that does not have to wait, and yet completes no operation, comes to a standstill. -/
theorem exists_stalled
    (quiet : ∀ m, n ≤ m → (execution.state (m + 1)).shared.log.length =
      (execution.state m).shared.log.length)
    (free : ∀ m call, n ≤ m → (execution.state m).thread w = .test call →
      ¬(execution.state m).shared.blocked call) :
    ∃ k, n ≤ k ∧ Stalled execution w k := by
  have nears : ∀ m event, n ≤ m → execution.label m = some (w, event) →
      ((execution.state (m + 1)).thread w).left < ((execution.state m).thread w).left ∨
        (execution.state (m + 1)).thread w = (execution.state m).thread w ∧ event = .spurious :=
    fun m event later moved =>
      (moves_at moved).nears (fun call => free m call later) (quiet m later)
  obtain ⟨k, later, settled⟩ := execution.settles (fun process => (process.thread w).left) n
    fun m i event later moved => by
      by_cases same : i = w
      · subst same
        rcases nears m event later moved with less | ⟨equal, -⟩
        · exact Nat.le_of_lt less
        · rw [equal]
      · rw [execution.thread_at moved (Ne.symm same)]
  have stays : ∀ m event, k ≤ m → execution.label m = some (w, event) →
      (execution.state (m + 1)).thread w = (execution.state m).thread w ∧ event = .spurious := by
    intro m event after moved
    have now := settled m after
    have next := settled (m + 1) (by omega)
    exact (nears m event (by omega) moved).resolve_left (by omega)
  refine ⟨k, later, fun m after => ?_, fun m event after moved => (stays m event after moved).2⟩
  refine execution.kept_from (fun process => process.thread w = (execution.state k).thread w) rfl ?_
    after
  intro m i event after same moved
  by_cases mine : i = w
  · subst mine
    exact (stays m event after moved).1.trans same
  · exact (execution.thread_at moved (Ne.symm mine)).trans same

/-- A thread at a standstill that is not in the wait set does not get into it. -/
theorem Stalled.stays_awake (stalled : Stalled execution w n) (awake : w ∉
    (execution.state n).shared.waiters) (later : n ≤ m) :
    w ∉ (execution.state m).shared.waiters := by
  refine execution.kept_from (fun process => w ∉ process.shared.waiters) awake ?_ later
  intro m i event later outside moved member
  refine outside ((moves_at moved).waiters_subset ?_ member)
  by_cases mine : w = i
  · subst mine
    have cause := stalled.silent m event later moved
    have move := moves_at moved
    rw [cause] at move
    refine .inr fun call test => ?_
    rw [test] at move
    cases move
  · exact .inl mine

/-- With two threads, a thread at a standstill whose flag has been changed is out of the wait set
from some moment on. -/
theorem Stalled.woken (stalled : Stalled execution w n) (positive : 1 ≤ maxCount)
    (two : ∀ i j k : ι, i = j ∨ i = k ∨ j = k) (follows : Follows role execution)
    (fair : execution.StronglyFair (Owed role))
    (turn : (execution.state n).shared.sharedData ≠ (role w).waitsOn) :
    ∃ k, n ≤ k ∧ ∀ m, k ≤ m → w ∉ (execution.state m).shared.waiters := by
  by_cases waits : w ∈ (execution.state n).shared.waiters
  · obtain ⟨j, tmp, signals⟩ := (follows.reaches n).answered positive two w waits turn
    obtain ⟨k, later, here, event, moved⟩ := fair.fair.leads j
      (fun process => process.thread j = .signal tmp) signals
      (by
        intro k later here
        obtain ⟨labels, run⟩ := execution.reached k
        obtain ⟨owner, -, threads⟩ := Process.sound_run run
        exact step_enabled (threads j) (by simp [here]) (by simp [here]))
      (by
        intro k i event later here other moved
        exact (execution.thread_at moved other.symm).trans here)
    obtain ⟨labels, run⟩ := execution.reached k
    obtain ⟨owner, -, threads⟩ := Process.sound_run run
    have busy := (threads j).not_waiting (by simp [here])
    have asleep : w ≠ j := by
      rintro rfl
      obtain ⟨labels, before⟩ := execution.reached n
      obtain ⟨owner, -, threads⟩ := Process.sound_run before
      obtain ⟨call, waiting⟩ := (threads w).waits waits
      rw [signals] at waiting
      cases waiting
    have woken : w ∉ (execution.state (k + 1)).shared.waiters := by
      have move := moves_at moved
      generalize (execution.state (k + 1)).shared = after at move ⊢
      generalize (execution.state (k + 1)).thread j = place at move
      rw [here] at move
      cases move with
      | signal tmp waiter member =>
        rcases two w waiter j with same | same | same
        · rw [same]
          exact Finset.notMem_erase waiter _
        · exact absurd same asleep
        · exact absurd (same ▸ member) busy
      | nobody tmp deserted => simp [deserted]
    have onward : Stalled execution w (k + 1) :=
      ⟨fun m after => (stalled.still m (by omega)).trans (stalled.still (k + 1) (by omega)).symm,
        fun m event after => stalled.silent m event (by omega)⟩
    exact ⟨k + 1, by omega, fun m after => onward.stays_awake woken after⟩
  · exact ⟨n, Nat.le_refl n, fun m later => stalled.stays_awake waits later⟩

/-- With one producer and one consumer another operation is completed after every moment. -/
theorem completes_again (positive : 1 ≤ maxCount) (two : ∀ i j k : ι, i = j ∨ i = k ∨ j = k)
    {p c : ι} (produces : role p = .producer) (consumes : role c = .consumer)
    (follows : Follows role execution) (fair : execution.StronglyFair (Owed role)) (n : Nat) :
    ∃ m, n ≤ m ∧
      (execution.state n).shared.log.length < (execution.state m).shared.log.length := by
  by_contra never
  have grows : ∀ m, n ≤ m → (execution.state n).shared.log.length ≤
      (execution.state m).shared.log.length := by
    intro m later
    refine execution.kept_from (fun process => (execution.state n).shared.log.length ≤
      process.shared.log.length) (Nat.le_refl _) ?_ later
    intro m i event _ longer moved
    rcases (moves_at moved).completes with more | ⟨same, -⟩
    · omega
    · rw [same]
      exact longer
  have constant : ∀ m, n ≤ m → (execution.state m).shared.log.length =
      (execution.state n).shared.log.length := by
    intro m later
    have lower := grows m later
    have upper := not_exists.mp never m
    omega
  have flag : ∀ m, n ≤ m → (execution.state m).shared.sharedData =
      (execution.state n).shared.sharedData := by
    intro m later
    refine execution.kept_from (fun process => process.shared.sharedData =
      (execution.state n).shared.sharedData) rfl ?_ later
    intro m i event later same moved
    have now := constant m later
    have next := constant (m + 1) (by omega)
    rcases (moves_at moved).completes with more | ⟨-, kept⟩
    · omega
    · exact kept.trans same
  obtain ⟨w, turn⟩ : ∃ w, (execution.state n).shared.sharedData ≠ (role w).waitsOn := by
    cases data : (execution.state n).shared.sharedData with
    | ok => exact ⟨p, by simp [produces, Role.waitsOn]⟩
    | nok => exact ⟨c, by simp [consumes, Role.waitsOn]⟩
  have free : ∀ m call, n ≤ m → (execution.state m).thread w = .test call →
      ¬(execution.state m).shared.blocked call := by
    intro m call later test blocked
    have reached := follows.reaches m
    have capacity := reached.maxCount_eq
    have makes : (role w).Makes call := by
      have fits := reached.fits w
      rw [test] at fits
      exact fits
    obtain ⟨labels, run⟩ := execution.reached m
    obtain ⟨owner, sound, -⟩ := Process.sound_run run
    have waits := (sound.phase.blocked_iff (by omega) makes).mp blocked
    exact turn ((flag m later).symm.trans waits)
  obtain ⟨k, later, stalled⟩ := exists_stalled
    (fun m later => (constant (m + 1) (by omega)).trans (constant m later).symm) free
  have same : (execution.state k).shared.sharedData ≠ (role w).waitsOn := by
    rw [flag k later]
    exact turn
  obtain ⟨l, after, awake⟩ := stalled.woken positive two follows fair same
  obtain ⟨m, beyond, event, ⟨-, cause⟩, moved⟩ := fair w l fun m beyond => by
    obtain ⟨k', further, unheld⟩ := mutex_freed fair m
    obtain ⟨labels, run⟩ := execution.reached k'
    obtain ⟨owner, -, threads⟩ := Process.sound_run run
    exact ⟨k', further, step_enabled (threads w) (fun _ _ => unheld)
      fun _ _ => ⟨unheld, awake k' (by omega)⟩⟩
  exact cause (stalled.silent m event (by omega) moved)

/-- Each value makes two operations. -/
theorem length_pairs (vals : List Int32) : (pairs vals).length = 2 * vals.length := by
  induction vals with
  | nil => rfl
  | cons val vals ih =>
    simp only [pairs, List.flatMap_cons, List.length_append, List.length_cons] at ih ⊢
    simp only [List.length_nil]
    omega

/-- For every capacity of at least one, with exactly one producer and exactly one consumer and any
wake-ups without a cause, in every strongly fair execution any number of values has been added and
handed over, each before the next one was added, at some moment. -/
theorem values_handed_over [Fintype ι] (positive : 1 ≤ maxCount) (one : producers role = 1)
    (single : consumers role = 1) (follows : Follows role execution)
    (fair : execution.StronglyFair (Owed role)) (bound : Nat) :
    ∃ n vals, bound ≤ vals.length ∧ pairs vals <+: (execution.state n).shared.log := by
  obtain ⟨p, member⟩ := Finset.card_pos.mp (Nat.lt_of_lt_of_eq Nat.zero_lt_one one.symm)
  have produces : role p = .producer := (Finset.mem_filter.mp member).2
  obtain ⟨c, member⟩ := Finset.card_pos.mp (Nat.lt_of_lt_of_eq Nat.zero_lt_one single.symm)
  have consumes : role c = .consumer := (Finset.mem_filter.mp member).2
  have card := producers_add_consumers role
  have two : ∀ i j k : ι, i = j ∨ i = k ∨ j = k := by
    intro i j k
    by_contra distinct
    simp only [not_or] at distinct
    have three : 2 < (Finset.univ : Finset ι).card :=
      Finset.two_lt_card.mpr ⟨i, by simp, j, by simp, k, by simp, distinct⟩
    rw [Finset.card_univ] at three
    omega
  have many : ∀ count, ∃ n, count ≤ (execution.state n).shared.log.length := by
    intro count
    induction count with
    | zero => exact ⟨0, Nat.zero_le _⟩
    | succ count ih =>
      obtain ⟨n, enough⟩ := ih
      obtain ⟨m, -, more⟩ := completes_again positive two produces consumes follows fair n
      exact ⟨m, by omega⟩
  obtain ⟨n, enough⟩ := many (2 * bound)
  obtain ⟨labels, run⟩ := execution.reached n
  obtain ⟨owner, sound, -⟩ := Process.sound_run run
  cases sound.phase with
  | empty vals data cells log =>
    have size := length_pairs vals
    rw [log] at enough
    exact ⟨n, vals, by omega, by rw [log]⟩
  | full vals p val data cells unowned log =>
    have size := length_pairs vals
    rw [log, List.length_append, List.length_singleton] at enough
    exact ⟨n, vals, by omega, by rw [log]; exact List.prefix_append _ _⟩

/-- There is a strongly fair execution of one producer and one consumer on a queue of capacity one,
and a thousand values are handed over in it. -/
theorem values_handed_over_pair :
    ∃ execution : Execution step (Process.start (ι := Fin 2) 1),
      execution.StronglyFair (Owed fun i => if i = 0 then Role.producer else .consumer) ∧
        ∃ n vals, 1000 ≤ vals.length ∧ pairs vals <+: (execution.state n).shared.log := by
  have fair : (Execution.schedule step (Owed fun i => if i = 0 then Role.producer else .consumer)
      (Process.start (ι := Fin 2) 1)).StronglyFair
        (Owed fun i => if i = 0 then Role.producer else .consumer) :=
    Execution.schedule_stronglyFair
  have follows : Follows (fun i => if i = 0 then Role.producer else .consumer)
      (Execution.schedule step (Owed fun i => if i = 0 then Role.producer else .consumer)
        (Process.start (ι := Fin 2) 1)) :=
    fun n i event moved => (Execution.schedule_owed moved).1
  exact ⟨_, fair, values_handed_over (by decide) (by decide) (by decide) follows fair 1000⟩

end Fair

end NsuOs.Queues.CondVar
