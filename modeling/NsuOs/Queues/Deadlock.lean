import NsuOs.Queues.Alternation

/-!
# When the condition-variable queue can deadlock

Producers and consumers wait on one condition variable and every signal wakes a single waiter of
either kind. A producer woken by a producer, or a consumer by a consumer, finds its condition
still true and goes back to wait, and the signal is lost. With one producer and one consumer the
only waiter a signal can find is the other one, and no state has both waiting; with more threads
of either kind a run into the state where everybody waits is constructed here.
-/
namespace NsuOs.Queues.CondVar

open NsuOs.Run

variable {ι : Type*}

/-- What a thread does over and over. -/
inductive Role
  | producer
  | consumer
  deriving DecidableEq

/-- The calls a thread of each role makes. -/
def Role.Makes : Role → Call → Prop
  | .producer, .add _ => True
  | .producer, .get => False
  | .consumer, .add _ => False
  | .consumer, .get => True

instance (role : Role) (call : Call) : Decidable (role.Makes call) :=
  match role, call with
  | .producer, .add _ => .isTrue trivial
  | .producer, .get => .isFalse id
  | .consumer, .add _ => .isFalse id
  | .consumer, .get => .isTrue trivial

/-- The flag on which each role waits. -/
def Role.waitsOn : Role → EventData
  | .producer => .nok
  | .consumer => .ok

/-- The events of a thread of each role: any but a call of the other function. -/
def Role.Allows (role : Role) : Event ι → Prop
  | .call call => role.Makes call
  | .go | .malloc _ | .signal _ | .spurious => True

instance (role : Role) (event : Event ι) : Decidable (role.Allows event) :=
  match event with
  | .call call => inferInstanceAs (Decidable (role.Makes call))
  | .go | .malloc _ | .signal _ | .spurious => .isTrue trivial

/-- Every call of a run is one its thread's role makes. -/
def Repeats (role : ι → Role) (labels : List (ι × Event ι)) : Prop :=
  ∀ label ∈ labels, (role label.1).Allows label.2

instance (role : ι → Role) (labels : List (ι × Event ι)) : Decidable (Repeats role labels) :=
  inferInstanceAs (Decidable (∀ label ∈ labels, (role label.1).Allows label.2))

/-- The number of producers. -/
def producers [Fintype ι] (role : ι → Role) : Nat :=
  (Finset.univ.filter fun i => role i = .producer).card

/-- The number of consumers. -/
def consumers [Fintype ι] (role : ι → Role) : Nat :=
  (Finset.univ.filter fun i => role i = .consumer).card

/-- With a positive capacity a thread waits exactly on the flag of its role. -/
theorem Phase.blocked_iff {owner : Ptr → Option ι} {shared : Shared ι} {role : Role} {call : Call}
    (phase : Phase owner shared) (positive : 1 ≤ shared.queue.maxCount)
    (makes : role.Makes call) : shared.blocked call ↔ shared.sharedData = role.waitsOn := by
  cases phase with
  | empty vals data cells log =>
    have count : shared.queue.count = 0 := cells.count
    have room : ¬shared.queue.count = shared.queue.maxCount := by omega
    cases role <;> cases call
    · simp [Shared.blocked, Role.waitsOn, data, room]
    · exact makes.elim
    · exact makes.elim
    · simp [Shared.blocked, Role.waitsOn, data]
  | full vals p val data cells unowned log =>
    have count : shared.queue.count = 1 := cells.count
    cases role <;> cases call
    · simp [Shared.blocked, Role.waitsOn, data]
    · exact makes.elim
    · exact makes.elim
    · simp [Shared.blocked, Role.waitsOn, data, count]

/-- Producers and consumers are all the threads. -/
theorem producers_add_consumers [Fintype ι] (role : ι → Role) :
    producers role + consumers role = Fintype.card ι := by
  have split := Finset.card_filter_add_card_filter_not (s := Finset.univ)
    (fun i : ι => role i = .producer)
  have other : (Finset.univ.filter fun i => ¬role i = .producer) =
      Finset.univ.filter fun i => role i = .consumer := by
    apply Finset.filter_congr
    intro i _
    cases role i <;> simp
  rw [other] at split
  exact split

/-- Every thread is in the wait set of the condition variable. -/
def Process.Deadlocked (process : Process ι) : Prop := ∀ i, i ∈ process.shared.waiters

/-- A call each role makes. -/
def Role.call : Role → Call
  | .producer => .add 0
  | .consumer => .get

/-- The call of a role is one it makes. -/
theorem Role.makes_call (role : Role) : role.Makes role.call := by
  cases role <;> trivial

/-- The other flag. -/
def EventData.other : EventData → EventData
  | .ok => .nok
  | .nok => .ok

/-- The mutex is free, the threads outside `out` wait, and those in `out` are idle or have just
been woken. -/
structure Resting (role : ι → Role) (process : Process ι) (out : Finset ι) (data : EventData) :
    Prop where
  /-- No thread has the mutex. -/
  mutex : process.shared.mutex = none
  /-- The flag has this value. -/
  flag : process.shared.sharedData = data
  /-- The wait set is all threads but those in `out`. -/
  waiters : ∀ i, i ∈ process.shared.waiters ↔ i ∉ out
  /-- The threads in it are in their wait. -/
  parked : ∀ i, i ∉ out → process.thread i = .waiting (role i).call
  /-- Those in `out` are idle or behind their wait. -/
  rest : ∀ i, i ∈ out → process.thread i = .idle ∨ process.thread i = .waiting (role i).call

/-- At the start everybody is idle and the queue is empty. -/
theorem resting_start [Fintype ι] (role : ι → Role) (maxCount : Int) :
    Resting role (.start maxCount) Finset.univ .ok :=
  ⟨rfl, rfl, by simp [Process.start], by simp, by simp [Process.start]⟩

/-- A state in which only the threads of an empty set do not wait is a deadlock. -/
theorem Resting.deadlocked {role : ι → Role} {process : Process ι} {data : EventData}
    (resting : Resting role process ∅ data) : process.Deadlocked := by
  intro i
  exact (resting.waiters i).mpr (by simp)

variable [DecidableEq ι]

/-- A state some run of producers and consumers leads to. -/
def Reaches (role : ι → Role) (maxCount : Int) (process : Process ι) : Prop :=
  ∃ labels, Repeats role labels ∧ exec next (.start maxCount) labels = some process

section OnePair

variable {role : ι → Role} {maxCount : Int} {process after : Process ι}

/-- The places a thread of a role can be at. -/
def Role.Fits (role : Role) : Pc → Prop
  | .lock call | .test call | .waiting call => role.Makes call
  | .malloc _ | .link _ _ => role = .producer
  | .take => role = .consumer
  | .idle | .signal _ | .unlock _ | .free _ | .fault => True

/-- Past its loop a thread is at the body of the function it called. -/
theorem Role.Fits.enter {role : Role} {call : Call} (makes : role.Makes call) :
    role.Fits call.enter := by
  cases role <;> cases call
  · rfl
  · exact makes.elim
  · exact makes.elim
  · rfl

/-- A thread stays at places of its role. -/
theorem Role.Fits.moves {i : ι} {shared later : Shared ι} {pc moved : Pc} {event : Event ι}
    (move : Moves i shared pc event later moved) (fits : (role i).Fits pc)
    (allowed : (role i).Allows event) : (role i).Fits moved := by
  cases move with
  | call call => exact allowed
  | lock call unheld => exact fits
  | wait call blocked => exact fits
  | enter call free => exact Role.Fits.enter fits
  | relock call awake unheld => exact fits
  | spurious call => exact fits
  | malloc val p unused => exact fits
  | link new val =>
    unfold addNode
    split <;> trivial
  | take =>
    unfold getNode
    split <;> trivial
  | signal tmp waiter member => trivial
  | nobody tmp deserted => trivial
  | unlock tmp => cases tmp <;> trivial
  | free tmp =>
    unfold freeNode
    split <;> trivial

/-- In every state reached the threads are at places of their roles. -/
theorem Reaches.fits (reached : Reaches role maxCount process) (i : ι) :
    (role i).Fits (process.thread i) := by
  obtain ⟨labels, repeats, run⟩ := reached
  revert repeats i
  refine exec_induct (motive := fun labels process =>
    ∀ i, Repeats role labels → (role i).Fits (process.thread i)) ?_ ?_ run
  · intro i _
    trivial
  · intro labels middle label finish _ ih taken i repeats
    obtain ⟨k, event⟩ := label
    have before : Repeats role labels := fun label member =>
      repeats label (List.mem_append_left _ member)
    have own := Threads.next_eq_some.mp taken
    by_cases same : i = k
    · subst same
      exact Role.Fits.moves (moves_of_step own.1) (ih i before) (repeats (i, event) (by simp))
    · rw [own.2 i same]
      exact ih i before

/-- No step changes the capacity. -/
theorem Moves.maxCount_eq {i : ι} {shared later : Shared ι} {pc moved : Pc} {event : Event ι}
    (move : Moves i shared pc event later moved) :
    later.queue.maxCount = shared.queue.maxCount := by
  cases move with
  | link new val =>
    unfold addNode Queue.append
    split
    · rfl
    · split at ‹_›
      · obtain ⟨rfl, -⟩ := Prod.mk.inj (Option.some.inj ‹_›)
        rfl
      · split at ‹_›
        · cases ‹_›
        · obtain ⟨rfl, -⟩ := Prod.mk.inj (Option.some.inj ‹_›)
          rfl
  | take =>
    unfold getNode Queue.take
    split
    · rfl
    · split at ‹_›
      · cases ‹_›
      · obtain ⟨rfl, -⟩ := Prod.mk.inj (Option.some.inj ‹_›)
        rfl
  | free tmp =>
    unfold freeNode
    split <;> rfl
  | call | lock | wait | enter | relock | spurious | malloc | signal | nobody | unlock => rfl

/-- The capacity in every state reached is the one the queue was made with. -/
theorem Reaches.maxCount_eq (reached : Reaches role maxCount process) :
    process.shared.queue.maxCount = maxCount := by
  obtain ⟨labels, -, run⟩ := reached
  refine exec_induct (motive := fun _ process => process.shared.queue.maxCount = maxCount)
    rfl ?_ run
  intro labels middle label finish _ held taken
  have move := moves_of_step (Threads.next_eq_some.mp taken).1
  exact move.maxCount_eq.trans held

/-- A waiter whose flag has been changed is about to be signalled. -/
def Process.Answered (role : ι → Role) (process : Process ι) : Prop :=
  ∀ i ∈ process.shared.waiters, process.shared.sharedData ≠ (role i).waitsOn →
    ∃ j tmp, process.thread j = .signal tmp

/-- What a step of a thread does to the flag and the wait set: it goes to wait, it completes an
operation, it signals a waiter, or it leaves the flag and wakes nobody but itself. -/
theorem Moves.waiting_cases {owner : Ptr → Option ι} {i : ι} {shared later : Shared ι}
    {pc moved : Pc} {event : Event ι} (move : Moves i shared pc event later moved)
    (sound : Sound owner shared) (own : Own owner i shared pc) :
    (∃ call, pc = .test call ∧ shared.blocked call ∧ later = condWait i shared) ∨
      (∃ tmp, moved = .signal tmp) ∨
      (∃ tmp waiter, pc = .signal tmp ∧ waiter ∈ shared.waiters ∧
        later.waiters = shared.waiters.erase waiter) ∨
      later.waiters = ∅ ∨
      (later.sharedData = shared.sharedData ∧ later.waiters ⊆ shared.waiters ∧
        ∀ tmp, pc ≠ .signal tmp) := by
  cases move with
  | wait call blocked => exact .inl ⟨call, rfl, blocked, rfl⟩
  | link new val =>
    obtain ⟨later, -, mine, -⟩ := sound_link sound own
    have faultless := mine.faultless
    refine .inr (.inl ?_)
    unfold addNode at faultless ⊢
    split at faultless
    · exact absurd rfl faultless
    · exact ⟨none, rfl⟩
  | take =>
    obtain ⟨later, -, mine, -⟩ := sound_take sound own
    have faultless := mine.faultless
    refine .inr (.inl ?_)
    unfold getNode at faultless ⊢
    split at faultless
    · exact absurd rfl faultless
    · exact ⟨_, rfl⟩
  | signal tmp waiter member => exact .inr (.inr (.inl ⟨tmp, waiter, rfl, member, rfl⟩))
  | nobody tmp deserted => exact .inr (.inr (.inr (.inl deserted)))
  | spurious call =>
    exact .inr (.inr (.inr (.inr ⟨rfl, Finset.erase_subset i shared.waiters, by simp⟩)))
  | free tmp =>
    refine .inr (.inr (.inr (.inr ?_)))
    unfold freeNode
    split <;> exact ⟨rfl, Finset.Subset.refl _, by simp⟩
  | call | lock | enter | relock | malloc | unlock =>
    exact .inr (.inr (.inr (.inr ⟨rfl, Finset.Subset.refl _, by simp⟩)))

/-- With two threads only, a signal can only find the thread the flag was changed for. -/
theorem Reaches.answered_next (positive : 1 ≤ maxCount)
    (two : ∀ i j k : ι, i = j ∨ i = k ∨ j = k) (reached : Reaches role maxCount process)
    {label : ι × Event ι} (answered : process.Answered role)
    (taken : next process label = some after) : after.Answered role := by
  obtain ⟨k, event⟩ := label
  have fits := reached.fits
  have capacity := reached.maxCount_eq
  obtain ⟨labels, -, run⟩ := reached
  obtain ⟨owner, sound, threads⟩ := Process.sound_run run
  have own := Threads.next_eq_some.mp taken
  have persists : (∀ tmp, process.thread k ≠ .signal tmp) →
      (∃ j tmp, process.thread j = .signal tmp) → ∃ j tmp, after.thread j = .signal tmp := by
    rintro elsewhere ⟨j, tmp, signals⟩
    have other : j ≠ k := by
      rintro rfl
      exact elsewhere tmp signals
    exact ⟨j, tmp, (own.2 j other).trans signals⟩
  intro i waits changed
  rcases (moves_of_step own.1).waiting_cases sound (threads k) with
    ⟨call, here, blocked, same⟩ | ⟨tmp, signals⟩ | ⟨tmp, waiter, here, member, same⟩ | deserted |
      ⟨data, fewer, elsewhere⟩
  · rw [same] at waits changed
    have makes : (role k).Makes call := by
      have place := fits k
      rw [here] at place
      exact place
    have flag := (sound.phase.blocked_iff (by omega) makes).mp blocked
    have other : i ≠ k := by
      rintro rfl
      exact changed flag
    have before : i ∈ process.shared.waiters := Finset.mem_of_mem_insert_of_ne waits other
    exact persists (by simp [here]) (answered i before changed)
  · exact ⟨k, tmp, signals⟩
  · rw [same] at waits
    obtain ⟨apart, before⟩ := Finset.mem_erase.mp waits
    have awake := (threads k).not_waiting (by simp [here])
    rcases two i waiter k with equal | equal | equal
    · exact absurd equal apart
    · exact absurd (equal ▸ before) awake
    · exact absurd (equal ▸ member) awake
  · rw [deserted] at waits
    simp at waits
  · rw [data] at changed
    exact persists elsewhere (answered i (fewer waits) changed)

/-- With two threads only, a waiter whose flag has been changed is about to be signalled. -/
theorem Reaches.answered (positive : 1 ≤ maxCount)
    (two : ∀ i j k : ι, i = j ∨ i = k ∨ j = k) (reached : Reaches role maxCount process) :
    process.Answered role := by
  obtain ⟨labels, repeats, run⟩ := reached
  revert repeats
  refine exec_induct (motive := fun labels process =>
    Repeats role labels → process.Answered role) ?_ ?_ run
  · intro _ i waits
    simp [Process.start] at waits
  · intro labels middle label finish earlier ih taken repeats
    have before : Repeats role labels := fun label member =>
      repeats label (List.mem_append_left _ member)
    exact answered_next positive two ⟨labels, before, earlier⟩ (ih before) taken

/-- One producer and one consumer never both wait. -/
theorem Reaches.not_deadlocked (positive : 1 ≤ maxCount)
    (two : ∀ i j k : ι, i = j ∨ i = k ∨ j = k) {p c : ι} (produces : role p = .producer)
    (consumes : role c = .consumer) (reached : Reaches role maxCount process) :
    ¬process.Deadlocked := by
  intro stuck
  have answered := reached.answered positive two
  obtain ⟨labels, -, run⟩ := reached
  obtain ⟨owner, sound, threads⟩ := Process.sound_run run
  have signals : ∃ j tmp, process.thread j = .signal tmp := by
    cases data : process.shared.sharedData with
    | ok => exact answered p (stuck p) (by simp [data, produces, Role.waitsOn])
    | nok => exact answered c (stuck c) (by simp [data, consumes, Role.waitsOn])
  obtain ⟨j, tmp, here⟩ := signals
  obtain ⟨call, waits⟩ := (threads j).waits (stuck j)
  rw [here] at waits
  cases waits

end OnePair

section Crowded

variable {role : ι → Role} {maxCount : Int} {process : Process ι} {out : Finset ι}
  {data : EventData}

/-- The empty run reaches the start. -/
theorem reaches_start (role : ι → Role) (maxCount : Int) :
    Reaches role maxCount (.start maxCount) :=
  ⟨[], by simp [Repeats], rfl⟩

/-- A run goes on with a step of the thread that moved last. -/
theorem Reaches.more {shared later : Shared ι} {thread : ι → Pc} {i : ι} {pc moved : Pc}
    (reached : Reaches role maxCount ⟨shared, Function.update thread i pc⟩) (event : Event ι)
    (own : step i shared pc event = some (later, moved))
    (allowed : (role i).Allows event) :
    Reaches role maxCount ⟨later, Function.update thread i moved⟩ := by
  obtain ⟨labels, repeats, run⟩ := reached
  refine ⟨labels ++ [(i, event)], ?_, ?_⟩
  · intro label member
    rcases List.mem_append.mp member with old | last
    · exact repeats label old
    · rw [List.mem_singleton.mp last]
      exact allowed
  · apply exec_snoc.mpr
    refine ⟨_, run, ?_⟩
    simp [next, Threads.next, own]

/-- A thread that does not wait gets the mutex and comes to the condition of its loop. -/
theorem Resting.toTest (resting : Resting role process out data)
    (reached : Reaches role maxCount process) {i : ι} (inside : i ∈ out) :
    Reaches role maxCount ⟨{ process.shared with mutex := some i },
      Function.update process.thread i (.test (role i).call)⟩ := by
  have unheld := resting.mutex
  have awake : i ∉ process.shared.waiters := fun member => (resting.waiters i).mp member inside
  have here : Reaches role maxCount
      ⟨process.shared, Function.update process.thread i (process.thread i)⟩ := by
    rw [Function.update_eq_self]
    exact reached
  rcases resting.rest i inside with idle | woken
  · rw [idle] at here
    have called := here.more (.call (role i).call) rfl (role i).makes_call
    exact called.more .go (by simp [step, mutexLock, unheld]) trivial
  · rw [woken] at here
    exact here.more .go (by simp [step, mutexLock, unheld, awake]) trivial

/-- The assertions hold in every state reached. -/
theorem Reaches.sound (reached : Reaches role maxCount process) :
    ∃ owner, Sound owner process.shared ∧
      ∀ i, Own owner i process.shared (process.thread i) := by
  obtain ⟨labels, -, run⟩ := reached
  exact Process.sound_run run

/-- Whether a thread at its condition is blocked is told by the flag. -/
theorem Reaches.blocked_iff (positive : 1 ≤ maxCount) (reached : Reaches role maxCount process)
    (i : ι) :
    process.shared.blocked (role i).call ↔ process.shared.sharedData = (role i).waitsOn := by
  obtain ⟨owner, sound, -⟩ := reached.sound
  have capacity := reached.maxCount_eq
  exact sound.phase.blocked_iff (by omega) (role i).makes_call

/-- A thread whose flag is set goes to wait. -/
theorem Resting.park (positive : 1 ≤ maxCount) (resting : Resting role process out data)
    (reached : Reaches role maxCount process) {i : ι} (inside : i ∈ out)
    (blocked : data = (role i).waitsOn) :
    ∃ after, Reaches role maxCount after ∧ Resting role after (out.erase i) data := by
  have tests := resting.toTest reached inside
  have waits := (tests.blocked_iff positive i).mpr (resting.flag.trans blocked)
  refine ⟨_, tests.more .go (by simp only [step]; exact if_pos waits) trivial, ?_⟩
  refine ⟨rfl, resting.flag, ?_, ?_, ?_⟩
  · intro j
    have old := resting.waiters j
    simp only [condWait, Finset.mem_insert, Finset.mem_erase, old]
    tauto
  · intro j outside
    by_cases same : j = i
    · subst same
      simp
    · have before : j ∉ out := fun member => outside (Finset.mem_erase.mpr ⟨same, member⟩)
      simp only [Function.update_of_ne same]
      exact resting.parked j before
  · intro j member
    obtain ⟨other, before⟩ := Finset.mem_erase.mp member
    simp only [Function.update_of_ne other]
    exact resting.rest j before

/-- All threads of a set whose flag is set go to wait, one after the other. -/
theorem Resting.parkAll (positive : 1 ≤ maxCount) (resting : Resting role process out data)
    (reached : Reaches role maxCount process) (set : Finset ι) (inside : set ⊆ out)
    (blocked : ∀ i ∈ set, data = (role i).waitsOn) :
    ∃ after, Reaches role maxCount after ∧ Resting role after (out \ set) data := by
  induction set using Finset.induction_on with
  | empty =>
    rw [Finset.sdiff_empty]
    exact ⟨process, reached, resting⟩
  | insert i set fresh ih =>
    obtain ⟨middle, onward, rested⟩ := ih
      (fun j member => inside (Finset.mem_insert_of_mem member))
      (fun j member => blocked j (Finset.mem_insert_of_mem member))
    have here : i ∈ out \ set :=
      Finset.mem_sdiff.mpr ⟨inside (Finset.mem_insert_self i set), fresh⟩
    have last := rested.park positive onward here (blocked i (Finset.mem_insert_self i set))
    rw [← Finset.sdiff_insert] at last
    exact last

/-- After a completed operation, the signal to a waiter and the unlock, everybody rests again. -/
theorem Resting.acted (resting : Resting role process out data) {i w : ι} (inside : i ∈ out)
    (outside : w ∉ out) {shared : Shared ι} (mutex : shared.mutex = none)
    (flag : shared.sharedData = data.other)
    (waiters : shared.waiters = process.shared.waiters.erase w) :
    Resting role ⟨shared, Function.update process.thread i .idle⟩ (insert w out) data.other := by
  have apart : i ≠ w := by
    rintro rfl
    exact outside inside
  refine ⟨mutex, flag, ?_, ?_, ?_⟩
  · intro j
    have old := resting.waiters j
    simp only [waiters, Finset.mem_erase, Finset.mem_insert, old]
    tauto
  · intro j member
    simp only [Finset.mem_insert, not_or] at member
    have other : j ≠ i := by
      rintro rfl
      exact member.2 inside
    simp only [Function.update_of_ne other]
    exact resting.parked j member.2
  · intro j member
    by_cases same : j = i
    · subst same
      simp
    · simp only [Function.update_of_ne same]
      rcases Finset.mem_insert.mp member with woken | before
      · rw [woken]
        exact .inr (resting.parked w outside)
      · exact resting.rest j before

/-- A producer that finds the queue empty adds and wakes any waiter. -/
theorem Resting.add (positive : 1 ≤ maxCount) (resting : Resting role process out .ok)
    (reached : Reaches role maxCount process) {i w : ι} (inside : i ∈ out) (outside : w ∉ out)
    (produces : role i = .producer) :
    ∃ after, Reaches role maxCount after ∧ Resting role after (insert w out) .nok := by
  have tests := resting.toTest reached inside
  have passes : ¬({ process.shared with mutex := some i } : Shared ι).blocked (role i).call := by
    rw [tests.blocked_iff positive i, produces]
    simp [resting.flag, Role.waitsOn]
  have entered := tests.more .go (by simp only [step]; exact if_neg passes) trivial
  rw [produces] at entered
  let p : Ptr := process.shared.heap.bound + 1
  have unused : process.shared.heap.Unused p := by
    have dead := process.shared.heap.below p (Nat.le_succ _)
    exact ⟨Nat.succ_ne_zero _, by simp [Heap.number, dead]⟩
  have placed := entered.more (.malloc p)
    (by simp only [Role.call, Call.enter, step, mallocNode]; rw [if_pos unused]; rfl) trivial
  obtain ⟨owner, sound, -⟩ := reached.sound
  obtain ⟨-, empty⟩ := (sound.phase.flag_iff.1).mp resting.flag
  have adding : addNode { process.shared with
      mutex := some i, heap := process.shared.heap.alloc p ⟨0, null⟩ } p 0 =
      ({ process.shared with
        mutex := some i
        heap := process.shared.heap.alloc p ⟨0, null⟩
        queue := { process.shared.queue with
          first := p, last := p, count := process.shared.queue.count + 1
          addCount := process.shared.queue.addCount + 1 }
        sharedData := .nok
        log := process.shared.log ++ [.add 0] }, .signal none) := by
    simp [addNode, Queue.append, empty]
  have linked := placed.more .go (congrArg some adding) trivial
  have member : w ∈ process.shared.waiters := (resting.waiters w).mpr outside
  have signalled := linked.more (.signal (some w))
    (by simp only [step, condSignal]; rw [if_pos member]; rfl) trivial
  have unlocked := signalled.more .go rfl trivial
  exact ⟨_, unlocked, resting.acted inside outside rfl rfl rfl⟩

/-- A consumer that finds a node takes it and wakes any waiter. -/
theorem Resting.get (positive : 1 ≤ maxCount) (resting : Resting role process out .nok)
    (reached : Reaches role maxCount process) {i w : ι} (inside : i ∈ out) (outside : w ∉ out)
    (consumes : role i = .consumer) :
    ∃ after, Reaches role maxCount after ∧ Resting role after (insert w out) .ok := by
  have tests := resting.toTest reached inside
  have passes : ¬({ process.shared with mutex := some i } : Shared ι).blocked (role i).call := by
    rw [tests.blocked_iff positive i, consumes]
    simp [resting.flag, Role.waitsOn]
  have entered := tests.more .go (by simp only [step]; exact if_neg passes) trivial
  rw [consumes] at entered
  obtain ⟨owner, sound, -⟩ := reached.sound
  obtain ⟨-, -, -, -, node, alive, -⟩ := (sound.phase.flag_iff.2).mp resting.flag
  have taking : getNode { process.shared with mutex := some i } =
      ({ process.shared with
        mutex := some i
        queue := { process.shared.queue with
          first := node.next, count := process.shared.queue.count - 1
          getCount := process.shared.queue.getCount + 1 }
        sharedData := .ok
        log := process.shared.log ++ [.get node.val] },
        .signal (some process.shared.queue.first)) := by
    simp [getNode, Queue.take, alive]
  have taken := entered.more .go (congrArg some taking) trivial
  have member : w ∈ process.shared.waiters := (resting.waiters w).mpr outside
  have signalled := taken.more (.signal (some w))
    (by simp only [step, condSignal]; rw [if_pos member]; rfl) trivial
  have unlocked := signalled.more .go rfl trivial
  have freed := unlocked.more .go
    (by simp only [leave, step, freeNode, alive]; rfl) trivial
  exact ⟨_, freed, resting.acted inside outside rfl rfl rfl⟩

variable [Fintype ι]

/-- Everybody waits for a node but the producers, one of which then adds a node and wakes a
consumer while the other producers go to wait. -/
theorem reaches_one_awake (positive : 1 ≤ maxCount) {p c : ι} (produces : role p = .producer)
    (consumes : role c = .consumer) :
    ∃ process, Reaches role maxCount process ∧ Resting role process {c} .nok := by
  obtain ⟨first, reached, resting⟩ := (resting_start role maxCount).parkAll positive
    (reaches_start role maxCount) (Finset.univ.filter fun i => role i = .consumer) (by simp)
    (by
      intro i member
      rw [(Finset.mem_filter.mp member).2]
      rfl)
  obtain ⟨second, reached, resting⟩ := resting.add positive reached (i := p) (w := c)
    (by simp [produces]) (by simp [consumes]) produces
  obtain ⟨third, reached, resting⟩ := resting.parkAll positive reached
    (Finset.univ.filter fun i => role i = .producer)
    (by
      intro i member
      simp only [Finset.mem_filter, Finset.mem_univ, true_and] at member
      simp [member])
    (by
      intro i member
      rw [(Finset.mem_filter.mp member).2]
      rfl)
  refine ⟨third, reached, ?_⟩
  have only : insert c (Finset.univ \ Finset.univ.filter fun i => role i = .consumer) \
      (Finset.univ.filter fun i => role i = .producer) = {c} := by
    ext i
    cases kind : role i with
    | producer =>
      have other : i ≠ c := by
        rintro rfl
        simp [consumes] at kind
      simp [kind, other]
    | consumer => simp [kind]
  rw [only] at resting
  exact resting

/-- Two consumers: the one that is awake takes the node and wakes the other, and both go back to
wait for the next one. -/
theorem reaches_deadlock_consumers (positive : 1 ≤ maxCount) {p c d : ι}
    (produces : role p = .producer) (consumes : role c = .consumer)
    (consumes' : role d = .consumer) (apart : d ≠ c) :
    ∃ process, Reaches role maxCount process ∧ process.Deadlocked := by
  obtain ⟨first, reached, resting⟩ := reaches_one_awake positive produces consumes
  obtain ⟨second, reached, resting⟩ := resting.get positive reached (i := c) (w := d) (by simp)
    (by simpa using apart) consumes
  obtain ⟨third, reached, resting⟩ := resting.parkAll positive reached {d, c} (by simp)
    (by
      intro i member
      have kind : role i = .consumer := by
        rcases Finset.mem_insert.mp member with rfl | last
        · exact consumes'
        · rw [Finset.mem_singleton.mp last]
          exact consumes
      rw [kind]
      rfl)
  rw [Finset.sdiff_self] at resting
  exact ⟨third, reached, resting.deadlocked⟩

/-- Two producers: the consumer takes the node and wakes one of them, which adds the next node and
wakes the other, and all three go back to wait. -/
theorem reaches_deadlock_producers (positive : 1 ≤ maxCount) {p q c : ι}
    (produces : role p = .producer) (produces' : role q = .producer) (apart : q ≠ p)
    (consumes : role c = .consumer) :
    ∃ process, Reaches role maxCount process ∧ process.Deadlocked := by
  have other : p ≠ c := by
    rintro rfl
    simp [consumes] at produces
  obtain ⟨first, reached, resting⟩ := reaches_one_awake positive produces consumes
  obtain ⟨second, reached, resting⟩ := resting.get positive reached (i := c) (w := p) (by simp)
    (by simpa using other) consumes
  obtain ⟨third, reached, resting⟩ := resting.park positive reached (i := c) (by simp)
    (by rw [consumes]; rfl)
  have alone : ({p, c} : Finset ι).erase c = {p} := by
    rw [Finset.pair_comm, Finset.erase_insert (by simpa using other.symm)]
  rw [alone] at resting
  obtain ⟨fourth, reached, resting⟩ := resting.add positive reached (i := p) (w := q) (by simp)
    (by simpa using apart) produces
  obtain ⟨fifth, reached, resting⟩ := resting.parkAll positive reached {q, p} (by simp)
    (by
      intro i member
      have kind : role i = .producer := by
        rcases Finset.mem_insert.mp member with rfl | last
        · exact produces'
        · rw [Finset.mem_singleton.mp last]
          exact produces
      rw [kind]
      rfl)
  rw [Finset.sdiff_self] at resting
  exact ⟨fifth, reached, resting.deadlocked⟩

end Crowded

section Main

variable [Fintype ι] {role : ι → Role} {maxCount : Int}

/-- For every positive capacity and any producers and consumers, of each at least one: no state of
any run has every thread in the wait set exactly when there is one producer and one consumer. -/
theorem deadlock_free_iff (positive : 1 ≤ maxCount) (produce : 1 ≤ producers role)
    (consume : 1 ≤ consumers role) :
    (∀ process, Reaches role maxCount process → ¬process.Deadlocked) ↔
      producers role = 1 ∧ consumers role = 1 := by
  obtain ⟨p, member⟩ := Finset.card_pos.mp produce
  have produces : role p = .producer := (Finset.mem_filter.mp member).2
  obtain ⟨c, member⟩ := Finset.card_pos.mp consume
  have consumes : role c = .consumer := (Finset.mem_filter.mp member).2
  constructor
  · intro free
    constructor
    · by_contra several
      have two : 1 < (Finset.univ.filter fun i => role i = .producer).card := by
        unfold producers at produce several
        omega
      obtain ⟨p, first, q, second, apart⟩ := Finset.one_lt_card.mp two
      obtain ⟨process, reached, stuck⟩ := reaches_deadlock_producers positive
        (Finset.mem_filter.mp first).2 (Finset.mem_filter.mp second).2 apart.symm consumes
      exact free process reached stuck
    · by_contra several
      have two : 1 < (Finset.univ.filter fun i => role i = .consumer).card := by
        unfold consumers at consume several
        omega
      obtain ⟨c, first, d, second, apart⟩ := Finset.one_lt_card.mp two
      obtain ⟨process, reached, stuck⟩ := reaches_deadlock_consumers positive produces
        (Finset.mem_filter.mp first).2 (Finset.mem_filter.mp second).2 apart.symm
      exact free process reached stuck
  · rintro ⟨one, single⟩ process reached
    have card := producers_add_consumers role
    have two : ∀ i j k : ι, i = j ∨ i = k ∨ j = k := by
      intro i j k
      by_contra distinct
      simp only [not_or] at distinct
      have three : 2 < (Finset.univ : Finset ι).card :=
        Finset.two_lt_card.mpr ⟨i, by simp, j, by simp, k, by simp, distinct⟩
      rw [Finset.card_univ] at three
      omega
    exact reached.not_deadlocked positive two produces consumes

/-- One producer and one consumer on a queue of capacity one never both wait. -/
theorem deadlock_free_pair :
    (producers (fun i : Fin 2 => if i = 0 then Role.producer else .consumer) = 1 ∧
      consumers (fun i : Fin 2 => if i = 0 then Role.producer else .consumer) = 1) ∧
    ∀ process, Reaches (fun i : Fin 2 => if i = 0 then Role.producer else .consumer) 1 process →
      ¬process.Deadlocked :=
  ⟨by decide, (deadlock_free_iff (by decide) (by decide) (by decide)).mpr (by decide)⟩

end Main

/-- A run of two producers and a consumer on a queue of capacity one: the consumer waits, producer
0 adds and wakes it, both producers wait, the consumer takes the node, wakes producer 0 and waits,
and producer 0 adds again, wakes producer 1 instead of the consumer and waits. -/
def producersWake : List (Fin 3 × Event (Fin 3)) :=
  [(2, .call .get), (2, .go), (2, .go),
    (0, .call (.add 0)), (0, .go), (0, .go), (0, .malloc 1), (0, .go), (0, .signal (some 2)),
    (0, .go), (0, .call (.add 1)), (0, .go), (0, .go), (1, .call (.add 0)), (1, .go), (1, .go),
    (2, .go), (2, .go), (2, .go), (2, .signal (some 0)), (2, .go), (2, .go),
    (2, .call .get), (2, .go), (2, .go),
    (0, .go), (0, .go), (0, .malloc 1), (0, .go), (0, .signal (some 1)), (0, .go),
    (0, .call (.add 2)), (0, .go), (0, .go), (1, .go), (1, .go)]

/-- Two producers and one consumer all wait at the end of that run. -/
theorem deadlock_two_producers :
    ∃ process, Reaches (fun i : Fin 3 => if i = 2 then Role.consumer else .producer) 1 process ∧
      process.Deadlocked := by
  have outcome : (exec next (.start 1) producersWake).map
      (fun process => process.shared.waiters) = some {0, 1, 2} := by
    decide +kernel
  obtain ⟨process, run, waiting⟩ := Option.map_eq_some_iff.mp outcome
  refine ⟨process, ⟨producersWake, ?_, run⟩, ?_⟩
  · decide
  · intro i
    rw [waiting]
    revert i
    decide

end NsuOs.Queues.CondVar
