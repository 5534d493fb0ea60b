import NsuOs.Queues.Fifo

/-!
# The writer and the reader of the locked queues

`writer` adds 0, 1, 2 and so on, going to the next number when an add is accepted; `reader`
compares each value it gets with the one it expects. With one of each, the values added in the
order of the lock are the numbers from zero on, and the value the reader gets is the next of them.
-/
namespace NsuOs.Queues.Locked

open NsuOs.Run

variable {ι κ : Type*} [DecidableEq ι]

/-- What every state of every run satisfies: no bad pointer is followed, no `assert` fails, the
count is within its bounds and the difference of the two counters, the values taken are the first
of those added, and each of them is handed out at most once. -/
structure Process.Fifo (maxCount : Int) (process : Process ι κ) : Prop where
  /-- No thread has followed a bad pointer. -/
  faultless : ∀ i, (process.thread i).pc ≠ .fault
  /-- No `assert` failed. -/
  asserts : ∀ i, (process.thread i).pc ≠ .aborted
  /-- The count is not negative. -/
  positive : 0 ≤ process.shared.queue.count
  /-- It is not above its bound. -/
  bounded : process.shared.queue.count ≤ maxCount
  /-- The values taken are the first of those added. -/
  inOrder : process.shared.taken <+: process.shared.added
  /-- Each value handed out is the one taken under its number. -/
  delivered : ∀ given ∈ process.shared.delivered,
    process.shared.taken[given.1]? = some given.2
  /-- No number was handed out twice. -/
  once : (process.shared.delivered.map Prod.fst).Nodup
  /-- The count is the difference of the two counters. -/
  balance : process.shared.queue.count =
    process.shared.queue.addCount - process.shared.queue.getCount

/-- Every client of every variant sees a first-in first-out queue. -/
theorem Process.fifo_run {variant : Variant} {client : Client κ} {maxCount : Int}
    (capacity : 0 ≤ maxCount) {initial : ι → κ} {labels : List (ι × Event)} {process : Process ι κ}
    (run : exec (next variant client) (.start maxCount initial) labels = some process) :
    process.Fifo maxCount := by
  obtain ⟨ghost, sound, threads⟩ := sound_run capacity run
  have count := sound.nodes.count
  have length := congrArg List.length sound.values
  simp only [List.length_append, List.length_map] at length
  have adds := sound.adds
  have gets := sound.gets
  exact {
    faultless := fun i => (threads i).faultless
    asserts := fun i => (threads i).asserts
    positive := by omega
    bounded := sound.bound
    inOrder := ⟨_, sound.values.symm⟩
    delivered := sound.right
    once := sound.once
    balance := by omega }

/-- The threads of the program. -/
inductive Party
  | writer
  | reader
  deriving DecidableEq

/-- The variables of `writer` and `reader`; the reader also counts how often its test
`expected != val` succeeded. -/
inductive Worker
  /-- `i` of the writer. -/
  | writer (i : Int32)
  /-- `expected` of the reader, and how often another value came. -/
  | reader (expected : Int32) (errors : Nat)
  deriving DecidableEq

/-- The loops of `writer` and `reader`. -/
def workers : Client Worker where
  may
    | .writer i, .add val => val = i
    | .writer _, .get => false
    | .reader _ _, .add _ => false
    | .reader _ _, .get => true
  resume
    | .writer i, .added => .writer (i + 1)
    | .writer i, .full | .writer i, .got _ | .writer i, .empty => .writer i
    | .reader expected errors, .got val =>
      .reader (val + 1) (if expected ≠ val then errors + 1 else errors)
    | .reader expected errors, .empty | .reader expected errors, .added
    | .reader expected errors, .full => .reader expected errors

/-- Both start with zero. -/
def Party.worker : Party → Worker
  | .writer => .writer 0
  | .reader => .reader 0 0

/-- What a locked section of `queue_add` does to the records, and how it ends. -/
theorem queueAdd_cases (variant : Variant) (shared : Shared) (new : Ptr) (val : Int32) :
    (queueAdd variant shared new val).1.taken = shared.taken ∧
      ((queueAdd variant shared new val).1.added = shared.added ++ [val] ∧
          (queueAdd variant shared new val).2 = .returned .added ∨
        (queueAdd variant shared new val).1.added = shared.added ∧
          ((queueAdd variant shared new val).2 = .returned .full ∨
            (queueAdd variant shared new val).2 = .goto (.addFree new) ∨
            (queueAdd variant shared new val).2 = .goto .fault ∨
            (queueAdd variant shared new val).2 = .goto .aborted)) := by
  unfold queueAdd
  by_cases sane : shared.queue.count ≤ shared.queue.maxCount
  · by_cases full : shared.queue.count = shared.queue.maxCount
    · cases inside : variant.freesInside with
      | true =>
        cases alive : shared.heap.get new with
        | none => simp [freeNode, full, alive]
        | some node => simp [freeNode, full, alive]
      | false => simp [full]
    · simp only [sane, full, not_true_eq_false, if_false]
      split
      · simp
      · simp
  · simp [sane]

/-- What a locked section of `queue_get` does to the records, and how it ends. -/
theorem queueGet_cases (shared : Shared) :
    (queueGet shared).1.added = shared.added ∧
      ((∃ val tmp, (queueGet shared).1.taken = shared.taken ++ [val] ∧
          (queueGet shared).2 = .goto (.getRead tmp shared.taken.length)) ∨
        (queueGet shared).1.taken = shared.taken ∧
          ((queueGet shared).2 = .returned .empty ∨ (queueGet shared).2 = .goto .fault ∨
            (queueGet shared).2 = .goto .aborted)) := by
  unfold queueGet
  by_cases sane : shared.queue.count ≥ 0
  · by_cases empty : shared.queue.count = 0
    · simp [empty]
    · simp only [sane, empty, not_true_eq_false, if_false]
      split
      · simp
      · simp
  · simp [sane]

/-- The values added are the numbers from zero on. -/
def Numbered (added : List Int32) : Prop := ∀ k val, added[k]? = some val → val = Int32.ofNat k

/-- The writer is about to add the number of values added so far. -/
def Writing (shared : Shared) (mine : Locals Worker) : Prop :=
  mine.client = .writer (Int32.ofNat shared.added.length) ∧
    match mine.pc with
    | .malloc val | .addLock _ val => val = Int32.ofNat shared.added.length
    | .idle | .addFree _ | .fault | .aborted => True
    | .getLock | .getRead _ _ | .getFree _ _ _ => False

/-- The reader expects the number of the value it will get or is getting, and has seen no other. -/
def Reading (shared : Shared) (mine : Locals Worker) : Prop :=
  match mine.pc with
  | .idle | .getLock => mine.client = .reader (Int32.ofNat shared.taken.length) 0
  | .getRead _ ticket | .getFree _ _ ticket =>
    ticket + 1 = shared.taken.length ∧ mine.client = .reader (Int32.ofNat ticket) 0
  | .fault | .aborted => ∃ expected, mine.client = .reader expected 0
  | .malloc _ | .addLock _ _ | .addFree _ => False

/-- `free` leaves the records alone. -/
theorem freeNode_cases (shared : Shared) (p : Ptr) (outcome : Outcome) :
    (freeNode shared p outcome).1.added = shared.added ∧
      (freeNode shared p outcome).1.taken = shared.taken ∧
      ((freeNode shared p outcome).2 = outcome ∨
        (freeNode shared p outcome).2 = .goto .fault) := by
  unfold freeNode
  split
  · simp
  · simp

/-- The read of the detached node leaves the values added and taken alone. -/
theorem readNode_cases (shared : Shared) (tmp : Ptr) (ticket : Nat) :
    (readNode shared tmp ticket).1.added = shared.added ∧
      (readNode shared tmp ticket).1.taken = shared.taken ∧
      ((∃ val, (readNode shared tmp ticket).2 = .goto (.getFree tmp val ticket)) ∨
        (readNode shared tmp ticket).2 = .goto .fault) := by
  unfold readNode
  split
  · simp
  · simp

/-- The next number at the end keeps the values numbered. -/
theorem Numbered.snoc {added : List Int32} (numbered : Numbered added) :
    Numbered (added ++ [Int32.ofNat added.length]) := by
  intro k val here
  rcases Nat.lt_trichotomy k added.length with before | last | beyond
  · rw [List.getElem?_append_left before] at here
    exact numbered k val here
  · subst last
    simpa using here.symm
  · have nothing : (added ++ [Int32.ofNat added.length])[k]? = none := by
      simp only [List.getElem?_eq_none_iff, List.length_append, List.length_singleton]
      omega
    rw [nothing] at here
    cases here

/-- A step of the writer inside a call. -/
theorem Writing.run {variant : Variant} {shared after : Shared} {state : Worker} {pc : Pc}
    {outcome : Outcome} (writing : Writing shared ⟨state, pc⟩) (numbered : Numbered shared.added)
    (ran : pc.run variant shared = some (after, outcome)) :
    Writing after (workers.continue state outcome) ∧ Numbered after.added ∧
      after.taken = shared.taken := by
  obtain ⟨client, place⟩ := writing
  simp only at client place
  subst client
  cases pc with
  | addLock new val =>
    obtain ⟨taken, ends⟩ := queueAdd_cases variant shared new val
    simp only [Pc.run, Option.some.injEq] at ran
    rw [ran] at taken ends
    simp only at place taken ends
    rcases ends with ⟨added, rfl⟩ | ⟨added, rest⟩
    · rw [added, place]
      refine ⟨⟨?_, trivial⟩, numbered.snoc, taken⟩
      simp [Client.continue, workers, added]
    · have counts : Numbered after.added := by
        rw [added]
        exact numbered
      rcases rest with rfl | rfl | rfl | rfl
      · exact ⟨⟨by simp [Client.continue, workers, added], trivial⟩, counts, taken⟩
      · exact ⟨⟨by simp [Client.continue, added], trivial⟩, counts, taken⟩
      · exact ⟨⟨by simp [Client.continue, added], trivial⟩, counts, taken⟩
      · exact ⟨⟨by simp [Client.continue, added], trivial⟩, counts, taken⟩
  | addFree new =>
    obtain ⟨added, taken, ends⟩ := freeNode_cases shared new (.returned .full)
    simp only [Pc.run, Option.some.injEq] at ran
    rw [ran] at added taken ends
    simp only at added taken ends
    have counts : Numbered after.added := by
      rw [added]
      exact numbered
    rcases ends with rfl | rfl
    · exact ⟨⟨by simp [Client.continue, workers, added], trivial⟩, counts, taken⟩
    · exact ⟨⟨by simp [Client.continue, added], trivial⟩, counts, taken⟩
  | getLock | getRead | getFree => exact place.elim
  | idle | malloc | fault | aborted => simp [Pc.run] at ran

/-- A step of the reader inside a call; the value it has read is the one it expects. -/
theorem Reading.run {variant : Variant} {shared after : Shared} {state : Worker} {pc : Pc}
    {outcome : Outcome} (reading : Reading shared ⟨state, pc⟩)
    (expected : ∀ tmp val ticket, pc = .getFree tmp val ticket → val = Int32.ofNat ticket)
    (ran : pc.run variant shared = some (after, outcome)) :
    Reading after (workers.continue state outcome) ∧ after.added = shared.added := by
  cases pc with
  | getLock =>
    have client : state = .reader (Int32.ofNat shared.taken.length) 0 := reading
    subst client
    obtain ⟨added, ends⟩ := queueGet_cases shared
    simp only [Pc.run, Option.some.injEq] at ran
    rw [ran] at added ends
    simp only at added ends
    rcases ends with ⟨val, tmp, taken, rfl⟩ | ⟨taken, rest⟩
    · refine ⟨?_, added⟩
      simp [Reading, Client.continue, taken]
    · refine ⟨?_, added⟩
      rcases rest with rfl | rfl | rfl
      · simp [Reading, Client.continue, workers, taken]
      · exact ⟨_, rfl⟩
      · exact ⟨_, rfl⟩
  | getRead tmp ticket =>
    obtain ⟨last, client⟩ : ticket + 1 = shared.taken.length ∧
      state = .reader (Int32.ofNat ticket) 0 := reading
    subst client
    obtain ⟨added, taken, ends⟩ := readNode_cases shared tmp ticket
    simp only [Pc.run, Option.some.injEq] at ran
    rw [ran] at added taken ends
    simp only at added taken ends
    refine ⟨?_, added⟩
    rcases ends with ⟨val, rfl⟩ | rfl
    · simp [Reading, Client.continue, taken, last]
    · exact ⟨_, rfl⟩
  | getFree tmp val ticket =>
    obtain ⟨last, client⟩ : ticket + 1 = shared.taken.length ∧
      state = .reader (Int32.ofNat ticket) 0 := reading
    subst client
    have value := expected tmp val ticket rfl
    obtain ⟨added, taken, ends⟩ := freeNode_cases shared tmp (.returned (.got val))
    simp only [Pc.run, Option.some.injEq] at ran
    rw [ran] at added taken ends
    simp only at added taken ends
    refine ⟨?_, added⟩
    rcases ends with rfl | rfl
    · simp only [Reading, Client.continue, workers, value, taken, ← last, Int32.ofNat_add]
      simp
    · exact ⟨_, rfl⟩
  | addLock | addFree => exact reading.elim
  | idle | malloc | fault | aborted => simp [Pc.run] at ran

/-- The writer's and the reader's assertions together. -/
structure Process.InStep (process : Process Party Worker) : Prop where
  /-- The values added are numbered from zero. -/
  numbered : Numbered process.shared.added
  /-- What holds of the writer. -/
  writing : Writing process.shared (process.thread .writer)
  /-- What holds of the reader. -/
  reading : Reading process.shared (process.thread .reader)

/-- The writer's assertion looks at the values added only. -/
theorem Writing.congr {shared after : Shared} {mine : Locals Worker}
    (writing : Writing shared mine) (same : after.added = shared.added) : Writing after mine := by
  unfold Writing at *
  rw [same]
  exact writing

/-- The reader's assertion looks at the values taken only. -/
theorem Reading.congr {shared after : Shared} {mine : Locals Worker}
    (reading : Reading shared mine) (same : after.taken = shared.taken) : Reading after mine := by
  unfold Reading at *
  rw [same]
  exact reading

/-- A step of the writer. -/
theorem Writing.move {variant : Variant} {shared after : Shared} {mine moved : Locals Worker}
    {event : Event} (writing : Writing shared mine) (numbered : Numbered shared.added)
    (move : Moves variant workers shared mine.client mine.pc event after moved) :
    Writing after moved ∧ Numbered after.added ∧ after.taken = shared.taken := by
  obtain ⟨state, pc⟩ := mine
  cases move with
  | call call allowed =>
    have client : state = .writer (Int32.ofNat shared.added.length) := writing.1
    subst client
    cases call with
    | add val =>
      have current : val = Int32.ofNat shared.added.length := by simpa [workers] using allowed
      exact ⟨⟨rfl, current⟩, numbered, rfl⟩
    | get => simp [workers] at allowed
  | malloc val p unused => exact ⟨writing, numbered, rfl⟩
  | run pc after outcome ran => exact writing.run numbered ran

/-- A step of the reader. -/
theorem Reading.move {variant : Variant} {shared after : Shared} {mine moved : Locals Worker}
    {event : Event} (reading : Reading shared mine)
    (expected : ∀ tmp val ticket, mine.pc = .getFree tmp val ticket → val = Int32.ofNat ticket)
    (move : Moves variant workers shared mine.client mine.pc event after moved) :
    Reading after moved ∧ after.added = shared.added := by
  obtain ⟨state, pc⟩ := mine
  cases move with
  | call call allowed =>
    have client : state = .reader (Int32.ofNat shared.taken.length) 0 := reading
    subst client
    cases call with
    | add val => simp [workers] at allowed
    | get => exact ⟨rfl, rfl⟩
  | malloc val p unused => exact reading.elim
  | run pc after outcome ran => exact reading.run expected ran

/-- One step of the writer or the reader keeps both in step. -/
theorem Process.InStep.next {variant : Variant} {maxCount : Int} (capacity : 0 ≤ maxCount)
    {labels : List (Party × Event)} {process after : Process Party Worker} {label : Party × Event}
    (run : exec (Locked.next variant workers) (.start maxCount Party.worker) labels = some process)
    (inStep : process.InStep)
    (taken : Locked.next variant workers process label = some after) : after.InStep := by
  obtain ⟨party, event⟩ := label
  have own := Threads.next_eq_some.mp taken
  have move := moves_of_step own.1
  cases party with
  | writer =>
    have other : after.thread .reader = process.thread .reader := own.2 .reader (by simp)
    obtain ⟨writing, numbered, same⟩ := inStep.writing.move inStep.numbered move
    refine ⟨numbered, writing, ?_⟩
    rw [other]
    exact inStep.reading.congr same
  | reader =>
    have other : after.thread .writer = process.thread .writer := own.2 .writer (by simp)
    obtain ⟨ghost, sound, threads⟩ := sound_run capacity run
    have inOrder := (fifo_run capacity run).inOrder
    have expected : ∀ tmp val ticket, (process.thread .reader).pc = .getFree tmp val ticket →
        val = Int32.ofNat ticket := by
      intro tmp val ticket here
      have value := (threads .reader).read tmp val ticket here
      exact inStep.numbered ticket val (taken_kept inOrder value)
    obtain ⟨reading, same⟩ := inStep.reading.move expected move
    refine ⟨?_, ?_, reading⟩
    · rw [same]
      exact inStep.numbered
    · rw [other]
      exact inStep.writing.congr same

/-- In every state of every run the reader has not seen a value it did not expect. -/
theorem Process.errors_run {variant : Variant} {maxCount : Int} (capacity : 0 ≤ maxCount)
    {labels : List (Party × Event)} {process : Process Party Worker}
    (run : exec (Locked.next variant workers) (.start maxCount Party.worker) labels =
      some process) :
    ∃ expected, (process.thread .reader).client = .reader expected 0 := by
  have inStep : process.InStep := by
    refine exec_induct (motive := fun _ process => process.InStep) ?_ ?_ run
    · exact ⟨by simp [Numbered, start], ⟨rfl, trivial⟩, rfl⟩
    · intro labels middle label finish earlier held step
      exact held.next capacity earlier step
  have reading := inStep.reading
  unfold Reading at reading
  split at reading
  · exact ⟨_, reading⟩
  · exact ⟨_, reading⟩
  · exact ⟨_, reading.2⟩
  · exact ⟨_, reading.2⟩
  · exact reading
  · exact reading
  all_goals exact reading.elim

/-- For each variant, every positive capacity, any number of threads and any client: every state of
every run is that of a bounded first-in first-out queue; and with the one writer and the one reader
of the programs the reader's test `expected != val` has never succeeded. -/
theorem locked_fifo (variant : Variant) {client : Client κ} {maxCount : Int}
    (capacity : 1 ≤ maxCount) {initial : ι → κ} {labels : List (ι × Event)} {process : Process ι κ}
    (run : exec (next variant client) (.start maxCount initial) labels = some process) :
    process.Fifo maxCount ∧
      ∀ (labels : List (Party × Event)) (process : Process Party Worker),
        exec (next variant workers) (.start maxCount Party.worker) labels = some process →
          ∃ expected, (process.thread .reader).client = .reader expected 0 := by
  have nonnegative : 0 ≤ maxCount := by omega
  exact ⟨Process.fifo_run nonnegative run, fun _ _ => Process.errors_run nonnegative⟩

/-- The writer adds 0, the reader takes it and, before it is read and freed, the writer adds 1. -/
def overlap : List (Party × Event) :=
  [(.writer, .call (.add 0)), (.writer, .malloc 8), (.writer, .go), (.reader, .call .get),
    (.reader, .go), (.writer, .call (.add 1)), (.writer, .malloc 9), (.writer, .go),
    (.reader, .go), (.reader, .go)]

/-- The overlapping run hands out the first of the two values added. -/
theorem locked_fifo_overlap :
    ∃ process, exec (next .mutex workers) (.start 2 Party.worker) overlap = some process ∧
      process.shared.added = [0, 1] ∧ process.shared.delivered = [(0, 0)] ∧
      process.Fifo 2 := by
  have outcome : (exec (next .mutex workers) (.start 2 Party.worker) overlap).map
      (fun process => (process.shared.added, process.shared.delivered)) =
        some ([0, 1], [(0, 0)]) := by
    decide +kernel
  obtain ⟨process, run, facts⟩ := Option.map_eq_some_iff.mp outcome
  obtain ⟨added, delivered⟩ := Prod.mk.inj facts
  exact ⟨process, run, added, delivered, (locked_fifo .mutex (by decide) run).1⟩

end NsuOs.Queues.Locked
