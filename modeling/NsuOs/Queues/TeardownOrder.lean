import NsuOs.Queues.Teardown

/-!
# When the teardown of the queue programs comes last

The workers loop for ever, so `main` never gets past the joins and the teardown at its end is
never reached. The teardown after a failed `pthread_create` runs beside the threads created so
far: the writer, when it was the reader that could not be created, and the monitor, which is
stopped only after the lock is destroyed and uses the lock in the semaphore program. What matters
to the order is a view of the process: the place of each thread and what has been destroyed.
-/
namespace NsuOs.Queues.Teardown

open NsuOs.Run

/-- What the order of the teardown depends on. -/
structure View where
  /-- Where `main` is. -/
  main : MainPc
  /-- The lock was destroyed. -/
  destroyed : Bool
  /-- The nodes of the queue were freed. -/
  nodesFreed : Bool
  /-- The monitor of the queue. -/
  monitor : Thread MonitorPc
  /-- The writer. -/
  writer : Thread AddPc
  /-- The reader. -/
  reader : Thread GetPc

/-- The view of a process. -/
def Process.view (process : Process) : View where
  main := process.main
  destroyed := decide (process.lock = .destroyed)
  nodesFreed := process.nodesFreed
  monitor := process.monitor
  writer := process.writer
  reader := process.reader

section View

variable {process after : Process}

/-- Nothing changes for the teardown when a lock is given back. -/
@[simp] theorem view_release : process.release.view = process.view := by
  unfold Process.release
  cases held : process.lock <;> simp [Process.view, held]

/-- Nothing changes for the teardown when a lock is taken. -/
theorem view_acquire (taken : process.acquire = some after) : after.view = process.view := by
  unfold Process.acquire at taken
  cases held : process.lock with
  | free =>
    rw [held] at taken
    obtain rfl := Option.some.inj taken
    simp [Process.view, held]
  | held =>
    rw [held] at taken
    cases taken
  | destroyed =>
    rw [held] at taken
    obtain rfl := Option.some.inj taken
    rfl

/-- Nothing changes for the teardown when a thread goes to sleep. -/
@[simp] theorem view_park (me : Worker) : (process.park me).view = process.view :=
  view_release

/-- Nothing changes for the teardown when a thread is woken. -/
theorem view_condSignal {waiter : Option Worker} (taken : process.condSignal waiter = some after) :
    after.view = process.view := by
  cases waiter with
  | none =>
    simp only [Process.condSignal] at taken
    split at taken
    · obtain rfl := Option.some.inj taken
      rfl
    · cases taken
  | some waiter =>
    simp only [Process.condSignal] at taken
    split at taken
    · obtain rfl := Option.some.inj taken
      rfl
    · cases taken

/-- Nothing changes for the teardown when a thread frees a node of its own. -/
@[simp] theorem view_freeNode (p : Ptr) : (process.freeNode p).view = process.view := by
  unfold Process.freeNode
  cases process.heap.get p <;> rfl

/-- The writer moves. -/
@[simp] theorem view_writerAt (pc : AddPc) :
    (process.writerAt pc).view = { process.view with writer := .running pc } := rfl

/-- The reader moves. -/
@[simp] theorem view_readerAt (pc : GetPc) :
    (process.readerAt pc).view = { process.view with reader := .running pc } := rfl

/-- The monitor moves. -/
@[simp] theorem view_monitorAt (pc : MonitorPc) :
    (process.monitorAt pc).view = { process.view with monitor := .running pc } := rfl

/-- The writer is at some place and everything else is as it was. -/
def WriterMoved (process after : Process) : Prop :=
  ∃ pc, after.view = { process.view with writer := .running pc }

/-- The reader is at some place and everything else is as it was. -/
def ReaderMoved (process after : Process) : Prop :=
  ∃ pc, after.view = { process.view with reader := .running pc }

/-- A writer that is killed has not moved. -/
theorem WriterMoved.stay {pc : AddPc} (here : process.writer = .running pc)
    (same : after.view = process.view) : WriterMoved process after :=
  ⟨pc, by rw [same, ← here]; rfl⟩

/-- A reader that is killed has not moved. -/
theorem ReaderMoved.stay {pc : GetPc} (here : process.reader = .running pc)
    (same : after.view = process.view) : ReaderMoved process after :=
  ⟨pc, by rw [same, ← here]; rfl⟩

/-- The writer takes the lock and goes on. -/
theorem WriterMoved.acquire {pc : AddPc}
    (taken : (process.acquire.map fun after => after.writerAt pc) = some after) :
    WriterMoved process after := by
  obtain ⟨middle, got, rfl⟩ := Option.map_eq_some_iff.mp taken
  exact ⟨pc, by rw [view_writerAt, view_acquire got]⟩

/-- The reader takes the lock and goes on. -/
theorem ReaderMoved.acquire {pc : GetPc}
    (taken : (process.acquire.map fun after => after.readerAt pc) = some after) :
    ReaderMoved process after := by
  obtain ⟨middle, got, rfl⟩ := Option.map_eq_some_iff.mp taken
  exact ⟨pc, by rw [view_readerAt, view_acquire got]⟩

/-- The tests of `queue_add` move the writer. -/
theorem addTest_moved {program : Program} (here : process.writer = .running .test) :
    WriterMoved process (addTest program process) := by
  cases program with
  | condvar =>
    simp only [addTest]
    split
    · exact ⟨_, rfl⟩
    · exact ⟨_, rfl⟩
  | mutex | semaphore | spinLock =>
    simp only [addTest]
    split
    · exact .stay here rfl
    · split
      · exact ⟨_, rfl⟩
      · exact ⟨_, rfl⟩

/-- The linking of a node moves the writer. -/
theorem addLink_moved {program : Program} (here : process.writer = .running .link) :
    WriterMoved process (addLink program process) := by
  unfold addLink
  split
  · exact .stay here rfl
  · split
    · exact ⟨_, rfl⟩
    · exact ⟨_, rfl⟩

/-- The unlock of `queue_add` moves the writer. -/
theorem addUnlock_moved (program : Program) (ok : Bool) :
    WriterMoved process (addUnlock program process ok) := by
  unfold addUnlock
  split
  · have same : process.release.view = process.view := view_release
    refine ⟨program.addEntry, ?_⟩
    rw [← same]
    rfl
  · split
    · exact ⟨_, by rw [view_writerAt, view_release]⟩
    · exact ⟨_, by rw [view_writerAt, view_release]⟩

/-- A step of the writer moves the writer: it never returns. -/
theorem writerStep_moved {program : Program} {pc : AddPc} {event : Event}
    (here : process.writer = .running pc)
    (taken : writerStep program process pc event = some after) : WriterMoved process after := by
  cases pc with
  | malloc =>
    cases event with
    | malloc p =>
      cases p with
      | none =>
        obtain rfl := Option.some.inj taken
        exact .stay here rfl
      | some p =>
        simp only [writerStep] at taken
        split at taken
        · obtain rfl := Option.some.inj taken
          exact ⟨_, rfl⟩
        · cases taken
    | go | result | signal | spurious => cases taken
  | lock =>
    cases event with
    | go => exact .acquire taken
    | malloc | result | signal | spurious => cases taken
  | test =>
    cases event with
    | go =>
      obtain rfl := Option.some.inj taken
      exact addTest_moved here
    | malloc | result | signal | spurious => cases taken
  | wait =>
    cases event with
    | go =>
      obtain rfl := Option.some.inj taken
      exact ⟨_, by rw [view_writerAt, view_park]⟩
    | malloc | result | signal | spurious => cases taken
  | asleep =>
    cases event with
    | go =>
      simp only [writerStep] at taken
      split at taken
      · cases taken
      · exact .acquire taken
    | spurious =>
      obtain rfl := Option.some.inj taken
      exact .stay here rfl
    | malloc | result | signal => cases taken
  | link =>
    cases event with
    | go =>
      obtain rfl := Option.some.inj taken
      exact addLink_moved here
    | malloc | result | signal | spurious => cases taken
  | signal =>
    cases event with
    | signal waiter =>
      obtain ⟨middle, got, rfl⟩ := Option.map_eq_some_iff.mp taken
      exact ⟨_, by rw [view_writerAt, view_condSignal got]⟩
    | go | malloc | result | spurious => cases taken
  | unlock ok =>
    cases event with
    | go =>
      obtain rfl := Option.some.inj taken
      exact addUnlock_moved program ok
    | malloc | result | signal | spurious => cases taken
  | free =>
    cases event with
    | go =>
      simp only [writerStep] at taken
      split at taken
      · obtain rfl := Option.some.inj taken
        exact ⟨_, by rw [view_writerAt, view_freeNode]⟩
      · obtain rfl := Option.some.inj taken
        exact ⟨_, by rw [view_writerAt, view_freeNode]⟩
    | malloc | result | signal | spurious => cases taken

/-- The tests of `queue_get` move the reader. -/
theorem getTest_moved {program : Program} (here : process.reader = .running .test) :
    ReaderMoved process (getTest program process) := by
  cases program with
  | condvar =>
    simp only [getTest]
    split
    · exact ⟨_, rfl⟩
    · exact ⟨_, rfl⟩
  | mutex | semaphore | spinLock =>
    simp only [getTest]
    split
    · exact .stay here rfl
    · split
      · exact ⟨_, rfl⟩
      · exact ⟨_, rfl⟩

/-- The unlinking of a node moves the reader. -/
theorem getTake_moved {program : Program} (here : process.reader = .running .take) :
    ReaderMoved process (getTake program process) := by
  unfold getTake
  split
  · exact .stay here rfl
  · split
    · exact ⟨_, rfl⟩
    · exact ⟨_, rfl⟩

/-- The unlock of `queue_get` moves the reader. -/
theorem getUnlock_moved (program : Program) (ok : Bool) :
    ReaderMoved process (getUnlock program process ok) := by
  have moved : ∀ pc, ReaderMoved process (process.release.readerAt pc) := by
    intro pc
    exact ⟨pc, by rw [view_readerAt, view_release]⟩
  unfold getUnlock
  split
  · split
    · exact moved .free
    · exact moved .read
  · exact moved .lock

/-- The read of the node moves the reader. -/
theorem getRead_moved (here : process.reader = .running .read) :
    ReaderMoved process (getRead process) := by
  unfold getRead
  split
  · exact .stay here rfl
  · exact ⟨_, rfl⟩

/-- A step of the reader moves the reader: it never returns. -/
theorem readerStep_moved {program : Program} {pc : GetPc} {event : Event}
    (here : process.reader = .running pc)
    (taken : readerStep program process pc event = some after) : ReaderMoved process after := by
  cases pc with
  | lock =>
    cases event with
    | go => exact .acquire taken
    | malloc | result | signal | spurious => cases taken
  | test =>
    cases event with
    | go =>
      obtain rfl := Option.some.inj taken
      exact getTest_moved here
    | malloc | result | signal | spurious => cases taken
  | wait =>
    cases event with
    | go =>
      obtain rfl := Option.some.inj taken
      exact ⟨_, by rw [view_readerAt, view_park]⟩
    | malloc | result | signal | spurious => cases taken
  | asleep =>
    cases event with
    | go =>
      simp only [readerStep] at taken
      split at taken
      · cases taken
      · exact .acquire taken
    | spurious =>
      obtain rfl := Option.some.inj taken
      exact .stay here rfl
    | malloc | result | signal => cases taken
  | take =>
    cases event with
    | go =>
      obtain rfl := Option.some.inj taken
      exact getTake_moved here
    | malloc | result | signal | spurious => cases taken
  | signal =>
    cases event with
    | signal waiter =>
      obtain ⟨middle, got, rfl⟩ := Option.map_eq_some_iff.mp taken
      exact ⟨_, by rw [view_readerAt, view_condSignal got]⟩
    | go | malloc | result | spurious => cases taken
  | unlock ok =>
    cases event with
    | go =>
      obtain rfl := Option.some.inj taken
      exact getUnlock_moved program ok
    | malloc | result | signal | spurious => cases taken
  | read =>
    cases event with
    | go =>
      obtain rfl := Option.some.inj taken
      exact getRead_moved here
    | malloc | result | signal | spurious => cases taken
  | free =>
    cases event with
    | go =>
      obtain rfl := Option.some.inj taken
      exact ⟨_, by rw [view_readerAt, view_freeNode]⟩
    | malloc | result | signal | spurious => cases taken

/-- A step of the monitor moves the monitor, to a place that uses the lock only in the semaphore
program. -/
theorem monitorStep_moved {program : Program} {pc : MonitorPc}
    (taken : monitorStep program process pc = some after) :
    ∃ monitor, after.view = { process.view with monitor := monitor } ∧
      (program ≠ .semaphore → monitor.is MonitorPc.usesLock = false) := by
  cases pc with
  | test =>
    simp only [monitorStep] at taken
    split at taken
    · obtain rfl := Option.some.inj taken
      exact ⟨.returned, rfl, fun _ => rfl⟩
    · split at taken
      · obtain rfl := Option.some.inj taken
        exact ⟨_, view_monitorAt .lock, fun other => absurd ‹_› other⟩
      · obtain rfl := Option.some.inj taken
        exact ⟨_, view_monitorAt .print, fun _ => rfl⟩
  | lock =>
    obtain ⟨middle, got, rfl⟩ := Option.map_eq_some_iff.mp taken
    exact ⟨_, by rw [view_monitorAt, view_acquire got], fun _ => rfl⟩
  | print =>
    simp only [monitorStep] at taken
    split at taken
    · obtain rfl := Option.some.inj taken
      exact ⟨_, view_monitorAt .unlock, fun other => absurd ‹_› other⟩
    · obtain rfl := Option.some.inj taken
      exact ⟨_, view_monitorAt .sleep, fun _ => rfl⟩
  | unlock =>
    obtain rfl := Option.some.inj taken
    exact ⟨_, by rw [view_monitorAt, view_release], fun _ => rfl⟩
  | sleep =>
    obtain rfl := Option.some.inj taken
    exact ⟨_, view_monitorAt .test, fun _ => rfl⟩

end View

/-- The places of `main` from which it has not yet passed the join of the reader. -/
def MainPc.starting : MainPc → Bool
  | .queueInit | .initLock | .createWriter | .createReader | .joinReader => true
  | .joinWriter | .destroyLock _ | .stop _ | .joinMonitor _ | .freeNodes _ _ | .joinLate => false

/-- The places of `main` on the path without a writer. -/
def MainPc.lonely : MainPc → Bool
  | .queueInit | .initLock | .createWriter | .destroyLock .noWriter | .stop .noWriter
  | .joinMonitor .noWriter | .freeNodes .noWriter _ => true
  | .createReader | .joinReader | .joinWriter | .joinLate | .destroyLock .noReader
  | .destroyLock .joined | .stop .noReader | .stop .joined | .joinMonitor .noReader
  | .joinMonitor .joined | .freeNodes .noReader _ | .freeNodes .joined _ => false

/-- Nothing has been destroyed, and nothing will be while the reader runs. -/
structure View.Whole (view : View) : Prop where
  /-- `main` has not begun the teardown. -/
  main : view.main.starting = true
  /-- The lock was not destroyed. -/
  destroyed : view.destroyed = false
  /-- The nodes were not freed. -/
  nodesFreed : view.nodesFreed = false
  /-- The reader has not returned. -/
  reader : view.reader ≠ .returned

/-- There are no workers, and the monitor does not use the lock. -/
structure View.Lonely (view : View) : Prop where
  /-- `main` is where it has no workers. -/
  main : view.main.lonely = true
  /-- The monitor does not use the lock. -/
  monitor : view.monitor.is MonitorPc.usesLock = false
  /-- There is no writer. -/
  writer : view.writer = .absent
  /-- There is no reader. -/
  reader : view.reader = .absent

section Order

variable {program : Program} {creates : Creates} {process after : Process} {label : Label}

/-- A step is one of a thread, taken while the process runs. -/
theorem next_cases {motive : Prop} (taken : next program creates process label = some after)
    (main : ∀ event, label = .main event → mainStep program creates process event = some after →
      motive)
    (monitor : ∀ pc, label = .monitor → process.monitor = .running pc →
      monitorStep program process pc = some after → motive)
    (writer : ∀ event pc, label = .writer event → process.writer = .running pc →
      WriterMoved process after → motive)
    (reader : ∀ event pc, label = .reader event → process.reader = .running pc →
      ReaderMoved process after → motive) : motive := by
  unfold next at taken
  split at taken
  · cases label with
    | main event => exact main event rfl taken
    | monitor =>
      simp only at taken
      cases here : process.monitor with
      | absent | returned =>
        rw [here] at taken
        cases taken
      | running pc =>
        rw [here] at taken
        exact monitor pc rfl here taken
    | writer event =>
      simp only at taken
      cases here : process.writer with
      | absent | returned =>
        rw [here] at taken
        cases taken
      | running pc =>
        rw [here] at taken
        exact writer event pc rfl here (writerStep_moved here taken)
    | reader event =>
      simp only at taken
      cases here : process.reader with
      | absent | returned =>
        rw [here] at taken
        cases taken
      | running pc =>
        rw [here] at taken
        exact reader event pc rfl here (readerStep_moved here taken)
  · cases taken

/-- With both threads created `main` stays before the teardown. -/
theorem mainStep_whole {event : Event} (writer : creates.writer = true)
    (reader : creates.reader = true) (whole : process.view.Whole)
    (taken : mainStep program creates process event = some after) : after.view.Whole := by
  obtain ⟨main, destroyed, nodesFreed, running⟩ := whole
  have starting : process.main.starting = true := main
  have intact : process.lock ≠ .destroyed := by simpa [Process.view] using destroyed
  have stays : process.reader ≠ .returned := running
  unfold mainStep at taken
  cases here : process.main with
  | queueInit =>
    simp only [here] at taken
    cases event with
    | result err =>
      cases err with
      | false =>
        obtain rfl := Option.some.inj taken
        exact ⟨rfl, destroyed, nodesFreed, running⟩
      | true =>
        obtain rfl := Option.some.inj taken
        exact ⟨main, destroyed, nodesFreed, running⟩
    | go | malloc | signal | spurious => cases taken
  | initLock =>
    simp only [here] at taken
    cases event with
    | result err =>
      cases err with
      | false =>
        obtain rfl := Option.some.inj taken
        exact ⟨rfl, rfl, nodesFreed, running⟩
      | true =>
        obtain rfl := Option.some.inj taken
        exact ⟨rfl, destroyed, nodesFreed, running⟩
    | go | malloc | signal | spurious => cases taken
  | createWriter =>
    simp only [here] at taken
    cases event with
    | go =>
      rw [if_pos writer] at taken
      obtain rfl := Option.some.inj taken
      exact ⟨rfl, destroyed, nodesFreed, running⟩
    | result | malloc | signal | spurious => cases taken
  | createReader =>
    simp only [here] at taken
    cases event with
    | go =>
      rw [if_pos reader] at taken
      obtain rfl := Option.some.inj taken
      exact ⟨rfl, destroyed, nodesFreed, by simp [Process.view]⟩
    | result | malloc | signal | spurious => cases taken
  | joinReader =>
    simp only [here] at taken
    cases event with
    | go =>
      rw [if_neg stays] at taken
      cases taken
    | result | malloc | signal | spurious => cases taken
  | joinWriter | destroyLock | stop | joinMonitor | freeNodes | joinLate =>
    rw [here] at starting
    cases starting

/-- With both threads created every step leaves everything whole. -/
theorem next_whole (writer : creates.writer = true) (reader : creates.reader = true)
    (whole : process.view.Whole) (taken : next program creates process label = some after) :
    after.view.Whole := by
  apply next_cases taken
  · intro event _ step
    exact mainStep_whole writer reader whole step
  · intro pc _ _ step
    obtain ⟨monitor, view, -⟩ := monitorStep_moved step
    rw [view]
    exact ⟨whole.main, whole.destroyed, whole.nodesFreed, whole.reader⟩
  · rintro event pc - - ⟨later, view⟩
    rw [view]
    exact ⟨whole.main, whole.destroyed, whole.nodesFreed, whole.reader⟩
  · rintro event pc - - ⟨later, view⟩
    rw [view]
    exact ⟨whole.main, whole.destroyed, whole.nodesFreed, by simp⟩

/-- Without a writer `main` creates no reader either. -/
theorem mainStep_lonely {event : Event} (writer : creates.writer = false)
    (lonely : process.view.Lonely)
    (taken : mainStep program creates process event = some after) : after.view.Lonely := by
  obtain ⟨main, monitor, noWriter, noReader⟩ := lonely
  have alone : process.main.lonely = true := main
  have refused : ¬creates.writer = true := by simp [writer]
  unfold mainStep at taken
  cases here : process.main with
  | queueInit =>
    simp only [here] at taken
    cases event with
    | result err =>
      cases err with
      | false =>
        obtain rfl := Option.some.inj taken
        exact ⟨rfl, rfl, noWriter, noReader⟩
      | true =>
        obtain rfl := Option.some.inj taken
        exact ⟨main, monitor, noWriter, noReader⟩
    | go | malloc | signal | spurious => cases taken
  | initLock =>
    simp only [here] at taken
    cases event with
    | result err =>
      cases err with
      | false | true =>
        obtain rfl := Option.some.inj taken
        exact ⟨rfl, monitor, noWriter, noReader⟩
    | go | malloc | signal | spurious => cases taken
  | createWriter =>
    simp only [here] at taken
    cases event with
    | go =>
      rw [if_neg refused] at taken
      obtain rfl := Option.some.inj taken
      exact ⟨rfl, monitor, noWriter, noReader⟩
    | result | malloc | signal | spurious => cases taken
  | destroyLock path =>
    simp only [here] at taken alone
    cases path with
    | noWriter =>
      cases event with
      | result err =>
        cases err with
        | false | true =>
          obtain rfl := Option.some.inj taken
          exact ⟨rfl, monitor, noWriter, noReader⟩
      | go | malloc | signal | spurious => cases taken
    | noReader | joined => cases alone
  | stop path =>
    simp only [here] at taken alone
    cases path with
    | noWriter =>
      cases event with
      | go =>
        obtain rfl := Option.some.inj taken
        exact ⟨rfl, monitor, noWriter, noReader⟩
      | result | malloc | signal | spurious => cases taken
    | noReader | joined => cases alone
  | joinMonitor path =>
    simp only [here] at taken alone
    cases path with
    | noWriter =>
      cases event with
      | go =>
        simp only at taken
        split at taken
        · obtain rfl := Option.some.inj taken
          exact ⟨rfl, monitor, noWriter, noReader⟩
        · cases taken
      | result | malloc | signal | spurious => cases taken
    | noReader | joined => cases alone
  | freeNodes path cur =>
    simp only [here] at taken alone
    cases path with
    | noWriter =>
      cases event with
      | go =>
        obtain rfl := Option.some.inj taken
        unfold freeLoop
        split
        · exact ⟨main, monitor, noWriter, noReader⟩
        · split
          · exact ⟨main, monitor, noWriter, noReader⟩
          · exact ⟨rfl, monitor, noWriter, noReader⟩
      | result | malloc | signal | spurious => cases taken
    | noReader | joined => cases alone
  | createReader | joinReader | joinWriter | joinLate =>
    rw [here] at alone
    cases alone

/-- Without a writer, and with a monitor that does not lock, no step uses the lock or a node. -/
theorem next_lonely (other : program ≠ .semaphore) (writer : creates.writer = false)
    (lonely : process.view.Lonely) (taken : next program creates process label = some after) :
    after.view.Lonely := by
  apply next_cases taken
  · intro event _ step
    exact mainStep_lonely writer lonely step
  · intro pc _ _ step
    obtain ⟨monitor, view, outside⟩ := monitorStep_moved step
    rw [view]
    exact ⟨lonely.main, outside other, lonely.writer, lonely.reader⟩
  · intro event pc _ here _
    have absent : process.writer = .absent := lonely.writer
    rw [absent] at here
    cases here
  · intro event pc _ here _
    have absent : process.reader = .absent := lonely.reader
    rw [absent] at here
    cases here

/-- While nothing is destroyed no step is late. -/
theorem View.Whole.not_late (whole : process.view.Whole) (label : Label) :
    process.tooLate label = false := by
  have destroyed : decide (process.lock = .destroyed) = false := whole.destroyed
  have nodesFreed : process.nodesFreed = false := whole.nodesFreed
  simp [Process.tooLate, destroyed, nodesFreed]

/-- Without workers, and with a monitor that does not lock, no step is late. -/
theorem View.Lonely.not_late (lonely : process.view.Lonely) (label : Label) :
    process.tooLate label = false := by
  have monitor : process.monitor.is MonitorPc.usesLock = false := lonely.monitor
  have writer : process.writer = .absent := lonely.writer
  have reader : process.reader = .absent := lonely.reader
  cases label with
  | main | monitor => simp [Process.tooLate, Process.usesLock, Process.usesNodes, monitor]
  | writer => simp [Process.tooLate, Process.usesLock, Process.usesNodes, writer, Thread.is]
  | reader => simp [Process.tooLate, Process.usesLock, Process.usesNodes, reader, Thread.is]

/-- The process starts whole. -/
theorem start_whole (program : Program) : (start program).view.Whole := by
  cases program <;> exact ⟨rfl, rfl, rfl, by simp [Process.view, start]⟩

/-- The process starts without workers. -/
theorem start_lonely (program : Program) : (start program).view.Lonely :=
  ⟨rfl, rfl, rfl, rfl⟩

/-- The teardown comes last in every run of a program exactly when both threads could be created,
or the first could not and the monitor does not lock. -/
theorem teardown_last_iff (program : Program) (creates : Creates) :
    TeardownLast program creates ↔ creates.Orderly program := by
  obtain ⟨writer, reader⟩ := creates
  constructor
  · intro last
    unfold Creates.Orderly
    cases writer with
    | true =>
      cases reader with
      | true => exact rfl
      | false => exact absurd last (late_writer program)
    | false =>
      rintro rfl
      exact late_monitor reader last
  · intro orderly labels before label after reached _
    unfold Creates.Orderly at orderly
    cases writer with
    | true =>
      have whole : before.view.Whole := exec_invariant
        (fun _ _ _ held step => next_whole rfl orderly held step) (start_whole program) reached
      exact whole.not_late label
    | false =>
      have lonely : before.view.Lonely := exec_invariant
        (fun _ _ _ held step => next_lonely orderly rfl held step) (start_lonely program) reached
      exact lonely.not_late label

/-- The writer of the mutex program takes the mutex that `main` has destroyed because the reader
could not be created. -/
theorem teardown_before_writer : ¬TeardownLast .mutex ⟨true, false⟩ := by
  apply not_teardownLast
    [.main (.result false), .main (.result false), .main .go, .main .go, .main (.result false),
      .writer (.malloc (some 1))]
    (.writer .go)
  decide +kernel

end Order

end NsuOs.Queues.Teardown
