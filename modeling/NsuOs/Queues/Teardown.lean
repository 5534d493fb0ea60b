import NsuOs.Queues.CondVar

/-!
# The mains of the queue programs and their teardown

`main` starts the monitor, the writer and the reader, waits for the last two and then destroys
the lock, stops and joins the monitor and frees the nodes; where a `pthread_create` fails it tears
down at once. The four threads of `queue-thread-condvar.c`, `queue-threads-mutex.c`,
`queue-thread-semafor.c` and `queue-threads-spin-lock.c` take their steps in any order, one
statement on the lock or on the nodes at a time. Whether the two `pthread_create` calls succeed is
an input. A lock that was destroyed stops nobody: what it does then is undefined, and the steps
that use it are the ones to exclude.
-/
namespace NsuOs.Queues.Teardown

open NsuOs.Run
open NsuOs.Queues.CondVar (EventData)

/-- The four programs. -/
inductive Program
  | condvar
  | mutex
  | semaphore
  | spinLock
  deriving DecidableEq

/-- The argument of `queue_init` in each `main`. -/
def Program.maxCount : Program → Int
  | .condvar => 1000
  | .mutex => 100000
  | .semaphore => 1000000
  | .spinLock => 100000

/-- The mutex, the semaphore or the spin lock. -/
inductive Lock
  /-- Nobody has it. -/
  | free
  /-- A thread has it. -/
  | held
  /-- It was destroyed. -/
  | destroyed
  deriving DecidableEq

/-- The lock before it is initialised: all its bytes are zero, which is an unlocked mutex, a
semaphore of value zero and a locked spin lock. -/
def Program.zeroLock : Program → Lock
  | .condvar => .free
  | .mutex => .free
  | .semaphore => .held
  | .spinLock => .held

/-- The threads that call the queue. -/
inductive Worker
  | writer
  | reader
  deriving DecidableEq

/-- Which `free_resources` of `main` is running. -/
inductive Path
  /-- After the first `pthread_create` failed. -/
  | noWriter
  /-- After the second one failed. -/
  | noReader
  /-- After both threads were joined. -/
  | joined
  deriving DecidableEq

/-- Where `main` is. -/
inductive MainPc
  /-- At the `pthread_create` of `queue_init`. -/
  | queueInit
  /-- At `init_mutex`, `init_sem` or `init_spin_lock`. -/
  | initLock
  /-- At the first `pthread_create`. -/
  | createWriter
  /-- At the second `pthread_create`. -/
  | createReader
  /-- At `join_thread(tid_reader)`. -/
  | joinReader
  /-- At `join_thread(tid_writer)` of the regular path. -/
  | joinWriter
  /-- At `destroy_mutex`, `destroy_sem` or `destroy_spin_lock`. -/
  | destroyLock (path : Path)
  /-- At `stop_flag = true`. -/
  | stop (path : Path)
  /-- At the `pthread_join` of `queue_destroy`. -/
  | joinMonitor (path : Path)
  /-- At the loop of `queue_destroy`. -/
  | freeNodes (path : Path) (cur : Ptr)
  /-- At `join_thread(tid_writer)` behind `free_resources`. -/
  | joinLate
  deriving DecidableEq

/-- Where the monitor is. -/
inductive MonitorPc
  /-- At the condition of its loop. -/
  | test
  /-- At the `sem_wait` of `queue_print_stats`. -/
  | lock
  /-- At the `printf`. -/
  | print
  /-- At the `sem_post` of `queue_print_stats`. -/
  | unlock
  /-- At `sleep`. -/
  | sleep
  deriving DecidableEq

/-- Where the writer is in `queue_add`. -/
inductive AddPc
  /-- At `malloc` and the stores into the new node. -/
  | malloc
  /-- At the lock. -/
  | lock
  /-- At the tests of the count. -/
  | test
  /-- At `pthread_cond_wait`. -/
  | wait
  /-- Inside `pthread_cond_wait`. -/
  | asleep
  /-- At the statements that link the new node. -/
  | link
  /-- At `pthread_cond_signal`. -/
  | signal
  /-- At the unlock, with the value that is returned. -/
  | unlock (ok : Bool)
  /-- At the `free` of a refused node. -/
  | free
  deriving DecidableEq

/-- Where the reader is in `queue_get`. -/
inductive GetPc
  /-- At the lock. -/
  | lock
  /-- At the tests of the count. -/
  | test
  /-- At `pthread_cond_wait`. -/
  | wait
  /-- Inside `pthread_cond_wait`. -/
  | asleep
  /-- At the statements that unlink the first node. -/
  | take
  /-- At `pthread_cond_signal`. -/
  | signal
  /-- At the unlock, with the value that is returned. -/
  | unlock (ok : Bool)
  /-- At `*val = tmp->val` outside the lock. -/
  | read
  /-- At `free(tmp)`. -/
  | free
  deriving DecidableEq

/-- A thread: not created, running, or returned from its start routine. -/
inductive Thread (π : Type)
  /-- It was not created. -/
  | absent
  /-- It is at a place. -/
  | running (pc : π)
  /-- Its start routine returned. -/
  | returned
  deriving DecidableEq

/-- The process runs, or has exited or was killed by `abort` or by a bad pointer. -/
inductive Status
  /-- It runs. -/
  | running
  /-- It has exited. -/
  | exited
  /-- It was killed. -/
  | killed
  deriving DecidableEq

/-- The memory of the process, its threads and the locals `i`, `new` and `tmp`. -/
structure Process where
  /-- Whether the process runs, and how it ended. -/
  status : Status
  /-- The lock of the queue. -/
  lock : Lock
  /-- The workers waiting on `cond`. -/
  waiters : Finset Worker
  /-- The flag that tells whose turn it is. -/
  sharedData : EventData
  /-- The flag that ends the threads. -/
  stopFlag : Bool
  /-- The queue. -/
  queue : Queue
  /-- The heap of its nodes. -/
  heap : Heap Node
  /-- The nodes of the queue were freed. -/
  nodesFreed : Bool
  /-- Where `main` is. -/
  main : MainPc
  /-- The monitor of the queue. -/
  monitor : Thread MonitorPc
  /-- The writer. -/
  writer : Thread AddPc
  /-- The reader. -/
  reader : Thread GetPc
  /-- The value the writer adds next. -/
  i : Int32
  /-- The node of `queue_add`. -/
  new : Ptr
  /-- The node of `queue_get`. -/
  tmp : Ptr

/-- The process at the `pthread_create` of `queue_init`. -/
def start (program : Program) : Process where
  status := .running
  lock := program.zeroLock
  waiters := ∅
  sharedData := .ok
  stopFlag := false
  queue := queueInit program.maxCount
  heap := .empty
  nodesFreed := false
  main := .queueInit
  monitor := .absent
  writer := .absent
  reader := .absent
  i := 0
  new := null
  tmp := null

/-- What the environment decides at a step. -/
inductive Event
  /-- The thread goes on. -/
  | go
  /-- The call succeeds or reports an error. -/
  | result (err : Bool)
  /-- `malloc` returns this address, or the null pointer. -/
  | malloc (p : Option Ptr)
  /-- `pthread_cond_signal` takes this waiter, or finds none. -/
  | signal (waiter : Option Worker)
  /-- `pthread_cond_wait` ends although nobody signalled. -/
  | spurious
  deriving DecidableEq

/-- Which of the two `pthread_create` calls of `main` succeed. -/
structure Creates where
  /-- That of the writer. -/
  writer : Bool
  /-- That of the reader. -/
  reader : Bool
  deriving DecidableEq

/-- The process is over. -/
def Process.kill (process : Process) : Process := { process with status := .killed }

/-- Taking the lock, once it is free; a destroyed one holds nobody back. -/
def Process.acquire (process : Process) : Option Process :=
  match process.lock with
  | .free => some { process with lock := .held }
  | .held => none
  | .destroyed => some process

/-- Giving the lock back. -/
def Process.release (process : Process) : Process :=
  match process.lock with
  | .free => process
  | .held => { process with lock := .free }
  | .destroyed => process

/-- `pthread_cond_wait` up to its sleep. -/
def Process.park (process : Process) (me : Worker) : Process :=
  { process.release with waiters := insert me process.waiters }

/-- `pthread_cond_signal`. -/
def Process.condSignal (process : Process) : Option Worker → Option Process
  | some waiter =>
    if waiter ∈ process.waiters then
      some { process with waiters := process.waiters.erase waiter }
    else none
  | none => if process.waiters = ∅ then some process else none

/-- `free`. -/
def Process.freeNode (process : Process) (p : Ptr) : Process :=
  match process.heap.get p with
  | none => process.kill
  | some _ => { process with heap := process.heap.free p }

/-- The writer's next place. -/
def Process.writerAt (process : Process) (pc : AddPc) : Process :=
  { process with writer := .running pc }

/-- The reader's next place. -/
def Process.readerAt (process : Process) (pc : GetPc) : Process :=
  { process with reader := .running pc }

/-- The monitor's next place. -/
def Process.monitorAt (process : Process) (pc : MonitorPc) : Process :=
  { process with monitor := .running pc }

/-- The first statement of `queue_add`. -/
def Program.addEntry : Program → AddPc
  | .condvar => .lock
  | .mutex | .semaphore | .spinLock => .malloc

/-- What follows `malloc` in `queue_add`. -/
def Program.afterMalloc : Program → AddPc
  | .condvar => .link
  | .mutex | .semaphore | .spinLock => .lock

/-- The tests of `queue_add`. -/
def addTest (program : Program) (process : Process) : Process :=
  match program with
  | .condvar =>
    if process.queue.count = process.queue.maxCount ∨ process.sharedData = .nok then
      process.writerAt .wait
    else process.writerAt .malloc
  | .mutex | .semaphore | .spinLock =>
    let process : Process := { process with
      queue := { process.queue with addAttempts := process.queue.addAttempts + 1 } }
    if ¬process.queue.count ≤ process.queue.maxCount then process.kill
    else if process.queue.count = process.queue.maxCount then
      if program = .mutex then process.writerAt (.unlock false) else process.writerAt .free
    else process.writerAt .link

/-- The statements of `queue_add` that link the new node. -/
def addLink (program : Program) (process : Process) : Process :=
  match process.queue.append process.heap process.new with
  | none => process.kill
  | some (queue, heap) =>
    if program = .condvar then
      { process with
        queue := queue, heap := heap, sharedData := .nok, writer := .running .signal }
    else { process with queue := queue, heap := heap, writer := .running (.unlock true) }

/-- The unlock of `queue_add`, and the writer's loop where that is its last statement. -/
def addUnlock (program : Program) (process : Process) (ok : Bool) : Process :=
  if ok then { process.release with i := process.i + 1, writer := .running program.addEntry }
  else if program = .mutex then process.release.writerAt .free
  else process.release.writerAt program.addEntry

/-- One step of the writer. -/
def writerStep (program : Program) (process : Process) (pc : AddPc) (event : Event) :
    Option Process :=
  match pc with
  | .malloc =>
    match event with
    | .malloc none => some process.kill
    | .malloc (some p) =>
      if process.heap.Unused p then
        some { process with
          heap := process.heap.alloc p ⟨process.i, null⟩, new := p,
          writer := .running program.afterMalloc }
      else none
    | .go | .result _ | .signal _ | .spurious => none
  | .lock =>
    match event with
    | .go => process.acquire.map fun after => after.writerAt .test
    | .malloc _ | .result _ | .signal _ | .spurious => none
  | .test =>
    match event with
    | .go => some (addTest program process)
    | .malloc _ | .result _ | .signal _ | .spurious => none
  | .wait =>
    match event with
    | .go => some ((process.park .writer).writerAt .asleep)
    | .malloc _ | .result _ | .signal _ | .spurious => none
  | .asleep =>
    match event with
    | .go =>
      if .writer ∈ process.waiters then none
      else process.acquire.map fun after => after.writerAt .test
    | .spurious => some { process with waiters := process.waiters.erase .writer }
    | .malloc _ | .result _ | .signal _ => none
  | .link =>
    match event with
    | .go => some (addLink program process)
    | .malloc _ | .result _ | .signal _ | .spurious => none
  | .signal =>
    match event with
    | .signal waiter => (process.condSignal waiter).map fun after => after.writerAt (.unlock true)
    | .go | .malloc _ | .result _ | .spurious => none
  | .unlock ok =>
    match event with
    | .go => some (addUnlock program process ok)
    | .malloc _ | .result _ | .signal _ | .spurious => none
  | .free =>
    match event with
    | .go =>
      if program = .mutex then some ((process.freeNode process.new).writerAt program.addEntry)
      else some ((process.freeNode process.new).writerAt (.unlock false))
    | .malloc _ | .result _ | .signal _ | .spurious => none

/-- The tests of `queue_get`. -/
def getTest (program : Program) (process : Process) : Process :=
  match program with
  | .condvar =>
    if process.queue.count = 0 ∨ process.sharedData = .ok then process.readerAt .wait
    else process.readerAt .take
  | .mutex | .semaphore | .spinLock =>
    let process : Process := { process with
      queue := { process.queue with getAttempts := process.queue.getAttempts + 1 } }
    if ¬0 ≤ process.queue.count then process.kill
    else if process.queue.count = 0 then process.readerAt (.unlock false)
    else process.readerAt .take

/-- The statements of `queue_get` that unlink the first node. -/
def getTake (program : Program) (process : Process) : Process :=
  match process.queue.take process.heap with
  | none => process.kill
  | some (queue, tmp, _) =>
    if program = .condvar then
      { process with queue := queue, sharedData := .ok, tmp := tmp, reader := .running .signal }
    else { process with queue := queue, tmp := tmp, reader := .running (.unlock true) }

/-- The unlock of `queue_get`. -/
def getUnlock (program : Program) (process : Process) (ok : Bool) : Process :=
  if ok then
    if program = .condvar then process.release.readerAt .free else process.release.readerAt .read
  else process.release.readerAt .lock

/-- `*val = tmp->val` outside the lock. -/
def getRead (process : Process) : Process :=
  match process.heap.get process.tmp with
  | none => process.kill
  | some _ => process.readerAt .free

/-- One step of the reader. -/
def readerStep (program : Program) (process : Process) (pc : GetPc) (event : Event) :
    Option Process :=
  match pc with
  | .lock =>
    match event with
    | .go => process.acquire.map fun after => after.readerAt .test
    | .malloc _ | .result _ | .signal _ | .spurious => none
  | .test =>
    match event with
    | .go => some (getTest program process)
    | .malloc _ | .result _ | .signal _ | .spurious => none
  | .wait =>
    match event with
    | .go => some ((process.park .reader).readerAt .asleep)
    | .malloc _ | .result _ | .signal _ | .spurious => none
  | .asleep =>
    match event with
    | .go =>
      if .reader ∈ process.waiters then none
      else process.acquire.map fun after => after.readerAt .test
    | .spurious => some { process with waiters := process.waiters.erase .reader }
    | .malloc _ | .result _ | .signal _ => none
  | .take =>
    match event with
    | .go => some (getTake program process)
    | .malloc _ | .result _ | .signal _ | .spurious => none
  | .signal =>
    match event with
    | .signal waiter => (process.condSignal waiter).map fun after => after.readerAt (.unlock true)
    | .go | .malloc _ | .result _ | .spurious => none
  | .unlock ok =>
    match event with
    | .go => some (getUnlock program process ok)
    | .malloc _ | .result _ | .signal _ | .spurious => none
  | .read =>
    match event with
    | .go => some (getRead process)
    | .malloc _ | .result _ | .signal _ | .spurious => none
  | .free =>
    match event with
    | .go => some ((process.freeNode process.tmp).readerAt .lock)
    | .malloc _ | .result _ | .signal _ | .spurious => none

/-- One step of `qmonitor`; only `queue-semafor.c` locks in `queue_print_stats`. -/
def monitorStep (program : Program) (process : Process) : MonitorPc → Option Process
  | .test =>
    if process.stopFlag then some { process with monitor := .returned }
    else if program = .semaphore then some (process.monitorAt .lock)
    else some (process.monitorAt .print)
  | .lock => process.acquire.map fun after => after.monitorAt .print
  | .print =>
    if program = .semaphore then some (process.monitorAt .unlock)
    else some (process.monitorAt .sleep)
  | .unlock => some (process.release.monitorAt .sleep)
  | .sleep => some (process.monitorAt .test)

/-- `main` returns. -/
def Process.exit (process : Process) : Process := { process with status := .exited }

/-- What follows `free_resources`. -/
def Process.afterTeardown (process : Process) : Path → Process
  | .noWriter => process.exit
  | .noReader => { process with main := .joinLate }
  | .joined => process.exit

/-- The loop of `queue_destroy`. -/
def freeLoop (process : Process) (path : Path) (cur : Ptr) : Process :=
  if cur = null then process.afterTeardown path
  else
    match process.heap.get cur with
    | none => process.kill
    | some node =>
      { process with
        heap := process.heap.free cur, nodesFreed := true, main := .freeNodes path node.next }

/-- One step of `main`. -/
def mainStep (program : Program) (creates : Creates) (process : Process) (event : Event) :
    Option Process :=
  match process.main with
  | .queueInit =>
    match event with
    | .result err =>
      if err then some process.kill
      else some { process with monitor := .running .test, main := .initLock }
    | .go | .malloc _ | .signal _ | .spurious => none
  | .initLock =>
    match event with
    | .result err =>
      if err then some { process with main := .createWriter }
      else some { process with lock := .free, main := .createWriter }
    | .go | .malloc _ | .signal _ | .spurious => none
  | .createWriter =>
    match event with
    | .go =>
      if creates.writer then
        some { process with writer := .running program.addEntry, main := .createReader }
      else some { process with main := .destroyLock .noWriter }
    | .result _ | .malloc _ | .signal _ | .spurious => none
  | .createReader =>
    match event with
    | .go =>
      if creates.reader then some { process with reader := .running .lock, main := .joinReader }
      else some { process with main := .destroyLock .noReader }
    | .result _ | .malloc _ | .signal _ | .spurious => none
  | .joinReader =>
    match event with
    | .go => if process.reader = .returned then some { process with main := .joinWriter } else none
    | .result _ | .malloc _ | .signal _ | .spurious => none
  | .joinWriter =>
    match event with
    | .go =>
      if process.writer = .returned then some { process with main := .destroyLock .joined }
      else none
    | .result _ | .malloc _ | .signal _ | .spurious => none
  | .destroyLock path =>
    match event with
    | .result err =>
      if err then some { process with main := .stop path }
      else some { process with lock := .destroyed, main := .stop path }
    | .go | .malloc _ | .signal _ | .spurious => none
  | .stop path =>
    match event with
    | .go => some { process with stopFlag := true, main := .joinMonitor path }
    | .result _ | .malloc _ | .signal _ | .spurious => none
  | .joinMonitor path =>
    match event with
    | .go =>
      if process.monitor = .returned then
        some { process with main := .freeNodes path process.queue.first }
      else none
    | .result _ | .malloc _ | .signal _ | .spurious => none
  | .freeNodes path cur =>
    match event with
    | .go => some (freeLoop process path cur)
    | .result _ | .malloc _ | .signal _ | .spurious => none
  | .joinLate =>
    match event with
    | .go => if process.writer = .returned then some process.exit else none
    | .result _ | .malloc _ | .signal _ | .spurious => none

/-- Who takes a step, and what the environment decides at it. -/
inductive Label
  /-- `main` takes a step. -/
  | main (event : Event)
  /-- The monitor takes a step. -/
  | monitor
  /-- The writer takes a step. -/
  | writer (event : Event)
  /-- The reader takes a step. -/
  | reader (event : Event)
  deriving DecidableEq

/-- A step of a thread that runs. -/
def Thread.step {π : Type} (thread : Thread π) (step : π → Option Process) : Option Process :=
  match thread with
  | .absent => none
  | .running pc => step pc
  | .returned => none

/-- One step of the process. -/
def next (program : Program) (creates : Creates) (process : Process) (label : Label) :
    Option Process :=
  if process.status = .running then
    match label with
    | .main event => mainStep program creates process event
    | .monitor => process.monitor.step (monitorStep program process)
    | .writer event => process.writer.step fun pc => writerStep program process pc event
    | .reader event => process.reader.step fun pc => readerStep program process pc event
  else none

/-- The places of the monitor whose statement uses the lock. -/
def MonitorPc.usesLock : MonitorPc → Bool
  | .lock | .unlock => true
  | .test | .print | .sleep => false

/-- The places of the writer whose statement uses the lock. -/
def AddPc.usesLock : AddPc → Bool
  | .lock | .wait | .asleep | .unlock _ => true
  | .malloc | .test | .link | .signal | .free => false

/-- The places of the writer whose statement reads or writes nodes of the queue. -/
def AddPc.usesNodes : AddPc → Bool
  | .link | .free => true
  | .malloc | .lock | .test | .wait | .asleep | .signal | .unlock _ => false

/-- The places of the reader whose statement uses the lock. -/
def GetPc.usesLock : GetPc → Bool
  | .lock | .wait | .asleep | .unlock _ => true
  | .test | .take | .signal | .read | .free => false

/-- The places of the reader whose statement reads or writes nodes of the queue. -/
def GetPc.usesNodes : GetPc → Bool
  | .take | .read | .free => true
  | .lock | .test | .wait | .asleep | .signal | .unlock _ => false

/-- Whether a thread is at a place of a kind. -/
def Thread.is {π : Type} (thread : Thread π) (kind : π → Bool) : Bool :=
  match thread with
  | .absent => false
  | .running pc => kind pc
  | .returned => false

/-- The step of this thread uses the lock in `queue_add`, `queue_get` or `queue_print_stats`. -/
def Process.usesLock (process : Process) : Label → Bool
  | .main _ => false
  | .monitor => process.monitor.is MonitorPc.usesLock
  | .writer _ => process.writer.is AddPc.usesLock
  | .reader _ => process.reader.is GetPc.usesLock

/-- The step of this thread reads or writes nodes in `queue_add` or `queue_get`. -/
def Process.usesNodes (process : Process) : Label → Bool
  | .main _ => false
  | .monitor => false
  | .writer _ => process.writer.is AddPc.usesNodes
  | .reader _ => process.reader.is GetPc.usesNodes

/-- The step uses the lock after it was destroyed, or nodes after `queue_destroy` has freed
nodes. -/
def Process.tooLate (process : Process) (label : Label) : Bool :=
  (decide (process.lock = .destroyed) && process.usesLock label) ||
    (process.nodesFreed && process.usesNodes label)

/-- In every run of a program no step comes too late. -/
def TeardownLast (program : Program) (creates : Creates) : Prop :=
  ∀ labels before label after, exec (next program creates) (start program) labels = some before →
    next program creates before label = some after → before.tooLate label = false

/-- The calls of `pthread_create` after whose success or failure the teardown is in order: both
succeed, or the first fails in a program whose monitor does not lock. -/
def Creates.Orderly (program : Program) (creates : Creates) : Prop :=
  if creates.writer then creates.reader = true else program ≠ .semaphore

instance (program : Program) (creates : Creates) : Decidable (creates.Orderly program) :=
  inferInstanceAs (Decidable
    (if creates.writer then creates.reader = true else program ≠ .semaphore))

/-- One run with a late step refutes the order. -/
theorem not_teardownLast {program : Program} {creates : Creates} (labels : List Label)
    (label : Label)
    (late : ((exec (next program creates) (start program) labels).bind fun before =>
      (next program creates before label).map fun _ => before.tooLate label) = some true) :
    ¬TeardownLast program creates := by
  intro always
  obtain ⟨before, reached, step⟩ := Option.bind_eq_some_iff.mp late
  obtain ⟨after, taken, value⟩ := Option.map_eq_some_iff.mp step
  have never := always labels before label after reached taken
  rw [never] at value
  exact absurd value (by decide)

/-- The steps of `main` up to the destruction of the lock when the reader cannot be created. -/
def mainToTeardown : List Label :=
  [.main (.result false), .main (.result false), .main .go, .main .go, .main (.result false)]

/-- When the second `pthread_create` fails, the writer goes on to take the destroyed lock. -/
theorem late_writer (program : Program) : ¬TeardownLast program ⟨true, false⟩ := by
  cases program with
  | condvar => exact not_teardownLast mainToTeardown (.writer .go) (by decide +kernel)
  | mutex | semaphore | spinLock =>
    exact not_teardownLast (mainToTeardown ++ [.writer (.malloc (some 1))]) (.writer .go)
      (by decide +kernel)

/-- When the first `pthread_create` fails, the monitor of the semaphore program goes on to use the
destroyed semaphore. -/
theorem late_monitor (reader : Bool) : ¬TeardownLast .semaphore ⟨false, reader⟩ := by
  apply not_teardownLast
    [.main (.result false), .main (.result false), .main .go, .main (.result false), .monitor]
    .monitor
  cases reader <;> decide +kernel

end NsuOs.Queues.Teardown
