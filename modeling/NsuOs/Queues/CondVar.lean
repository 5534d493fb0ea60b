import NsuOs.Base.Threads
import NsuOs.Queues.Nodes

/-!
# The condition-variable queue of `queue-condvar.c`

Any number of threads call `queue_add` and `queue_get` in any order. `pthread_cond_wait` gives
the mutex back and joins the wait set in one step and, once it is out of the wait set, takes the
mutex again before the condition is tested anew; `pthread_cond_signal` takes one waiter out of the
set, whichever the system picks. Following a null or freed pointer, and freeing one, leads to the
place `fault`. The list of completed operations is recorded in the order of the mutex.
-/
namespace NsuOs.Queues.CondVar

open NsuOs.Run

variable {ι : Type*}

/-- `enum EVENT`. -/
inductive EventData
  /-- The queue may be added to. -/
  | ok
  /-- It may be taken from. -/
  | nok
  deriving DecidableEq

/-- A call on the queue. -/
inductive Call
  /-- `queue_add`. -/
  | add (val : Int32)
  /-- `queue_get`. -/
  | get
  deriving DecidableEq

/-- A completed operation: the value added, or the value a `queue_get` stored through `val`. -/
inductive Op
  /-- A value was added. -/
  | add (val : Int32)
  /-- A value was taken. -/
  | get (val : Int32)
  deriving DecidableEq

/-- Where a thread is. -/
inductive Pc
  /-- Between two calls. -/
  | idle
  /-- At `pthread_mutex_lock`. -/
  | lock (call : Call)
  /-- At the condition of the `while` loop. -/
  | test (call : Call)
  /-- Inside `pthread_cond_wait`. -/
  | waiting (call : Call)
  /-- At the `malloc` of `queue_add`. -/
  | malloc (val : Int32)
  /-- At the statements of `queue_add` that link the new node. -/
  | link (new : Ptr) (val : Int32)
  /-- At the statements of `queue_get` that read and unlink the first node. -/
  | take
  /-- At `pthread_cond_signal`, with the node a `queue_get` has still to free. -/
  | signal (tmp : Option Ptr)
  /-- At `pthread_mutex_unlock`. -/
  | unlock (tmp : Option Ptr)
  /-- At the `free` of `queue_get`. -/
  | free (tmp : Ptr)
  /-- A null or freed pointer was followed. -/
  | fault
  deriving DecidableEq

/-- The mutex with its holder, the wait set of `cond`, the queue and its heap, and the operations
completed so far. -/
structure Shared (ι : Type*) where
  /-- The holder of the mutex. -/
  mutex : Option ι
  /-- The wait set of `cond`. -/
  waiters : Finset ι
  /-- The flag that tells whose turn it is. -/
  sharedData : EventData
  /-- The queue. -/
  queue : Queue
  /-- The heap of its nodes. -/
  heap : Heap Node
  /-- The operations completed so far. -/
  log : List Op

/-- What the environment decides at a step. -/
inductive Event (ι : Type*)
  /-- The thread goes on. -/
  | go
  /-- An idle thread calls the queue. -/
  | call (call : Call)
  /-- `malloc` returns this address. -/
  | malloc (p : Ptr)
  /-- `pthread_cond_signal` takes this waiter, or finds none. -/
  | signal (waiter : Option ι)
  /-- `pthread_cond_wait` ends although nobody signalled. -/
  | spurious
  deriving DecidableEq

/-- The condition of the `while` loop of each function. -/
def Shared.blocked (shared : Shared ι) : Call → Prop
  | .add _ => shared.queue.count = shared.queue.maxCount ∨ shared.sharedData = .nok
  | .get => shared.queue.count = 0 ∨ shared.sharedData = .ok

instance (shared : Shared ι) (call : Call) : Decidable (shared.blocked call) :=
  match call with
  | .add _ => inferInstanceAs (Decidable (_ ∨ _))
  | .get => inferInstanceAs (Decidable (_ ∨ _))

/-- What follows the `while` loop. -/
def Call.enter : Call → Pc
  | .add val => .malloc val
  | .get => .take

/-- What follows `pthread_mutex_unlock`. -/
def leave : Option Ptr → Pc
  | none => .idle
  | some tmp => .free tmp

variable [DecidableEq ι]

/-- `pthread_mutex_lock`, once the mutex is free. -/
def mutexLock (me : ι) (shared : Shared ι) : Option (Shared ι) :=
  if shared.mutex = none then some { shared with mutex := some me } else none

/-- The first half of `pthread_cond_wait`. -/
def condWait (me : ι) (shared : Shared ι) : Shared ι :=
  { shared with mutex := none, waiters := insert me shared.waiters }

/-- `pthread_cond_signal`. -/
def condSignal (shared : Shared ι) : Option ι → Option (Shared ι)
  | some waiter =>
    if waiter ∈ shared.waiters then
      some { shared with waiters := shared.waiters.erase waiter }
    else none
  | none => if shared.waiters = ∅ then some shared else none

/-- `malloc` and the stores into the new node. -/
def mallocNode (shared : Shared ι) (val : Int32) (p : Ptr) : Option (Shared ι) :=
  if shared.heap.Unused p then some { shared with heap := shared.heap.alloc p ⟨val, null⟩ }
  else none

/-- The statements of `queue_add` between `malloc` and `pthread_cond_signal`. -/
def addNode (shared : Shared ι) (new : Ptr) (val : Int32) : Shared ι × Pc :=
  match shared.queue.append shared.heap new with
  | none => (shared, .fault)
  | some (queue, heap) =>
    ({ shared with
        queue := queue, heap := heap, sharedData := .nok, log := shared.log ++ [.add val] },
      .signal none)

/-- The statements of `queue_get` between the loop and `pthread_cond_signal`. -/
def getNode (shared : Shared ι) : Shared ι × Pc :=
  match shared.queue.take shared.heap with
  | none => (shared, .fault)
  | some (queue, tmp, node) =>
    ({ shared with queue := queue, sharedData := .ok, log := shared.log ++ [.get node.val] },
      .signal (some tmp))

/-- The `free` of `queue_get`. -/
def freeNode (shared : Shared ι) (tmp : Ptr) : Shared ι × Pc :=
  match shared.heap.get tmp with
  | none => (shared, .fault)
  | some _ => ({ shared with heap := shared.heap.free tmp }, .idle)

/-- One step of a thread inside `queue_add` or `queue_get`. -/
def step (me : ι) (shared : Shared ι) (pc : Pc) (event : Event ι) : Option (Shared ι × Pc) :=
  match pc with
  | .idle =>
    match event with
    | .call call => some (shared, .lock call)
    | .go | .malloc _ | .signal _ | .spurious => none
  | .lock call =>
    match event with
    | .go => (mutexLock me shared).map fun after => (after, .test call)
    | .call _ | .malloc _ | .signal _ | .spurious => none
  | .test call =>
    match event with
    | .go =>
      if shared.blocked call then some (condWait me shared, .waiting call)
      else some (shared, call.enter)
    | .call _ | .malloc _ | .signal _ | .spurious => none
  | .waiting call =>
    match event with
    | .go =>
      if me ∈ shared.waiters then none
      else (mutexLock me shared).map fun after => (after, .test call)
    | .spurious => some ({ shared with waiters := shared.waiters.erase me }, .waiting call)
    | .call _ | .malloc _ | .signal _ => none
  | .malloc val =>
    match event with
    | .malloc p => (mallocNode shared val p).map fun after => (after, .link p val)
    | .go | .call _ | .signal _ | .spurious => none
  | .link new val =>
    match event with
    | .go => some (addNode shared new val)
    | .call _ | .malloc _ | .signal _ | .spurious => none
  | .take =>
    match event with
    | .go => some (getNode shared)
    | .call _ | .malloc _ | .signal _ | .spurious => none
  | .signal tmp =>
    match event with
    | .signal waiter => (condSignal shared waiter).map fun after => (after, .unlock tmp)
    | .go | .call _ | .malloc _ | .spurious => none
  | .unlock tmp =>
    match event with
    | .go => some ({ shared with mutex := none }, leave tmp)
    | .call _ | .malloc _ | .signal _ | .spurious => none
  | .free tmp =>
    match event with
    | .go => some (freeNode shared tmp)
    | .call _ | .malloc _ | .signal _ | .spurious => none
  | .fault => none

/-- The process: any number of threads on one queue. -/
abbrev Process (ι : Type*) := Threads.State ι (Shared ι) Pc

/-- One step of the process. -/
def next : Process ι → ι × Event ι → Option (Process ι) := Threads.next step

/-- The queue as `queue_init` leaves it, and every thread idle. -/
def Process.start (maxCount : Int) : Process ι :=
  ⟨⟨none, ∅, .ok, queueInit maxCount, .empty, []⟩, fun _ => .idle⟩

/-- Everything one step of a thread can do. -/
inductive Moves (me : ι) (shared : Shared ι) : Pc → Event ι → Shared ι → Pc → Prop
  /-- The thread makes a call. -/
  | call (call : Call) : Moves me shared .idle (.call call) shared (.lock call)
  /-- It takes the mutex. -/
  | lock (call : Call) (unheld : shared.mutex = none) :
      Moves me shared (.lock call) .go { shared with mutex := some me } (.test call)
  /-- It is not its turn, so it gives the mutex back and waits. -/
  | wait (call : Call) (blocked : shared.blocked call) :
      Moves me shared (.test call) .go (condWait me shared) (.waiting call)
  /-- It is its turn. -/
  | enter (call : Call) (free : ¬shared.blocked call) :
      Moves me shared (.test call) .go shared call.enter
  /-- It was woken and has the mutex again. -/
  | relock (call : Call) (awake : me ∉ shared.waiters) (unheld : shared.mutex = none) :
      Moves me shared (.waiting call) .go { shared with mutex := some me } (.test call)
  /-- It wakes up without a cause. -/
  | spurious (call : Call) :
      Moves me shared (.waiting call) .spurious
        { shared with waiters := shared.waiters.erase me } (.waiting call)
  /-- A node is made for the value. -/
  | malloc (val : Int32) (p : Ptr) (unused : shared.heap.Unused p) :
      Moves me shared (.malloc val) (.malloc p)
        { shared with heap := shared.heap.alloc p ⟨val, null⟩ } (.link p val)
  /-- The node is linked at the end. -/
  | link (new : Ptr) (val : Int32) :
      Moves me shared (.link new val) .go (addNode shared new val).1 (addNode shared new val).2
  /-- The first node is unlinked. -/
  | take : Moves me shared .take .go (getNode shared).1 (getNode shared).2
  /-- A waiter is woken. -/
  | signal (tmp : Option Ptr) (waiter : ι) (member : waiter ∈ shared.waiters) :
      Moves me shared (.signal tmp) (.signal (some waiter))
        { shared with waiters := shared.waiters.erase waiter } (.unlock tmp)
  /-- There is no waiter. -/
  | nobody (tmp : Option Ptr) (deserted : shared.waiters = ∅) :
      Moves me shared (.signal tmp) (.signal none) shared (.unlock tmp)
  /-- The mutex is given back. -/
  | unlock (tmp : Option Ptr) :
      Moves me shared (.unlock tmp) .go { shared with mutex := none } (leave tmp)
  /-- The node that was taken is freed. -/
  | free (tmp : Ptr) :
      Moves me shared (.free tmp) .go (freeNode shared tmp).1 (freeNode shared tmp).2

/-- A step is one of the moves. -/
theorem moves_of_step {me : ι} {shared after : Shared ι} {pc moved : Pc} {event : Event ι}
    (taken : step me shared pc event = some (after, moved)) :
    Moves me shared pc event after moved := by
  cases pc with
  | idle =>
    cases event with
    | call call =>
      obtain ⟨rfl, rfl⟩ := Prod.mk.inj (Option.some.inj taken)
      exact .call call
    | go | malloc | signal | spurious => simp [step] at taken
  | lock call =>
    cases event with
    | go =>
      simp only [step, mutexLock] at taken
      split at taken <;> simp only [Option.map_some, Option.map_none, Option.some.injEq,
        Prod.mk.injEq, reduceCtorEq] at taken
      obtain ⟨rfl, rfl⟩ := taken
      exact .lock call ‹_›
    | call | malloc | signal | spurious => simp [step] at taken
  | test call =>
    cases event with
    | go =>
      simp only [step] at taken
      split at taken <;> obtain ⟨rfl, rfl⟩ := Prod.mk.inj (Option.some.inj taken)
      · exact .wait call ‹_›
      · exact .enter call ‹_›
    | call | malloc | signal | spurious => simp [step] at taken
  | waiting call =>
    cases event with
    | go =>
      simp only [step, mutexLock, Option.ite_none_left_eq_some] at taken
      obtain ⟨awake, locked⟩ := taken
      split at locked <;> simp only [Option.map_some, Option.map_none, Option.some.injEq,
        Prod.mk.injEq, reduceCtorEq] at locked
      obtain ⟨rfl, rfl⟩ := locked
      exact .relock call awake ‹_›
    | spurious =>
      obtain ⟨rfl, rfl⟩ := Prod.mk.inj (Option.some.inj taken)
      exact .spurious call
    | call | malloc | signal => simp [step] at taken
  | malloc val =>
    cases event with
    | malloc p =>
      simp only [step, mallocNode] at taken
      split at taken <;> simp only [Option.map_some, Option.map_none, Option.some.injEq,
        Prod.mk.injEq, reduceCtorEq] at taken
      obtain ⟨rfl, rfl⟩ := taken
      exact .malloc val p ‹_›
    | go | call | signal | spurious => simp [step] at taken
  | link new val =>
    cases event with
    | go =>
      simp only [step, Option.some.injEq] at taken
      obtain ⟨rfl, rfl⟩ := Prod.ext_iff.mp taken
      exact .link new val
    | call | malloc | signal | spurious => simp [step] at taken
  | take =>
    cases event with
    | go =>
      simp only [step, Option.some.injEq] at taken
      obtain ⟨rfl, rfl⟩ := Prod.ext_iff.mp taken
      exact .take
    | call | malloc | signal | spurious => simp [step] at taken
  | signal tmp =>
    cases event with
    | signal waiter =>
      cases waiter with
      | none =>
        simp only [step, condSignal] at taken
        split at taken <;> simp only [Option.map_some, Option.map_none, Option.some.injEq,
          Prod.mk.injEq, reduceCtorEq] at taken
        obtain ⟨rfl, rfl⟩ := taken
        exact .nobody tmp ‹_›
      | some waiter =>
        simp only [step, condSignal] at taken
        split at taken <;> simp only [Option.map_some, Option.map_none, Option.some.injEq,
          Prod.mk.injEq, reduceCtorEq] at taken
        obtain ⟨rfl, rfl⟩ := taken
        exact .signal tmp waiter ‹_›
    | go | call | malloc | spurious => simp [step] at taken
  | unlock tmp =>
    cases event with
    | go =>
      obtain ⟨rfl, rfl⟩ := Prod.mk.inj (Option.some.inj taken)
      exact .unlock tmp
    | call | malloc | signal | spurious => simp [step] at taken
  | free tmp =>
    cases event with
    | go =>
      simp only [step, Option.some.injEq] at taken
      obtain ⟨rfl, rfl⟩ := Prod.ext_iff.mp taken
      exact .free tmp
    | call | malloc | signal | spurious => simp [step] at taken
  | fault => simp [step] at taken

end NsuOs.Queues.CondVar
