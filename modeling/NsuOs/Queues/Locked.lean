import NsuOs.Base.Threads
import NsuOs.Queues.Nodes

/-!
# The queues guarded by a lock

`queue-spin-lock.c`, `queue-mutex.c`, `queue-semafor.c` and `queue-usleep.c` run the same
statements between lock and unlock, which makes them one step. Outside the lock are the `malloc`
and the filling of the new node in `queue_add`, the `free` of a refused node in the mutex variant,
and in `queue_get` the read of the unlinked node and its `free`. The threads that call the queue
are given by a client: which calls it may make next and what it does with a result. The values in
the order of the lock, and the values handed out, are recorded beside the queue.
-/
namespace NsuOs.Queues.Locked

open NsuOs.Run

/-- The four variants of the queue. -/
inductive Variant
  | spinLock
  | mutex
  | semaphore
  | usleep
  deriving DecidableEq

/-- Whether a refused node is freed before the unlock. -/
def Variant.freesInside : Variant → Bool
  | .spinLock => true
  | .mutex => false
  | .semaphore => true
  | .usleep => true

/-- A call on the queue. -/
inductive Call
  /-- `queue_add`. -/
  | add (val : Int32)
  /-- `queue_get`. -/
  | get
  deriving DecidableEq

/-- What a call returns: one or zero, and the value a `queue_get` stored through `val`. -/
inductive Result
  /-- `queue_add` returned 1. -/
  | added
  /-- `queue_add` returned 0. -/
  | full
  /-- `queue_get` returned 1. -/
  | got (val : Int32)
  /-- `queue_get` returned 0. -/
  | empty
  deriving DecidableEq

/-- A program that calls the queue: the calls it may make in a state, and its state after a call
has returned. -/
structure Client (κ : Type*) where
  /-- Whether it may make a call in a state. -/
  may : κ → Call → Bool
  /-- Its state once the call has returned. -/
  resume : κ → Result → κ

/-- Where a thread is. -/
inductive Pc
  /-- Between two calls. -/
  | idle
  /-- At the `malloc` of `queue_add`. -/
  | malloc (val : Int32)
  /-- At the lock of `queue_add`. -/
  | addLock (new : Ptr) (val : Int32)
  /-- At the `free` of a refused node after the unlock. -/
  | addFree (new : Ptr)
  /-- At the lock of `queue_get`. -/
  | getLock
  /-- At `*val = tmp->val`, with the number of the node in the order of the lock. -/
  | getRead (tmp : Ptr) (ticket : Nat)
  /-- At `free(tmp)`, with the value read. -/
  | getFree (tmp : Ptr) (val : Int32) (ticket : Nat)
  /-- A null or freed pointer was followed or freed. -/
  | fault
  /-- An `assert` failed. -/
  | aborted
  deriving DecidableEq

/-- The queue and its heap, the values added and taken in the order of the lock, and the values
handed out, each with its number in that order. -/
structure Shared where
  /-- The queue. -/
  queue : Queue
  /-- The heap of its nodes. -/
  heap : Heap Node
  /-- The values added, in the order of the lock. -/
  added : List Int32
  /-- The values taken, in the order of the lock. -/
  taken : List Int32
  /-- The values handed out, each with its number among those taken. -/
  delivered : List (Nat × Int32)

/-- A thread: the state of its program and its place in the queue's code. -/
structure Locals (κ : Type*) where
  /-- The state of its program. -/
  client : κ
  /-- Its place in the code of the queue. -/
  pc : Pc

/-- What the environment decides at a step. -/
inductive Event
  /-- The thread goes on. -/
  | go
  /-- An idle thread calls the queue. -/
  | call (call : Call)
  /-- `malloc` returns this address. -/
  | malloc (p : Ptr)
  deriving DecidableEq

variable {ι κ : Type*}

/-- Where a call leads. -/
def Call.enter : Call → Pc
  | .add val => .malloc val
  | .get => .getLock

/-- A step inside a call goes on at a place, or the call returns. -/
inductive Outcome
  /-- The call goes on. -/
  | goto (pc : Pc)
  /-- The call returns. -/
  | returned (result : Result)

/-- `free`. -/
def freeNode (shared : Shared) (p : Ptr) (outcome : Outcome) : Shared × Outcome :=
  match shared.heap.get p with
  | none => (shared, .goto .fault)
  | some _ => ({ shared with heap := shared.heap.free p }, outcome)

/-- The statements of `queue_add` from the lock on. -/
def queueAdd (variant : Variant) (shared : Shared) (new : Ptr) (val : Int32) : Shared × Outcome :=
  let shared := { shared with
    queue := { shared.queue with addAttempts := shared.queue.addAttempts + 1 } }
  if ¬shared.queue.count ≤ shared.queue.maxCount then (shared, .goto .aborted)
  else if shared.queue.count = shared.queue.maxCount then
    if variant.freesInside then freeNode shared new (.returned .full)
    else (shared, .goto (.addFree new))
  else
    match shared.queue.append shared.heap new with
    | none => (shared, .goto .fault)
    | some (queue, heap) =>
      ({ shared with queue := queue, heap := heap, added := shared.added ++ [val] },
        .returned .added)

/-- The statements of `queue_get` between lock and unlock. -/
def queueGet (shared : Shared) : Shared × Outcome :=
  let shared := { shared with
    queue := { shared.queue with getAttempts := shared.queue.getAttempts + 1 } }
  if ¬shared.queue.count ≥ 0 then (shared, .goto .aborted)
  else if shared.queue.count = 0 then (shared, .returned .empty)
  else
    match shared.queue.take shared.heap with
    | none => (shared, .goto .fault)
    | some (queue, tmp, node) =>
      ({ shared with queue := queue, taken := shared.taken ++ [node.val] },
        .goto (.getRead tmp shared.taken.length))

/-- `*val = tmp->val` of `queue_get`. -/
def readNode (shared : Shared) (tmp : Ptr) (ticket : Nat) : Shared × Outcome :=
  match shared.heap.get tmp with
  | none => (shared, .goto .fault)
  | some node =>
    ({ shared with delivered := shared.delivered ++ [(ticket, node.val)] },
      .goto (.getFree tmp node.val ticket))

/-- The thread after a step inside a call. -/
def Client.continue (client : Client κ) (state : κ) : Outcome → Locals κ
  | .goto pc => ⟨state, pc⟩
  | .returned result => ⟨client.resume state result, .idle⟩

/-- One step of a thread. -/
def step (variant : Variant) (client : Client κ) (_ : ι) (shared : Shared) (mine : Locals κ)
    (event : Event) : Option (Shared × Locals κ) :=
  match mine.pc with
  | .idle =>
    match event with
    | .call call =>
      if client.may mine.client call then some (shared, ⟨mine.client, call.enter⟩) else none
    | .go | .malloc _ => none
  | .malloc val =>
    match event with
    | .malloc p =>
      if shared.heap.Unused p then
        some ({ shared with heap := shared.heap.alloc p ⟨val, null⟩ },
          ⟨mine.client, .addLock p val⟩)
      else none
    | .go | .call _ => none
  | .addLock new val =>
    match event with
    | .go =>
      let (after, outcome) := queueAdd variant shared new val
      some (after, client.continue mine.client outcome)
    | .call _ | .malloc _ => none
  | .addFree new =>
    match event with
    | .go =>
      let (after, outcome) := freeNode shared new (.returned .full)
      some (after, client.continue mine.client outcome)
    | .call _ | .malloc _ => none
  | .getLock =>
    match event with
    | .go =>
      let (after, outcome) := queueGet shared
      some (after, client.continue mine.client outcome)
    | .call _ | .malloc _ => none
  | .getRead tmp ticket =>
    match event with
    | .go =>
      let (after, outcome) := readNode shared tmp ticket
      some (after, client.continue mine.client outcome)
    | .call _ | .malloc _ => none
  | .getFree tmp val _ =>
    match event with
    | .go =>
      let (after, outcome) := freeNode shared tmp (.returned (.got val))
      some (after, client.continue mine.client outcome)
    | .call _ | .malloc _ => none
  | .fault | .aborted => none

/-- The process: any number of threads on one queue. -/
abbrev Process (ι κ : Type*) := Threads.State ι Shared (Locals κ)

/-- One step of the process. -/
def next [DecidableEq ι] (variant : Variant) (client : Client κ) :
    Process ι κ → ι × Event → Option (Process ι κ) :=
  Threads.next (step variant client)

/-- The queue as `queue_init` leaves it, and every thread idle. -/
def Process.start (maxCount : Int) (initial : ι → κ) : Process ι κ :=
  ⟨⟨queueInit maxCount, .empty, [], [], []⟩, fun i => ⟨initial i, .idle⟩⟩

/-- The step at a place inside a call. -/
def Pc.run (variant : Variant) (shared : Shared) : Pc → Option (Shared × Outcome)
  | .addLock new val => some (queueAdd variant shared new val)
  | .addFree new => some (freeNode shared new (.returned .full))
  | .getLock => some (queueGet shared)
  | .getRead tmp ticket => some (readNode shared tmp ticket)
  | .getFree tmp val _ => some (freeNode shared tmp (.returned (.got val)))
  | .idle | .malloc _ | .fault | .aborted => none

/-- Everything one step of a thread can do. -/
inductive Moves (variant : Variant) (client : Client κ) (shared : Shared) (state : κ) :
    Pc → Event → Shared → Locals κ → Prop
  /-- The program makes a call that it may make. -/
  | call (call : Call) (allowed : client.may state call = true) :
      Moves variant client shared state .idle (.call call) shared ⟨state, call.enter⟩
  /-- A node is made for the value. -/
  | malloc (val : Int32) (p : Ptr) (unused : shared.heap.Unused p) :
      Moves variant client shared state (.malloc val) (.malloc p)
        { shared with heap := shared.heap.alloc p ⟨val, null⟩ } ⟨state, .addLock p val⟩
  /-- The code of the queue runs on. -/
  | run (pc : Pc) (after : Shared) (outcome : Outcome)
      (ran : pc.run variant shared = some (after, outcome)) :
      Moves variant client shared state pc .go after (client.continue state outcome)

/-- A step is one of the moves. -/
theorem moves_of_step {variant : Variant} {client : Client κ} {me : ι} {shared after : Shared}
    {mine moved : Locals κ} {event : Event}
    (taken : step variant client me shared mine event = some (after, moved)) :
    Moves variant client shared mine.client mine.pc event after moved := by
  obtain ⟨state, pc⟩ := mine
  cases pc with
  | idle =>
    cases event with
    | call call =>
      simp only [step, Option.ite_none_right_eq_some, Option.some.injEq, Prod.mk.injEq] at taken
      obtain ⟨allowed, rfl, rfl⟩ := taken
      exact .call call allowed
    | go | malloc => simp [step] at taken
  | malloc val =>
    cases event with
    | malloc p =>
      simp only [step, Option.ite_none_right_eq_some, Option.some.injEq, Prod.mk.injEq] at taken
      obtain ⟨unused, rfl, rfl⟩ := taken
      exact .malloc val p unused
    | go | call => simp [step] at taken
  | addLock | addFree | getLock | getRead | getFree =>
    cases event with
    | go =>
      obtain ⟨rfl, rfl⟩ := Prod.mk.inj (Option.some.inj taken)
      exact .run _ _ _ rfl
    | call | malloc => simp [step] at taken
  | fault | aborted => simp [step] at taken

end NsuOs.Queues.Locked
