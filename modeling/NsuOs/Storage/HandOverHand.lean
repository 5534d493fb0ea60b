import NsuOs.Base.Threads
import NsuOs.Base.Heap
import NsuOs.Base.CString
import NsuOs.Base.LockTable

/-!
# The list with a lock in every node

`main.c`, `rwlock.c` and `spinlock.c` of the list task run the same threads: `find_increasing`,
`find_decreasing` and `find_equals` walk the list two nodes at a time, `random_swap` three nodes at
a time. The programs differ in the kind of lock, which the first three take for reading in
`rwlock.c`, and in one comparison. Every lock and unlock is a step of its own; following a null
pointer, and unlocking a lock the thread does not hold, leads to the place `fault`.
-/
namespace NsuOs.Storage

open NsuOs.Run

variable {ι : Type*}

/-- `Node`, without its lock. -/
structure Node where
  /-- `value`. -/
  value : CString
  /-- `next`. -/
  next : Ptr
  deriving DecidableEq

/-- The three programs. -/
inductive Program
  | mutex
  | rwlock
  | spinlock
  deriving DecidableEq

/-- The three searching thread functions. -/
inductive Search
  | increasing
  | decreasing
  | equals
  deriving DecidableEq

/-- The comparison of each search in each program. -/
def Search.counts : Program → Search → Nat → Nat → Bool
  | _, .increasing, left, right => left < right
  | .rwlock, .decreasing, left, right => left > right
  | .mutex, .decreasing, left, right => left < right
  | .spinlock, .decreasing, left, right => left < right
  | _, .equals, left, right => left == right

/-- Where a search is. -/
inductive FinderPc
  /-- At the head of the outer loop. -/
  | start
  /-- At the lock of `node`. -/
  | lockNode
  /-- At the reads of `node->next`. -/
  | readNext
  /-- At the lock of `next`. -/
  | lockNext
  /-- At the comparison. -/
  | compare
  /-- At the unlock of `next`. -/
  | unlockNext
  /-- At the unlock of `tmp`. -/
  | unlockTmp
  /-- At the unlock of the last node. -/
  | unlockLast
  /-- At `++count_increment`. -/
  | increment
  /-- A null pointer was followed or a lock that is not held was unlocked. -/
  | fault
  deriving DecidableEq

/-- The variables of a search. -/
structure Finder where
  /-- Its place. -/
  pc : FinderPc
  /-- `node`. -/
  node : Ptr
  /-- `next`. -/
  next : Ptr
  /-- `tmp`. -/
  tmp : Ptr
  /-- `counter`. -/
  counter : Nat
  deriving DecidableEq

/-- Where `random_swap` is. -/
inductive SwapperPc
  /-- At the head of the outer loop. -/
  | start
  /-- At the test `i < index`. -/
  | test
  /-- At the lock of `prev`. -/
  | lockPrev
  /-- At the test `prev->next == NULL`. -/
  | checkNext
  /-- At the lock of `prev->next`. -/
  | lockCurrent
  /-- At the test `prev->next->next == NULL`. -/
  | checkFuture
  /-- At the lock of `prev->next->next`. -/
  | lockFuture
  /-- At the four assignments. -/
  | advance
  /-- At the unlock of `node->next->next`. -/
  | unlockFuture
  /-- At the unlock of `node->next`. -/
  | unlockCurrent
  /-- At the unlock of `node`. -/
  | unlockNode
  /-- At the unlock of `prev->next` before the `break`. -/
  | leaveCurrent
  /-- At the unlock of `prev` before the `break`. -/
  | leavePrev
  /-- At `++count_increment`. -/
  | increment
  /-- A null pointer was followed or a lock that is not held was unlocked. -/
  | fault
  deriving DecidableEq

/-- The variables of `random_swap`. -/
structure Swapper where
  /-- Its place. -/
  pc : SwapperPc
  /-- `prev`. -/
  prev : Ptr
  /-- `current`. -/
  current : Ptr
  /-- `future`. -/
  future : Ptr
  /-- `node`. -/
  node : Ptr
  /-- `index`. -/
  index : Nat
  /-- `i`. -/
  i : Nat
  deriving DecidableEq

/-- A thread of either kind. -/
inductive Thread
  /-- One of the three searches. -/
  | finder (search : Search) (finder : Finder)
  /-- A thread of `random_swap`. -/
  | swapper (swapper : Swapper)
  deriving DecidableEq

/-- The list, the locks of its nodes and the counters of the threads. -/
structure Shared (ι : Type*) where
  /-- The first node of the list. -/
  first : Ptr
  /-- The heap of its nodes. -/
  heap : Heap Node
  /-- The locks of the nodes. -/
  locks : LockTable ι Ptr
  /-- The counter of each thread. -/
  countIncrement : ι → Nat

/-- What the environment decides at a step: nothing, or the random index. -/
inductive Event
  /-- It runs on. -/
  | go
  /-- It runs on with what `rand` returned. -/
  | index (index : Nat)
  deriving DecidableEq

/-- `p->next`. -/
def nextOf (heap : Heap Node) (p : Ptr) : Option Ptr := (heap.get p).map Node.next

/-- The locks taken by a search. -/
def Program.finderAccess : Program → Access
  | .mutex => .write
  | .rwlock => .read
  | .spinlock => .write

/-- How a thread asks for a lock. -/
def Thread.access (program : Program) : Thread → Access
  | .finder _ _ => program.finderAccess
  | .swapper _ => .write

/-- The lock a search is about to take. -/
def Finder.wants (finder : Finder) : Option Ptr :=
  match finder.pc with
  | .lockNode => some finder.node
  | .lockNext => some finder.next
  | .start | .readNext | .compare | .unlockNext | .unlockTmp | .unlockLast | .increment
  | .fault => none

/-- The lock `random_swap` is about to take. -/
def Swapper.wants (heap : Heap Node) (swapper : Swapper) : Option Ptr :=
  match swapper.pc with
  | .lockPrev => some swapper.prev
  | .lockCurrent => nextOf heap swapper.prev
  | .lockFuture => (nextOf heap swapper.prev).bind (nextOf heap)
  | .start | .test | .checkNext | .checkFuture | .advance | .unlockFuture | .unlockCurrent
  | .unlockNode | .leaveCurrent | .leavePrev | .increment | .fault => none

/-- The lock a thread is about to take. -/
def Thread.wants (heap : Heap Node) : Thread → Option Ptr
  | .finder _ locals => locals.wants
  | .swapper locals => locals.wants heap

variable [DecidableEq ι]

/-- Take a lock and go on; the thread stays where it is while the lock is not granted. -/
def Shared.lock (shared : Shared ι) (access : Access) (me : ι) (p : Ptr) (moved : Thread) :
    Option (Shared ι × Thread) :=
  (shared.locks.acquire access me p).map fun locks => ({ shared with locks := locks }, moved)

/-- Give a lock back and go on, or go wrong if it is not held. -/
def Shared.unlock (shared : Shared ι) (me : ι) (p : Ptr) (moved wrong : Thread) :
    Shared ι × Thread :=
  match shared.locks.release me p with
  | some locks => ({ shared with locks := locks }, moved)
  | none => (shared, wrong)

/-- `++count_increment` of a thread. -/
def Shared.count (shared : Shared ι) (me : ι) : Shared ι :=
  { shared with
    countIncrement := Function.update shared.countIncrement me (shared.countIncrement me + 1) }

/-- One step of `find_increasing`, `find_decreasing` or `find_equals`. -/
def find (program : Program) (search : Search) (me : ι) (shared : Shared ι) (finder : Finder) :
    Option (Shared ι × Thread) :=
  let goto (pc : FinderPc) : Thread := .finder search { finder with pc := pc }
  match finder.pc with
  | .start =>
    if shared.first = null then some (shared, goto .start)
    else
      match nextOf shared.heap shared.first with
      | none => some (shared, goto .fault)
      | some next =>
        if next = null then some (shared, goto .start)
        else some (shared, .finder search { finder with
          pc := .lockNode, node := shared.first, counter := 0 })
  | .lockNode => shared.lock program.finderAccess me finder.node (goto .readNext)
  | .readNext =>
    match nextOf shared.heap finder.node with
    | none => some (shared, goto .fault)
    | some next =>
      some (shared, .finder search { finder with
        pc := if next = null then .unlockLast else .lockNext, tmp := finder.node, next := next })
  | .lockNext => shared.lock program.finderAccess me finder.next (goto .compare)
  | .compare =>
    match shared.heap.get finder.node, shared.heap.get finder.next with
    | some left, some right =>
      some (shared, .finder search { finder with
        pc := .unlockNext
        counter :=
          if search.counts program left.value.strlen right.value.strlen then finder.counter + 1
          else finder.counter
        node := left.next })
    | _, _ => some (shared, goto .fault)
  | .unlockNext => some (shared.unlock me finder.next (goto .unlockTmp) (goto .fault))
  | .unlockTmp => some (shared.unlock me finder.tmp (goto .lockNode) (goto .fault))
  | .unlockLast => some (shared.unlock me finder.node (goto .increment) (goto .fault))
  | .increment => some (shared.count me, goto .start)
  | .fault => none

/-- One step of `random_swap`. -/
def randomSwap (me : ι) (shared : Shared ι) (swapper : Swapper) :
    Event → Option (Shared ι × Thread)
  | .index index =>
    let goto (pc : SwapperPc) : Thread := .swapper { swapper with pc := pc }
    match swapper.pc with
    | .start =>
      if shared.first = null then some (shared, goto .start)
      else
        match nextOf shared.heap shared.first with
        | none => some (shared, goto .fault)
        | some current =>
          if current = null then some (shared, goto .start)
          else
            match nextOf shared.heap current with
            | none => some (shared, goto .fault)
            | some future =>
              some (shared, .swapper { swapper with
                pc := .test, prev := shared.first, current := current, future := future
                index := index, i := 0 })
    | .test | .lockPrev | .checkNext | .lockCurrent | .checkFuture | .lockFuture | .advance
    | .unlockFuture | .unlockCurrent | .unlockNode | .leaveCurrent | .leavePrev | .increment
    | .fault => none
  | .go =>
    let goto (pc : SwapperPc) : Thread := .swapper { swapper with pc := pc }
    match swapper.pc with
    | .start => none
    | .test => some (shared, goto (if swapper.i < swapper.index then .lockPrev else .increment))
    | .lockPrev => shared.lock .write me swapper.prev (goto .checkNext)
    | .checkNext =>
      match nextOf shared.heap swapper.prev with
      | none => some (shared, goto .fault)
      | some next => some (shared, goto (if next = null then .leavePrev else .lockCurrent))
    | .lockCurrent =>
      match nextOf shared.heap swapper.prev with
      | none => some (shared, goto .fault)
      | some next => shared.lock .write me next (goto .checkFuture)
    | .checkFuture =>
      match (nextOf shared.heap swapper.prev).bind (nextOf shared.heap) with
      | none => some (shared, goto .fault)
      | some next => some (shared, goto (if next = null then .leaveCurrent else .lockFuture))
    | .lockFuture =>
      match (nextOf shared.heap swapper.prev).bind (nextOf shared.heap) with
      | none => some (shared, goto .fault)
      | some next => shared.lock .write me next (goto .advance)
    | .advance =>
      match nextOf shared.heap swapper.prev, nextOf shared.heap swapper.current,
          nextOf shared.heap swapper.future with
      | some prev, some current, some future =>
        some (shared, .swapper { swapper with
          pc := .unlockFuture, node := swapper.prev, prev := prev, current := current
          future := future })
      | _, _, _ => some (shared, goto .fault)
    | .unlockFuture =>
      match (nextOf shared.heap swapper.node).bind (nextOf shared.heap) with
      | none => some (shared, goto .fault)
      | some next => some (shared.unlock me next (goto .unlockCurrent) (goto .fault))
    | .unlockCurrent =>
      match nextOf shared.heap swapper.node with
      | none => some (shared, goto .fault)
      | some next => some (shared.unlock me next (goto .unlockNode) (goto .fault))
    | .unlockNode =>
      some (shared.unlock me swapper.node
        (.swapper { swapper with pc := .test, i := swapper.i + 1 }) (goto .fault))
    | .leaveCurrent =>
      match nextOf shared.heap swapper.prev with
      | none => some (shared, goto .fault)
      | some next => some (shared.unlock me next (goto .leavePrev) (goto .fault))
    | .leavePrev => some (shared.unlock me swapper.prev (goto .increment) (goto .fault))
    | .increment => some (shared.count me, goto .start)
    | .fault => none

/-- One step of a thread. -/
def step (program : Program) (me : ι) (shared : Shared ι) (mine : Thread) (event : Event) :
    Option (Shared ι × Thread) :=
  match mine with
  | .finder search finder =>
    match event with
    | .go => find program search me shared finder
    | .index _ => none
  | .swapper swapper => randomSwap me shared swapper event

/-- The process: any number of threads on one list. -/
abbrev Process (ι : Type*) := Threads.State ι (Shared ι) Thread

/-- One step of the process. -/
def next (program : Program) : Process ι → ι × Event → Option (Process ι) :=
  Threads.next (step program)

/-- The thread function a thread runs. -/
inductive Role
  /-- It runs a search. -/
  | find (search : Search)
  /-- It runs `random_swap`. -/
  | randomSwap
  deriving DecidableEq

/-- A thread before its first step. -/
def Role.thread : Role → Thread
  | .find search => .finder search ⟨.start, null, null, null, 0⟩
  | .randomSwap => .swapper ⟨.start, null, null, null, null, 0, 0⟩

/-- A list with free locks, all counters zero and every thread before its first step. -/
def Process.start (first : Ptr) (heap : Heap Node) (roles : ι → Role) : Process ι :=
  ⟨⟨first, heap, .free, fun _ => 0⟩, fun i => (roles i).thread⟩

end NsuOs.Storage
