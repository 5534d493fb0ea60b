import NsuOs.Base.Heap

/-!
# The linked queue of `queue_t`

All variants of the queue link and unlink nodes by the same statements; they differ in what
surrounds them. The statements are modelled here on a heap of nodes: following a pointer that is
null or freed gives `none`. `Cells` is the abstract view of a queue, the list of its nodes with
their values from first to last; `q->last` is meant only when that list is not empty.
-/
namespace NsuOs.Queues

/-- `qnode_t`. -/
structure Node where
  /-- `val`. -/
  val : Int32
  /-- `next`. -/
  next : Ptr
  deriving DecidableEq

/-- `queue_t`, without the thread identifier of its monitor. -/
structure Queue where
  /-- The first node, or null. -/
  first : Ptr
  /-- The last node; what it was when the queue is empty. -/
  last : Ptr
  /-- The number of nodes. -/
  count : Int
  /-- The number of nodes it may have. -/
  maxCount : Int
  /-- The calls of `queue_add` so far. -/
  addAttempts : Int
  /-- The calls of `queue_get` so far. -/
  getAttempts : Int
  /-- Those that added a value. -/
  addCount : Int
  /-- Those that took a value. -/
  getCount : Int
  deriving DecidableEq

/-- The fields as `queue_init` sets them. -/
def queueInit (maxCount : Int) : Queue := ⟨null, null, 0, maxCount, 0, 0, 0, 0⟩

/-- The statements of `queue_add` that link a node behind the last one and count it. -/
def Queue.append (q : Queue) (heap : Heap Node) (new : Ptr) : Option (Queue × Heap Node) :=
  if q.first = null then
    some ({ q with
      first := new, last := new, count := q.count + 1, addCount := q.addCount + 1 }, heap)
  else
    match heap.get q.last with
    | none => none
    | some node =>
      some ({ q with last := new, count := q.count + 1, addCount := q.addCount + 1 },
        heap.set q.last { node with next := new })

/-- The statements of `queue_get` that unlink the first node and count it: the queue left, the
node's address and its contents. -/
def Queue.take (q : Queue) (heap : Heap Node) : Option (Queue × Ptr × Node) :=
  match heap.get q.first with
  | none => none
  | some node =>
    some ({ q with first := node.next, count := q.count - 1, getCount := q.getCount + 1 },
      q.first, node)

/-- The nodes of a queue from first to last, each with its value. -/
structure Cells (heap : Heap Node) (q : Queue) (cells : List (Ptr × Int32)) : Prop where
  /-- The nodes are chained from the first one on. -/
  chain : Chain heap.get Node.next q.first (cells.map Prod.fst)
  /-- Each has its value. -/
  values : ∀ cell ∈ cells, (heap.get cell.1).map Node.val = some cell.2
  /-- The last one of them is `last`. -/
  last : ∀ front cell, cells = front ++ [cell] → q.last = cell.1
  /-- `count` is their number. -/
  count : q.count = cells.length

variable {heap after : Heap Node} {q q' : Queue} {cells : List (Ptr × Int32)}

/-- A fresh queue has no nodes. -/
theorem cells_init (heap : Heap Node) (maxCount : Int) : Cells heap (queueInit maxCount) [] where
  chain := rfl
  values := by simp
  last := by simp
  count := rfl

/-- The nodes depend on the two pointers, on the count and on the heap at the nodes. -/
theorem Cells.congr (known : Cells heap q cells)
    (same : ∀ p ∈ cells.map Prod.fst, after.get p = heap.get p) (first : q'.first = q.first)
    (last : q'.last = q.last) (count : q'.count = q.count) : Cells after q' cells where
  chain := by
    rw [first]
    apply known.chain.congr
    intro p member
    rw [same p member]
  values := by
    intro cell member
    rw [same cell.1 (List.mem_map_of_mem member)]
    exact known.values cell member
  last := by
    rw [last]
    exact known.last
  count := count.trans known.count

/-- Linking a node counts no attempt. -/
theorem append_attempts {new : Ptr} (linked : q.append heap new = some (q', after)) :
    q'.addAttempts = q.addAttempts ∧ q'.getAttempts = q.getAttempts := by
  unfold Queue.append at linked
  split at linked
  · cases linked
    exact ⟨rfl, rfl⟩
  · split at linked
    · cases linked
    · cases linked
      exact ⟨rfl, rfl⟩

/-- Unlinking a node counts no attempt. -/
theorem take_attempts {p : Ptr} {node : Node} (unlinked : q.take heap = some (q', p, node)) :
    q'.addAttempts = q.addAttempts ∧ q'.getAttempts = q.getAttempts := by
  unfold Queue.take at unlinked
  split at unlinked
  · cases unlinked
  · cases unlinked
    exact ⟨rfl, rfl⟩

/-- A queue without nodes has no first one. -/
theorem Cells.first_eq_null (known : Cells heap q []) : q.first = null := known.chain

/-- A queue with nodes starts at the first of them, which is live. -/
theorem Cells.first_eq {cell : Ptr × Int32} {rest : List (Ptr × Int32)}
    (known : Cells heap q (cell :: rest)) :
    q.first = cell.1 ∧ cell.1 ≠ null ∧
      ∃ node, heap.get cell.1 = some node ∧ node.val = cell.2 ∧
        Chain heap.get Node.next node.next (rest.map Prod.fst) := by
  obtain ⟨start, nonnull, node, here, later⟩ := known.chain
  have value := known.values cell List.mem_cons_self
  rw [here, Option.map_some, Option.some.injEq] at value
  exact ⟨start, nonnull, node, here, value, later⟩

/-- Every node of a queue is live. -/
theorem Cells.live (known : Cells heap q cells) {p : Ptr} (member : p ∈ cells.map Prod.fst) :
    heap.get p ≠ none := by
  obtain ⟨-, node, here⟩ := known.chain.live member
  simp [here]

/-- What linking a node with a value does to a queue and to the heap. -/
structure Appended (heap : Heap Node) (q : Queue) (cells : List (Ptr × Int32)) (new : Ptr)
    (val : Int32) (q' : Queue) (after : Heap Node) : Prop where
  /-- The node is at the end of the queue. -/
  longer : Cells after q' (cells ++ [(new, val)])
  /-- The nodes outside the queue are as they were. -/
  frame : ∀ p, p ∉ cells.map Prod.fst → after.get p = heap.get p
  /-- The same nodes live. -/
  live : ∀ p, after.get p = none ↔ heap.get p = none
  /-- One more value was added. -/
  addCount : q'.addCount = q.addCount + 1
  /-- None was taken. -/
  getCount : q'.getCount = q.getCount
  /-- The bound is as it was. -/
  maxCount : q'.maxCount = q.maxCount

/-- The last of a list with one more element is that element. -/
theorem last_snoc {front before : List (Ptr × Int32)} {cell added : Ptr × Int32}
    (split : before ++ [added] = front ++ [cell]) : cell = added := by
  have lasts := congrArg List.getLast? split
  simpa using lasts.symm

/-- The first node of an empty queue becomes its first and last one. -/
theorem Cells.append_first (known : Cells heap q []) {new : Ptr} {val : Int32}
    (placed : heap.get new = some ⟨val, null⟩) (nonnull : new ≠ null) :
    ∃ q' after, q.append heap new = some (q', after) ∧ Appended heap q [] new val q' after := by
  have empty : q.first = null := known.first_eq_null
  have zero : q.count = 0 := known.count
  refine ⟨_, heap, if_pos empty, ?_⟩
  refine ⟨⟨⟨rfl, nonnull, _, placed, rfl⟩, ?_, ?_, ?_⟩, fun _ _ => rfl, fun _ => Iff.rfl, rfl, rfl,
    rfl⟩
  · intro cell member
    have same : cell = (new, val) := by simpa using member
    simp [same, placed]
  · intro front cell split
    have same : cell = (new, val) := last_snoc split
    rw [same]
  · simp [zero]

/-- A node of the queue that is not null and is reached from its first one makes the queue
non-empty for `queue_add`. -/
theorem Cells.first_ne_null {front : List (Ptr × Int32)} {cell : Ptr × Int32}
    (known : Cells heap q (front ++ [cell])) : q.first ≠ null := by
  intro empty
  have chain := known.chain
  rw [empty] at chain
  cases front with
  | nil => exact absurd chain.1.symm chain.2.1
  | cons head tail => exact absurd chain.1.symm chain.2.1

/-- Another node is linked behind the last one. -/
theorem Cells.append_behind {front : List (Ptr × Int32)} {cell : Ptr × Int32}
    (known : Cells heap q (front ++ [cell])) {new : Ptr} {val : Int32}
    (placed : heap.get new = some ⟨val, null⟩) (nonnull : new ≠ null)
    (fresh : new ∉ (front ++ [cell]).map Prod.fst) :
    ∃ q' after, q.append heap new = some (q', after) ∧
      Appended heap q (front ++ [cell]) new val q' after := by
  have lastly : q.last = cell.1 := known.last front cell rfl
  have started : q.first ≠ null := known.first_ne_null
  have counted := known.count
  have chain := known.chain
  have nodup := known.chain.nodup
  obtain ⟨-, node, here⟩ : cell.1 ≠ null ∧ ∃ node, heap.get cell.1 = some node :=
    chain.live (by simp)
  have apart : new ≠ cell.1 := by
    rintro rfl
    exact fresh (by simp)
  have elsewhere : ∀ p, p ≠ cell.1 →
      (heap.set cell.1 { node with next := new }).get p = heap.get p := by
    intro p other
    simp [other]
  have linking : q.append heap new = some ({ q with
      last := new, count := q.count + 1, addCount := q.addCount + 1 },
      heap.set cell.1 { node with next := new }) := by
    simp only [Queue.append, started, if_false, lastly, here]
  refine ⟨_, _, linking, ⟨?_, ?_, ?_, ?_⟩, ?_, ?_, rfl, rfl, rfl⟩
  · rw [List.map_append, List.map_singleton] at chain nodup
    have kept : ∀ p ∈ front.map Prod.fst,
        ((heap.set cell.1 { node with next := new }).get p).map Node.next =
          (heap.get p).map Node.next := by
      intro p member
      have other : p ≠ cell.1 := (List.nodup_append.mp nodup).2.2 p member cell.1 (by simp)
      rw [elsewhere p other]
    have points : (heap.set cell.1 { node with next := new }).get cell.1 =
        some { node with next := new } := by
      simp [here]
    have longer := chain.link kept points rfl nonnull ((elsewhere new apart).trans placed) rfl
    simpa using longer
  · intro other member
    rcases List.mem_append.mp member with old | added
    · have value := known.values other old
      by_cases same : other.1 = cell.1
      · rw [same, here, Option.map_some, Option.some.injEq] at value
        simp [same, here, value]
      · rw [elsewhere other.1 same]
        exact value
    · have same : other = (new, val) := by simpa using added
      rw [same, elsewhere new apart, placed]
      rfl
  · intro before cell' split
    have same : cell' = (new, val) := last_snoc split
    rw [same]
  · simp only [counted, List.length_append, List.length_singleton]
    omega
  · intro p outside
    apply elsewhere p
    rintro rfl
    exact outside (by simp)
  · intro p
    by_cases same : p = cell.1
    · simp [same]
    · simp [same]

/-- Linking a private node appends it, follows no bad pointer and leaves the other cells of the
heap alone. -/
theorem Cells.append (known : Cells heap q cells) {new : Ptr} {val : Int32}
    (placed : heap.get new = some ⟨val, null⟩) (nonnull : new ≠ null)
    (fresh : new ∉ cells.map Prod.fst) :
    ∃ q' after, q.append heap new = some (q', after) ∧ Appended heap q cells new val q' after := by
  rcases List.eq_nil_or_concat' cells with rfl | ⟨front, cell, rfl⟩
  · exact known.append_first placed nonnull
  · exact known.append_behind placed nonnull fresh

/-- Unlinking follows no bad pointer and gives the first node; the others stay. -/
theorem Cells.take {cell : Ptr × Int32} {rest : List (Ptr × Int32)}
    (known : Cells heap q (cell :: rest)) :
    ∃ q' node, q.take heap = some (q', cell.1, node) ∧ node.val = cell.2 ∧ Cells heap q' rest ∧
      cell.1 ∉ rest.map Prod.fst ∧ q'.count = q.count - 1 ∧ q'.getCount = q.getCount + 1 ∧
      q'.addCount = q.addCount ∧ q'.maxCount = q.maxCount := by
  obtain ⟨start, nonnull, node, here, value, later⟩ := known.first_eq
  have unlinking : q.take heap = some ({ q with
      first := node.next, count := q.count - 1, getCount := q.getCount + 1 }, cell.1, node) := by
    simp only [Queue.take, start, here]
  refine ⟨_, node, unlinking, value, ?_, ?_, rfl, rfl, rfl, rfl⟩
  · constructor
    · exact later
    · intro other member
      exact known.values other (List.mem_cons_of_mem cell member)
    · intro front last split
      exact known.last (cell :: front) last (by rw [split, List.cons_append])
    · have counted := known.count
      simp only [List.length_cons, Nat.cast_add, Nat.cast_one] at counted
      simp only [counted]
      omega
  · exact (List.nodup_cons.mp known.chain.nodup).1

end NsuOs.Queues
