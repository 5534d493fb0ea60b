import NsuOs.Base.Run
import NsuOs.Queues.Locked

/-!
# The queue used by one thread

`queue.c` without any lock: `queue_add` allocates only when the queue is not full, `queue_get` reads
the first node, unlinks and frees it and leaves `q->last` as it is. A call is given with the address
that `malloc` would return. The queue refines a list of bounded length: what the calls return is
what the list returns, and following a null or freed pointer or a failing `assert`, which would be
recorded as outcomes of their own, do not occur.
-/
namespace NsuOs.Queues.Single

open NsuOs.Run
open NsuOs.Queues.Locked (Call Result)

/-- How a call ends: it returns, it follows or frees a null or freed pointer, or an `assert`
fails. -/
inductive Outcome
  /-- It returned. -/
  | returned (result : Result)
  /-- It followed a bad pointer. -/
  | fault
  /-- An `assert` failed. -/
  | aborted
  deriving DecidableEq

/-- The queue, its heap and how the calls so far ended. -/
structure State where
  /-- The queue. -/
  queue : Queue
  /-- The heap of its nodes. -/
  heap : Heap Node
  /-- How each call so far ended. -/
  outcomes : List Outcome

/-- The queue after a call, with its outcome. -/
def State.ends (state : State) (queue : Queue) (heap : Heap Node) (outcome : Outcome) : State :=
  ⟨queue, heap, state.outcomes ++ [outcome]⟩

/-- `queue_add`; `none` when `malloc` cannot return the address. -/
def queueAdd (state : State) (val : Int32) (p : Ptr) : Option State :=
  if ¬state.queue.count ≤ state.queue.maxCount then
    some (state.ends state.queue state.heap .aborted)
  else
    let queue := { state.queue with addAttempts := state.queue.addAttempts + 1 }
    if queue.count = queue.maxCount then some (state.ends queue state.heap (.returned .full))
    else if state.heap.Unused p then
      let heap := state.heap.alloc p ⟨val, null⟩
      match queue.append heap p with
      | none => some (state.ends queue heap .fault)
      | some (queue, heap) => some (state.ends queue heap (.returned .added))
    else none

/-- `queue_get`. -/
def queueGet (state : State) : State :=
  if ¬state.queue.count ≤ state.queue.maxCount then state.ends state.queue state.heap .aborted
  else
    let queue := { state.queue with getAttempts := state.queue.getAttempts + 1 }
    if ¬queue.count ≥ 0 then state.ends queue state.heap .aborted
    else if queue.count = 0 then state.ends queue state.heap (.returned .empty)
    else
      match queue.take state.heap with
      | none => state.ends queue state.heap .fault
      | some (queue, tmp, node) =>
        state.ends queue (state.heap.free tmp) (.returned (.got node.val))

/-- One call, with the address `malloc` returns if it is called. -/
def next (state : State) (label : Call × Ptr) : Option State :=
  match label.1 with
  | .add val => queueAdd state val label.2
  | .get => some (queueGet state)

/-- The queue as `queue_init` leaves it. -/
def State.start (maxCount : Int) : State := ⟨queueInit maxCount, .empty, []⟩

/-- A call on a list of bounded length. -/
def bounded (capacity : Int) (contents : List Int32) : Call → Result × List Int32
  | .add val =>
    if contents.length = capacity then (.full, contents) else (.added, contents ++ [val])
  | .get =>
    match contents with
    | [] => (.empty, [])
    | val :: rest => (.got val, rest)

/-- What a sequence of calls leaves in a list of bounded length, and what they return. -/
def boundedRun (capacity : Int) (calls : List Call) : List Int32 × List Result :=
  calls.foldl (fun before call =>
    ((bounded capacity before.1 call).2, before.2 ++ [(bounded capacity before.1 call).1])) ([], [])

/-- Whether a call is a `queue_add`. -/
def isAdd : Call → Bool
  | .add _ => true
  | .get => false

/-- The queue stands for a list of values, after the given calls. -/
structure Refines (maxCount : Int) (calls : List Call) (state : State)
    (cells : List (Ptr × Int32)) : Prop where
  /-- The queue has these nodes. -/
  nodes : Cells state.heap state.queue cells
  /-- Their values are those of the list. -/
  values : cells.map Prod.snd = (boundedRun maxCount calls).1
  /-- The calls returned what the list gives. -/
  outcomes : state.outcomes = (boundedRun maxCount calls).2.map Outcome.returned
  /-- The bound is the one the queue was made with. -/
  capacity : state.queue.maxCount = maxCount
  /-- There are not more values in the queue than it may have. -/
  bound : state.queue.count ≤ maxCount
  /-- `count` is the difference of the two counters. -/
  counts : state.queue.addCount - state.queue.getCount = state.queue.count
  /-- `add_attempts` counts the calls of `queue_add`. -/
  adds : state.queue.addAttempts = calls.countP isAdd
  /-- `get_attempts` counts the calls of `queue_get`. -/
  gets : state.queue.getAttempts = calls.countP fun call => !isAdd call

/-- One more call on the list. -/
theorem boundedRun_snoc (capacity : Int) (calls : List Call) (call : Call) :
    boundedRun capacity (calls ++ [call]) =
      ((bounded capacity (boundedRun capacity calls).1 call).2,
        (boundedRun capacity calls).2 ++
          [(bounded capacity (boundedRun capacity calls).1 call).1]) := by
  simp [boundedRun]

/-- A fresh queue stands for the empty list. -/
theorem refines_start {maxCount : Int} (nonnegative : 0 ≤ maxCount) :
    Refines maxCount [] (.start maxCount) [] where
  nodes := cells_init .empty maxCount
  values := rfl
  outcomes := rfl
  capacity := rfl
  bound := nonnegative
  counts := rfl
  adds := rfl
  gets := rfl

section Steps

variable {maxCount : Int} {calls : List Call} {state after : State} {cells : List (Ptr × Int32)}

/-- A `queue_add` is the call on the list. -/
theorem Refines.add (refines : Refines maxCount calls state cells) {val : Int32} {p : Ptr}
    (step : queueAdd state val p = some after) :
    ∃ later, Refines maxCount (calls ++ [.add val]) after later := by
  have fine : state.queue.count ≤ state.queue.maxCount := by
    rw [refines.capacity]
    exact refines.bound
  have length : ((boundedRun maxCount calls).1.length : Int) = state.queue.count := by
    rw [← refines.values, List.length_map, refines.nodes.count]
  simp only [queueAdd, fine, not_true_eq_false, if_false] at step
  by_cases full : state.queue.count = state.queue.maxCount
  · have refused : bounded maxCount (boundedRun maxCount calls).1 (.add val) =
        (.full, (boundedRun maxCount calls).1) := by
      rw [bounded, if_pos (by rw [length, full, refines.capacity])]
    rw [if_pos full] at step
    obtain rfl := Option.some.inj step
    refine ⟨cells, refines.nodes.congr (fun _ _ => rfl) rfl rfl rfl, ?_, ?_, refines.capacity,
      refines.bound, refines.counts, ?_, ?_⟩
    · rw [boundedRun_snoc, refused]
      exact refines.values
    · rw [boundedRun_snoc, refused]
      simp [State.ends, refines.outcomes]
    · simp [State.ends, refines.adds, isAdd]
    · simp [State.ends, refines.gets, isAdd]
  · have accepted : bounded maxCount (boundedRun maxCount calls).1 (.add val) =
        (.added, (boundedRun maxCount calls).1 ++ [val]) := by
      rw [bounded, if_neg (by rwa [length, ← refines.capacity])]
    rw [if_neg full] at step
    obtain ⟨unused, linked⟩ := Option.ite_none_right_eq_some.mp step
    have dead : state.heap.get p = none := unused.get
    have apart : p ∉ cells.map Prod.fst := fun member => refines.nodes.live member dead
    have placed : (state.heap.alloc p ⟨val, null⟩).get p = some ⟨val, null⟩ := by simp
    have kept : Cells (state.heap.alloc p ⟨val, null⟩)
        { state.queue with addAttempts := state.queue.addAttempts + 1 } cells := by
      refine refines.nodes.congr ?_ rfl rfl rfl
      intro q member
      have other : q ≠ p := fun same => apart (same ▸ member)
      simp [other]
    obtain ⟨queue, heap, appends, appended⟩ := kept.append placed unused.1 apart
    rw [appends] at linked
    obtain rfl := Option.some.inj linked
    have count : queue.count = state.queue.count + 1 := by
      have longer := appended.longer.count
      have before := refines.nodes.count
      simp only [List.length_append, List.length_singleton, Nat.cast_add, Nat.cast_one] at longer
      omega
    have below : state.queue.count < maxCount := by
      have capacity := refines.capacity
      omega
    refine ⟨cells ++ [(p, val)], appended.longer, ?_, ?_, ?_, ?_, ?_, ?_, ?_⟩
    · rw [boundedRun_snoc, accepted]
      simp [refines.values]
    · rw [boundedRun_snoc, accepted]
      simp [State.ends, refines.outcomes]
    · exact appended.maxCount.trans refines.capacity
    · change queue.count ≤ maxCount
      omega
    · have adds := appended.addCount
      have gets := appended.getCount
      have counts := refines.counts
      simp only at adds gets
      change queue.addCount - queue.getCount = queue.count
      omega
    · have attempts := (append_attempts appends).1
      rw [List.countP_append, Nat.cast_add, ← refines.adds]
      exact attempts
    · have attempts := (append_attempts appends).2
      rw [List.countP_append, Nat.cast_add, ← refines.gets]
      simpa [isAdd, State.ends] using attempts

/-- A `queue_get` is the call on the list. -/
theorem Refines.get (refines : Refines maxCount calls state cells) :
    ∃ later, Refines maxCount (calls ++ [.get]) (queueGet state) later := by
  have fine : state.queue.count ≤ state.queue.maxCount := by
    rw [refines.capacity]
    exact refines.bound
  have counted := refines.nodes.count
  have nonnegative : state.queue.count ≥ 0 := by omega
  simp only [queueGet, fine, nonnegative, not_true_eq_false, if_false]
  cases cells with
  | nil =>
    have contents : (boundedRun maxCount calls).1 = [] := refines.values.symm
    have zero : state.queue.count = 0 := counted
    rw [if_pos zero]
    refine ⟨[], refines.nodes.congr (fun _ _ => rfl) rfl rfl rfl, ?_, ?_, refines.capacity,
      refines.bound, refines.counts, ?_, ?_⟩
    · rw [boundedRun_snoc, contents]
      rfl
    · rw [boundedRun_snoc, contents]
      simp [State.ends, refines.outcomes, bounded]
    · simp [State.ends, refines.adds, isAdd]
    · simp [State.ends, refines.gets, isAdd]
  | cons cell rest =>
    have contents : (boundedRun maxCount calls).1 = cell.2 :: rest.map Prod.snd :=
      refines.values.symm
    have some : ¬state.queue.count = 0 := by
      simp only [List.length_cons, Nat.cast_add, Nat.cast_one] at counted
      omega
    have kept : Cells state.heap
        { state.queue with getAttempts := state.queue.getAttempts + 1 } (cell :: rest) :=
      refines.nodes.congr (fun _ _ => rfl) rfl rfl rfl
    obtain ⟨queue, node, takes, value, others, outside, count, gets, adds, capacity⟩ := kept.take
    have attempts := take_attempts takes
    rw [if_neg some, takes]
    refine ⟨rest, ?_, ?_, ?_, capacity.trans refines.capacity, ?_, ?_, ?_, ?_⟩
    · refine others.congr ?_ rfl rfl rfl
      intro p member
      have other : p ≠ cell.1 := fun same => outside (same ▸ member)
      simp [State.ends, other]
    · rw [boundedRun_snoc, contents]
      rfl
    · rw [boundedRun_snoc, contents]
      simp [State.ends, refines.outcomes, bounded, value]
    · have bound := refines.bound
      simp only at count
      change queue.count ≤ maxCount
      omega
    · have counts := refines.counts
      simp only at count gets adds
      change queue.addCount - queue.getCount = queue.count
      omega
    · rw [List.countP_append, Nat.cast_add, ← refines.adds]
      simpa [isAdd, State.ends] using attempts.1
    · rw [List.countP_append, Nat.cast_add, ← refines.gets]
      exact attempts.2

/-- One more call keeps the queue and the list together. -/
theorem Refines.next (refines : Refines maxCount calls state cells) {label : Call × Ptr}
    (step : next state label = some after) :
    ∃ later, Refines maxCount (calls ++ [label.1]) after later := by
  obtain ⟨call, p⟩ := label
  cases call with
  | add val => exact refines.add step
  | get =>
    obtain rfl := Option.some.inj step
    exact refines.get

/-- After every sequence of calls the queue stands for the list. -/
theorem refines_run (nonnegative : 0 ≤ maxCount) {labels : List (Call × Ptr)}
    (run : exec Single.next (.start maxCount) labels = some state) :
    ∃ cells, Refines maxCount (labels.map Prod.fst) state cells := by
  refine exec_induct (motive := fun labels state =>
    ∃ cells, Refines maxCount (labels.map Prod.fst) state cells)
    ⟨[], refines_start nonnegative⟩ ?_ run
  rintro labels before label after - ⟨cells, refines⟩ step
  rw [List.map_append]
  exact refines.next step

/-- Every call can be made: some address is free for `malloc`. -/
theorem next_possible (state : State) (call : Call) :
    ∃ p after, Single.next state (call, p) = some after := by
  cases call with
  | get => exact ⟨null, _, rfl⟩
  | add val =>
    have unused : state.heap.Unused (state.heap.bound + 1) := by
      refine ⟨Nat.succ_ne_zero _, ?_⟩
      simp [Heap.number, state.heap.below]
    refine ⟨state.heap.bound + 1, ?_⟩
    simp only [Single.next, queueAdd, unused, if_true]
    split
    · exact ⟨_, rfl⟩
    · split
      · exact ⟨_, rfl⟩
      · split
        · exact ⟨_, rfl⟩
        · exact ⟨_, rfl⟩

end Steps

/-- After `queue_init` and every sequence of calls, whatever unused addresses `malloc` returns: the
nodes from `first` on are as many as `count` says and none occurs twice, `first` is null exactly
when there are none and otherwise `last` is the last of them; every call has returned what a list of
bounded length returns, so no `assert` failed and no null or freed node was followed; the counters
are right; and any further call can be made. -/
theorem queue_refines_fifo {maxCount : Int} (nonnegative : 0 ≤ maxCount)
    {labels : List (Call × Ptr)} {state : State}
    (run : exec next (.start maxCount) labels = some state) :
    (∃ nodes, Chain state.heap.get Node.next state.queue.first nodes ∧ nodes.Nodup ∧
      (nodes.length : Int) = state.queue.count ∧
      (state.queue.first ≠ null → nodes.getLast? = some state.queue.last)) ∧
    (state.queue.first = null ↔ state.queue.count = 0) ∧
    state.outcomes = (boundedRun maxCount (labels.map Prod.fst)).2.map Outcome.returned ∧
    state.queue.addCount - state.queue.getCount = state.queue.count ∧
    state.queue.addAttempts = (labels.map Prod.fst).countP isAdd ∧
    state.queue.getAttempts = (labels.map Prod.fst).countP (fun call => !isAdd call) ∧
    ∀ call, ∃ p after, next state (call, p) = some after := by
  obtain ⟨cells, refines⟩ := refines_run nonnegative run
  have chain := refines.nodes.chain
  have counted := refines.nodes.count
  refine ⟨⟨cells.map Prod.fst, chain, chain.nodup, ?_, ?_⟩, ?_, refines.outcomes, refines.counts,
    refines.adds, refines.gets, next_possible state⟩
  · rw [List.length_map, counted]
  · intro present
    rcases List.eq_nil_or_concat' cells with rfl | ⟨front, cell, rfl⟩
    · exact absurd chain present
    · have lastly := refines.nodes.last front cell rfl
      simp [lastly]
  · cases cells with
    | nil =>
      have empty := refines.nodes.first_eq_null
      exact iff_of_true empty counted
    | cons cell rest =>
      obtain ⟨start, nonnull, -⟩ := refines.nodes.first_eq
      refine iff_of_false (by rwa [start]) ?_
      simp only [List.length_cons, Nat.cast_add, Nat.cast_one] at counted
      omega

/-- Two values go through a queue of capacity one, whose only address is used again. -/
theorem queue_refines_fifo_reuse :
    ∃ state, exec next (.start 1) [(.add 7, 3), (.add 8, 4), (.get, 0), (.add 9, 3), (.get, 0),
        (.get, 0)] = some state ∧
      state.outcomes = [.returned .added, .returned .full, .returned (.got 7), .returned .added,
        .returned (.got 9), .returned .empty] := by
  have ended : (exec next (.start 1) [(.add 7, 3), (.add 8, 4), (.get, 0), (.add 9, 3), (.get, 0),
      (.get, 0)]).isSome := by
    decide +kernel
  obtain ⟨state, run⟩ := Option.isSome_iff_exists.mp ended
  obtain ⟨-, -, outcomes, -⟩ := queue_refines_fifo (by decide) run
  exact ⟨state, run, outcomes⟩

end NsuOs.Queues.Single
