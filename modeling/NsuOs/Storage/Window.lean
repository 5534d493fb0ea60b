import NsuOs.Storage.SwapCounts

/-!
# The window of `random_swap`

`random_swap` moves three pointers along the list, each on its own, and tests only the successors of
the first. On a list of at least two nodes nobody writes, its steps are those of `Move`, and from
them follow the place of the window in the list, the locks of an iteration, and the node the walk
ends at.
-/
namespace NsuOs.Storage

open NsuOs.Run

variable {ι : Type*} {first : Ptr} {heap : Heap Node} {nodes : List Ptr}

section Position

/-- How far `random_swap` has come: the window starts at position `i`, and the walk ends at the
position of the index or at the last but one node. -/
def Swapper.Reached (nodes : List Ptr) (swapper : Swapper) : Prop :=
  match swapper.pc with
  | .test => nodes.idxOf swapper.prev = swapper.i ∧ swapper.i ≤ swapper.index
  | .lockPrev | .checkNext | .lockCurrent | .checkFuture | .lockFuture | .advance =>
    nodes.idxOf swapper.prev = swapper.i ∧ swapper.i < swapper.index
  | .unlockFuture | .unlockCurrent | .unlockNode =>
    nodes.idxOf swapper.node = swapper.i ∧ swapper.i < swapper.index
  | .leaveCurrent | .leavePrev | .increment =>
    nodes[min swapper.index (nodes.length - 2)]? = some swapper.prev
  | .start | .fault => True

/-- Every move keeps the position. -/
theorem Move.reached {swapper onward : Swapper} {effect : Effect}
    (linked : Linked first heap nodes) (placed : swapper.Placed nodes)
    (move : Move nodes swapper effect onward) (reached : swapper.Reached nodes) :
    onward.Reached nodes := by
  have nodup := linked.chain.nodup
  cases move with
  | begins chosen whole => simp [Swapper.Reached, whole]
  | enters more => exact ⟨reached.1, more⟩
  | ends done =>
    rename_i prev current future node index i
    obtain ⟨rest, suffix, -⟩ := placed
    obtain ⟨position, bound⟩ := reached
    have behind := idxOf_suffix nodup suffix
    have here := List.getElem?_idxOf (suffix.subset (List.mem_cons_self (a := prev)))
    simp only [List.length_cons] at position bound behind
    have least : min index (nodes.length - 2) = nodes.idxOf prev := by omega
    simpa [Swapper.Reached, least] using here
  | breaks last =>
    rename_i prev current future node index i
    obtain ⟨position, bound⟩ := reached
    have behind := idxOf_suffix nodup last
    have here := List.getElem?_idxOf (last.subset (List.mem_cons_self (a := prev)))
    simp only [List.length_cons, List.length_nil] at position bound behind
    have least : min index (nodes.length - 2) = nodes.idxOf prev := by omega
    simpa [Swapper.Reached, least] using here
  | unlocksNode window =>
    rename_i prev current future node index i rest
    obtain ⟨position, bound⟩ := reached
    have front := idxOf_suffix nodup window
    have behind := idxOf_suffix nodup ((List.suffix_cons node _).trans window)
    simp only [List.length_cons] at position bound front behind
    exact ⟨show nodes.idxOf prev = i + 1 by omega, bound⟩
  | locksPrev | seesNext | locksCurrent | seesFuture | locksFuture | advances | unlocksFuture
  | unlocksCurrent | leavesCurrent | leavesPrev => exact reached
  | counts => trivial

end Position

section Locks

/-- The lock `random_swap` is about to give back. -/
def Swapper.gives (heap : Heap Node) (swapper : Swapper) : Option Ptr :=
  match swapper.pc with
  | .unlockFuture => (nextOf heap swapper.node).bind (nextOf heap)
  | .unlockCurrent => nextOf heap swapper.node
  | .unlockNode => some swapper.node
  | .leaveCurrent => nextOf heap swapper.prev
  | .leavePrev => some swapper.prev
  | .start | .test | .lockPrev | .checkNext | .lockCurrent | .checkFuture | .lockFuture | .advance
  | .increment | .fault => none

/-- The locks taken and given back in an iteration, in order. -/
structure Locked where
  /-- The locks taken, in order. -/
  taken : List Ptr
  /-- The locks given back, in order. -/
  given : List Ptr
  deriving DecidableEq

/-- What a step of a thread adds; the head of the for loop starts a new iteration. -/
def Thread.note (heap : Heap Node) (locked : Locked) : Thread → Locked
  | .finder _ _ => locked
  | .swapper locals =>
    if locals.pc = .test then ⟨[], []⟩
    else ⟨locked.taken ++ (locals.wants heap).toList, locked.given ++ (locals.gives heap).toList⟩

/-- The locks of the present iteration of a thread, at the end of a run. -/
def iterationLocks [DecidableEq ι] (program : Program) (me : ι) :
    Process ι → List (ι × Event) → Locked → Locked
  | _, [], locked => locked
  | process, label :: rest, locked =>
    match next program process label with
    | none => locked
    | some after =>
      iterationLocks program me after rest
        (if label.1 = me then (process.thread me).note process.shared.heap locked else locked)

/-- The last step of a run adds to what its other steps have added. -/
theorem iterationLocks_snoc [DecidableEq ι] {program : Program} {me : ι}
    {start middle after : Process ι} {labels : List (ι × Event)} {label : ι × Event}
    (run : exec (next program) start labels = some middle)
    (taken : next program middle label = some after) (locked : Locked) :
    iterationLocks program me start (labels ++ [label]) locked =
      if label.1 = me then
        (middle.thread me).note middle.shared.heap (iterationLocks program me start labels locked)
      else iterationLocks program me start labels locked := by
  induction labels generalizing start locked with
  | nil =>
    obtain rfl := Option.some.inj run
    simp [iterationLocks, taken]
  | cons first rest ih =>
    obtain ⟨onward, step, later⟩ := Option.bind_eq_some_iff.mp run
    simp only [List.cons_append, iterationLocks, step]
    exact ih later _

/-- What `random_swap` has taken and given back in its iteration, by its place; at the head of the
loop, in the iteration that just ended. -/
def Swapper.Booked (nodes : List Ptr) (swapper : Swapper) (locked : Locked) : Prop :=
  match swapper.pc with
  | .test => 0 < swapper.i →
    [swapper.node, swapper.prev, swapper.current] <:+: nodes ∧
      locked = ⟨[swapper.node, swapper.prev, swapper.current],
        [swapper.current, swapper.prev, swapper.node]⟩
  | .lockPrev => locked = ⟨[], []⟩
  | .checkNext | .lockCurrent => locked = ⟨[swapper.prev], []⟩
  | .checkFuture | .lockFuture => locked = ⟨[swapper.prev, swapper.current], []⟩
  | .advance => locked = ⟨[swapper.prev, swapper.current, swapper.future], []⟩
  | .unlockFuture => locked = ⟨[swapper.node, swapper.prev, swapper.current], []⟩
  | .unlockCurrent =>
    locked = ⟨[swapper.node, swapper.prev, swapper.current], [swapper.current]⟩
  | .unlockNode =>
    locked = ⟨[swapper.node, swapper.prev, swapper.current], [swapper.current, swapper.prev]⟩
  | .start | .leaveCurrent | .leavePrev | .increment | .fault => True

/-- Every move books the lock it takes or gives back. -/
theorem Move.booked {swapper onward : Swapper} {effect : Effect} {locked : Locked}
    (linked : Linked first heap nodes) (placed : swapper.Placed nodes)
    (move : Move nodes swapper effect onward) (booked : swapper.Booked nodes locked) :
    onward.Booked nodes ((Thread.swapper swapper).note heap locked) := by
  cases move with
  | begins chosen whole => simp [Swapper.Booked]
  | enters more => simp [Swapper.Booked, Thread.note]
  | locksPrev =>
    obtain rfl := booked
    simp [Swapper.Booked, Thread.note, Swapper.wants, Swapper.gives]
  | seesNext =>
    obtain rfl := booked
    simp [Swapper.Booked, Thread.note, Swapper.wants, Swapper.gives]
  | locksCurrent =>
    obtain rfl := booked
    obtain ⟨rest, suffix, -⟩ := placed
    have near := (linked.nextOf_two suffix).1
    simp [Swapper.Booked, Thread.note, Swapper.wants, Swapper.gives, near]
  | seesFuture =>
    obtain rfl := booked
    simp [Swapper.Booked, Thread.note, Swapper.wants, Swapper.gives]
  | locksFuture =>
    obtain rfl := booked
    obtain ⟨rest, suffix⟩ := placed
    have far := (linked.nextOf_two suffix).2
    simp [Swapper.Booked, Thread.note, Swapper.wants, Swapper.gives, far, following]
  | advances window =>
    obtain rfl := booked
    simp [Swapper.Booked, Thread.note, Swapper.wants, Swapper.gives]
  | unlocksFuture =>
    obtain rfl := booked
    obtain ⟨rest, suffix, -⟩ := placed
    have far := (linked.nextOf_two suffix).2
    simp [Swapper.Booked, Thread.note, Swapper.wants, Swapper.gives, far, following]
  | unlocksCurrent =>
    obtain rfl := booked
    obtain ⟨rest, suffix, -⟩ := placed
    have near := (linked.nextOf_two suffix).1
    simp [Swapper.Booked, Thread.note, Swapper.wants, Swapper.gives, near]
  | unlocksNode window =>
    obtain rfl := booked
    have inside := infix_of_suffix [_, _, _] window
    simp [Swapper.Booked, Thread.note, Swapper.wants, Swapper.gives, inside]
  | ends | breaks | leavesCurrent | leavesPrev | counts => trivial

/-- The pointers `random_swap` follows at its place, with those it reads on the way. -/
def Swapper.follows (heap : Heap Node) (swapper : Swapper) : List Ptr :=
  let next (p : Ptr) : Ptr := (nextOf heap p).getD null
  match swapper.pc with
  | .lockPrev | .checkNext | .leavePrev => [swapper.prev]
  | .lockCurrent | .checkFuture | .leaveCurrent => [swapper.prev, next swapper.prev]
  | .lockFuture => [swapper.prev, next swapper.prev, next (next swapper.prev)]
  | .advance => [swapper.prev, swapper.current, swapper.future]
  | .unlockFuture => [swapper.node, next swapper.node, next (next swapper.node)]
  | .unlockCurrent => [swapper.node, next swapper.node]
  | .unlockNode => [swapper.node]
  | .start | .test | .increment | .fault => []

/-- Inside its loop `random_swap` follows pointers to nodes of the list only. -/
theorem Swapper.Placed.follows {swapper : Swapper} (linked : Linked first heap nodes)
    (placed : swapper.Placed nodes) : swapper.follows heap ⊆ nodes := by
  obtain ⟨pc, prev, current, future, node, index, i⟩ := swapper
  cases pc with
  | start | test | increment | fault => exact List.nil_subset nodes
  | lockPrev | checkNext =>
    obtain ⟨rest, suffix, -⟩ := placed
    exact (infix_of_suffix [prev] suffix).subset
  | leavePrev =>
    obtain ⟨rest, suffix⟩ := placed
    exact (infix_of_suffix [prev] suffix).subset
  | lockCurrent | checkFuture =>
    obtain ⟨rest, suffix, -⟩ := placed
    simp only [Swapper.follows, (linked.nextOf_two suffix).1, Option.getD_some]
    exact (infix_of_suffix [prev, current] suffix).subset
  | leaveCurrent =>
    obtain ⟨rest, suffix⟩ := placed
    simp only [Swapper.follows, (linked.nextOf_two suffix).1, Option.getD_some]
    exact (infix_of_suffix [prev, current] suffix).subset
  | lockFuture =>
    obtain ⟨rest, suffix⟩ := placed
    have far : nextOf heap current = some future :=
      linked.nextOf_eq ((List.suffix_cons prev _).trans suffix)
    simp only [Swapper.follows, (linked.nextOf_two suffix).1, far, Option.getD_some]
    exact (infix_of_suffix [prev, current, future] suffix).subset
  | advance =>
    obtain ⟨rest, suffix⟩ := placed
    exact (infix_of_suffix [prev, current, future] suffix).subset
  | unlockFuture =>
    obtain ⟨rest, suffix, -⟩ := placed
    have far : nextOf heap prev = some current :=
      linked.nextOf_eq ((List.suffix_cons node _).trans suffix)
    simp only [Swapper.follows, (linked.nextOf_two suffix).1, far, Option.getD_some]
    exact (infix_of_suffix [node, prev, current] suffix).subset
  | unlockCurrent =>
    obtain ⟨rest, suffix, -⟩ := placed
    simp only [Swapper.follows, (linked.nextOf_two suffix).1, Option.getD_some]
    exact (infix_of_suffix [node, prev] suffix).subset
  | unlockNode =>
    obtain ⟨rest, suffix, -⟩ := placed
    exact (infix_of_suffix [node] suffix).subset

end Locks

section Main

variable [DecidableEq ι] {program : Program} {roles : ι → Role} {labels : List (ι × Event)}
  {process : Process ι} {me : ι}

/-- The locks of the present iteration of a thread, from the start of the process on. -/
def Process.iteration (program : Program) (first : Ptr) (heap : Heap Node) (roles : ι → Role)
    (labels : List (ι × Event)) (me : ι) : Locked :=
  iterationLocks program me (.start first heap roles) labels ⟨[], []⟩

/-- The assertion on a thread that runs `random_swap`. -/
def Thread.Walked (nodes : List Ptr) (locked : Locked) : Thread → Prop
  | .finder _ _ => True
  | .swapper locals => locals.Reached nodes ∧ locals.Booked nodes locked

/-- Along every run each `random_swap` is where its loop variable says and has taken and given back
the locks of its window. -/
theorem Process.walked_run (linked : Linked first heap nodes)
    (run : exec (next program) (.start first heap roles) labels = some process) (me : ι) :
    (process.thread me).Walked nodes (iteration program first heap roles labels me) := by
  refine exec_induct (motive := fun labels process =>
    (process.thread me).Walked nodes (iteration program first heap roles labels me)) ?_ ?_ run
  · cases role : roles me with
    | find search => simp [start, role, Role.thread, Thread.Walked]
    | randomSwap =>
      simp [start, role, Role.thread, Thread.Walked, Swapper.Reached, Swapper.Booked]
  · rintro labels before ⟨j, event⟩ after earlier walked taken
    obtain ⟨steady, threads⟩ := own_run linked earlier
    obtain ⟨mine, others⟩ := Threads.next_eq_some.mp taken
    rw [iteration, iterationLocks_snoc earlier taken]
    by_cases same : j = me
    · subst same
      rw [if_pos rfl, steady.heap]
      have own := threads j
      cases thread : before.thread j with
      | finder search finder =>
        rw [thread] at mine
        cases event with
        | go =>
          obtain ⟨locals, moved⟩ := find_stays mine
          rw [moved]
          trivial
        | index chosen => cases mine
      | swapper swapper =>
        rw [thread] at mine own walked
        obtain ⟨effect, onward, moved, move, -⟩ := randomSwap_move linked steady own mine
        rw [moved]
        exact ⟨move.reached linked own.placed walked.1, move.booked linked own.placed walked.2⟩
    · rw [if_neg same, others me (Ne.symm same)]
      exact walked

/-- For each program, every list of at least two nodes, any number of threads, every index and every
run, a thread in `random_swap` never goes wrong and follows pointers to nodes only, never a null
pointer; at the head of its for loop `current` and `future` are the two nodes behind `prev`, it
holds no lock, and the iteration that just ended locked three consecutive nodes and unlocked exactly
these; and it leaves the loop with `prev` at the position of the index or, if that comes first, at
the last but one node. -/
theorem window_consecutive (linked : Linked first heap nodes)
    (run : exec (next program) (.start first heap roles) labels = some process)
    {swapper : Swapper} (thread : process.thread me = .swapper swapper) :
    swapper.pc ≠ .fault ∧
      (∀ p ∈ swapper.follows process.shared.heap, p ∈ nodes ∧ p ≠ null) ∧
      (swapper.pc = .test →
        nextOf process.shared.heap swapper.prev = some swapper.current ∧
        nextOf process.shared.heap swapper.current = some swapper.future ∧
        ∀ p, ¬process.shared.locks.Holds me p) ∧
      (swapper.pc = .test → 0 < swapper.i →
        ∃ window, window <:+: nodes ∧ window.length = 3 ∧
          Process.iteration program first heap roles labels me = ⟨window, window.reverse⟩) ∧
      (swapper.pc = .increment →
        nodes[min swapper.index (nodes.length - 2)]? = some swapper.prev) := by
  obtain ⟨steady, threads⟩ := Process.own_run linked run
  have walked := Process.walked_run linked run me
  have own := threads me
  rw [thread] at walked own
  have placed : swapper.Placed nodes := own.placed
  rw [steady.heap]
  refine ⟨?_, ?_, ?_, ?_, ?_⟩
  · intro wrong
    simp [Swapper.Placed, wrong] at placed
  · intro p followed
    have member := placed.follows linked followed
    exact ⟨member, (linked.chain.live member).1⟩
  · intro head
    simp only [Swapper.Placed, head] at placed
    obtain ⟨rest, suffix, ahead⟩ := placed
    have near := (linked.nextOf_two suffix).1
    have far := linked.nextOf_eq ((List.suffix_cons _ _).trans suffix)
    refine ⟨near, ahead ▸ far, ?_⟩
    intro p holds
    have member := (own.holds p).mp holds
    simp [Thread.held, Swapper.held, head] at member
  · intro head later
    have booked := walked.2
    simp only [Swapper.Booked, head] at booked
    obtain ⟨inside, locked⟩ := booked later
    exact ⟨_, inside, rfl, locked⟩
  · intro left
    have reached := walked.1
    simpa only [Swapper.Reached, left] using reached

/-- A walk with index five along three nodes: one iteration, then the second test breaks. -/
def shortWalk : List (Unit × Event) := ((), .index 5) :: List.replicate 17 ((), .go)

/-- It ends at the second of the three nodes. -/
theorem window_consecutive_shortWalk :
    ∃ process swapper, exec (next .mutex) (.start 1 threeNodes fun _ => .randomSwap) shortWalk =
        some process ∧
      process.thread () = .swapper swapper ∧ swapper.pc = .increment ∧ swapper.index = 5 ∧
      [1, 2, 3][min swapper.index 1]? = some swapper.prev := by
  have outcome : (exec (next .mutex) (.start 1 threeNodes fun _ => .randomSwap) shortWalk).map
      (fun process => process.thread ()) =
        some (.swapper ⟨.increment, 2, 3, null, 1, 5, 1⟩) := by
    decide +kernel
  obtain ⟨process, run, thread⟩ := Option.map_eq_some_iff.mp outcome
  have left := (window_consecutive linked_threeNodes run thread).2.2.2.2 rfl
  exact ⟨process, _, run, thread, rfl, rfl, left⟩

end Main

end NsuOs.Storage
