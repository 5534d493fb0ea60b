import NsuOs.Storage.PairCounts

/-!
# What the swapping threads count

`random_swap` walks along the list with three locks and counts every walk, but `swap_nodes` is
called nowhere: no step of any thread writes a node. An exchange is therefore said of the memory
before and after a step, by what `swap_nodes` would do to three neighbours whose locks the thread
holds. The counter of a thread agrees with its exchanges as long as the thread has not reached its
`++count_increment`.
-/
namespace NsuOs.Storage

open NsuOs.Run

/-- `p->next = q`. -/
def setNext (heap : Heap Node) (p q : Ptr) : Option (Heap Node) :=
  (heap.get p).map fun node => heap.set p { node with next := q }

/-- `swap_nodes`; `none` when its assertion fails or a pointer does not lead to a node. -/
def swapNodes (heap : Heap Node) (prev cur future : Ptr) : Option (Heap Node) :=
  if prev ≠ null ∧ cur ≠ null ∧ future ≠ null then do
    let heap ← setNext heap prev future
    let tmp ← nextOf heap future
    let heap ← setNext heap future cur
    setNext heap cur tmp
  else none

/-- The link of a node after it was set. -/
theorem nextOf_setNext {heap after : Heap Node} {p q : Ptr}
    (set : setNext heap p q = some after) (other : Ptr) :
    nextOf after other = if other = p then some q else nextOf heap other := by
  obtain ⟨node, here, rfl⟩ := Option.map_eq_some_iff.mp set
  by_cases same : other = p
  · subst same
    simp [nextOf, here]
  · simp [nextOf, same]

/-- What `swap_nodes` leaves behind `prev`. -/
theorem nextOf_swapNodes {heap after : Heap Node} {prev cur future : Ptr}
    (beside : prev ≠ cur) (apart : prev ≠ future)
    (swapped : swapNodes heap prev cur future = some after) :
    nextOf after prev = some future := by
  unfold swapNodes at swapped
  split at swapped
  · obtain ⟨first, setPrev, rest⟩ := Option.bind_eq_some_iff.mp swapped
    obtain ⟨tmp, -, rest⟩ := Option.bind_eq_some_iff.mp rest
    obtain ⟨second, setFuture, setCur⟩ := Option.bind_eq_some_iff.mp rest
    rw [nextOf_setNext setCur, if_neg beside, nextOf_setNext setFuture, if_neg apart,
      nextOf_setNext setPrev, if_pos rfl]
  · cases swapped

/-- Three consecutive nodes of a chain: they are different, live and linked to each other. -/
theorem chain_three {heap : Heap Node} {first prev cur future : Ptr} {front back : List Ptr}
    (chain : Chain heap.get Node.next first (front ++ prev :: cur :: future :: back)) :
    (prev ≠ null ∧ cur ≠ null ∧ future ≠ null) ∧ (prev ≠ cur ∧ prev ≠ future ∧ cur ≠ future) ∧
      ∃ a b c, heap.get prev = some a ∧ heap.get cur = some b ∧ heap.get future = some c ∧
        a.next = cur ∧ b.next = future ∧ Chain heap.get Node.next c.next back := by
  have nodup := chain.suffix.nodup
  simp only [List.nodup_cons, List.mem_cons, not_or] at nodup
  obtain ⟨⟨beside, apart, -⟩, ⟨differ, -⟩, -⟩ := nodup
  obtain ⟨-, prevNonnull, a, first', rfl, curNonnull, b, second, rfl, futureNonnull, c, third,
    later⟩ := chain.suffix
  exact ⟨⟨prevNonnull, curNonnull, futureNonnull⟩, ⟨beside, apart, differ⟩, a, b, c, first', second,
    third, rfl, rfl, later⟩

variable {ι : Type*}

/-- Thread `t` exchanged two neighbours: `swap_nodes` was executed on three consecutive nodes of the
list whose locks it holds. -/
def Exchanged (t : ι) (before after : Shared ι) : Prop :=
  ∃ nodes prev cur future, Chain before.heap.get Node.next before.first nodes ∧
    [prev, cur, future] <:+: nodes ∧
    (∀ p ∈ [prev, cur, future], before.locks.Holds t p) ∧
    swapNodes before.heap prev cur future = some after.heap

/-- A step that leaves the nodes as they are exchanged none. -/
theorem not_exchanged {t : ι} {before after : Shared ι} (same : after.heap = before.heap) :
    ¬Exchanged t before after := by
  rintro ⟨nodes, prev, cur, future, chain, ⟨front, back, split⟩, -, swapped⟩
  have whole : nodes = front ++ prev :: cur :: future :: back := by
    rw [← split]
    simp
  rw [whole] at chain
  obtain ⟨-, ⟨beside, apart, differ⟩, value, -, -, here, -, -, link, -⟩ := chain_three chain
  have before' : nextOf before.heap prev = some cur := by simp [nextOf, here, link]
  have after' := nextOf_swapNodes beside apart swapped
  rw [same, before'] at after'
  exact differ (Option.some.inj after')

variable {program : Program} {me : ι} {shared after : Shared ι} {mine moved : Thread}

/-- What a step leaves as it is, and when it counts. -/
structure Frame [DecidableEq ι] (me : ι) (counts : Bool) (shared after : Shared ι) : Prop where
  /-- The list begins where it began. -/
  first : after.first = shared.first
  /-- Its nodes are as they were. -/
  heap : after.heap = shared.heap
  /-- The counter of this thread is one higher if the step counts, and no other changes. -/
  count : ∀ t, after.countIncrement t =
    shared.countIncrement t + if me = t ∧ counts = true then 1 else 0

section Steps

variable [DecidableEq ι]

/-- A step that does nothing to the memory. -/
theorem frame_moves {onward : Thread} (taken : some (shared, onward) = some (after, moved)) :
    Frame me false shared after := by
  obtain ⟨rfl, -⟩ := Prod.mk.inj (Option.some.inj taken)
  exact ⟨rfl, rfl, by simp⟩

/-- A lock is taken. -/
theorem frame_lock {access : Access} {p : Ptr} {onward : Thread}
    (taken : shared.lock access me p onward = some (after, moved)) :
    Frame me false shared after := by
  obtain ⟨locks, -, rfl, -⟩ := lock_eq_some taken
  exact ⟨rfl, rfl, by simp⟩

/-- A lock is given back. -/
theorem frame_unlock {p : Ptr} {onward wrong : Thread}
    (taken : some (shared.unlock me p onward wrong) = some (after, moved)) :
    Frame me false shared after := by
  obtain ⟨rfl, -⟩ := Prod.ext_iff.mp (Option.some.inj taken)
  unfold Shared.unlock
  split
  · exact ⟨rfl, rfl, by simp⟩
  · exact ⟨rfl, rfl, by simp⟩

/-- A walk or a pass is counted. -/
theorem frame_count {onward : Thread}
    (taken : some (shared.count me, onward) = some (after, moved)) :
    Frame me true shared after := by
  obtain ⟨rfl, -⟩ := Prod.mk.inj (Option.some.inj taken)
  refine ⟨rfl, rfl, fun t => ?_⟩
  by_cases same : me = t
  · subst same
    simp [Shared.count]
  · have other : t ≠ me := Ne.symm same
    simp [Shared.count, same, other]

/-- A step of a search writes no node and counts at its `++count_increment` only. -/
theorem find_frame {search : Search} {finder : Finder}
    (taken : find program search me shared finder = some (after, moved)) :
    Frame me (Thread.finder search finder).incrementing shared after := by
  obtain ⟨pc, node, next, tmp, counter⟩ := finder
  cases pc with
  | start =>
    unfold find at taken
    simp only at taken
    split at taken
    · exact frame_moves taken
    · split at taken
      · exact frame_moves taken
      · split at taken
        · exact frame_moves taken
        · exact frame_moves taken
  | lockNode | lockNext => exact frame_lock taken
  | readNext | compare =>
    unfold find at taken
    simp only at taken
    split at taken
    · exact frame_moves taken
    · exact frame_moves taken
  | unlockNext | unlockTmp | unlockLast => exact frame_unlock taken
  | increment => exact frame_count taken
  | fault => cases taken

/-- A step of `random_swap` writes no node and counts at its `++count_increment` only. -/
theorem randomSwap_frame {swapper : Swapper} {event : Event}
    (taken : randomSwap me shared swapper event = some (after, moved)) :
    Frame me (Thread.swapper swapper).incrementing shared after := by
  obtain ⟨pc, prev, current, future, node, index, i⟩ := swapper
  cases event with
  | index chosen =>
    cases pc with
    | start =>
      unfold randomSwap at taken
      simp only at taken
      split at taken
      · exact frame_moves taken
      · split at taken
        · exact frame_moves taken
        · split at taken
          · exact frame_moves taken
          · split at taken
            · exact frame_moves taken
            · exact frame_moves taken
    | test | lockPrev | checkNext | lockCurrent | checkFuture | lockFuture | advance | unlockFuture
    | unlockCurrent | unlockNode | leaveCurrent | leavePrev | increment | fault => cases taken
  | go =>
    cases pc with
    | start | fault => cases taken
    | test => exact frame_moves taken
    | lockPrev => exact frame_lock taken
    | lockCurrent | lockFuture =>
      unfold randomSwap at taken
      simp only at taken
      split at taken
      · exact frame_moves taken
      · exact frame_lock taken
    | checkNext | checkFuture | advance =>
      unfold randomSwap at taken
      simp only at taken
      split at taken
      · exact frame_moves taken
      · exact frame_moves taken
    | unlockFuture | unlockCurrent | leaveCurrent =>
      unfold randomSwap at taken
      simp only at taken
      split at taken
      · exact frame_moves taken
      · exact frame_unlock taken
    | unlockNode | leavePrev => exact frame_unlock taken
    | increment => exact frame_count taken

/-- A step of a process writes no node and counts for the thread that takes it, at its
`++count_increment` only. -/
theorem next_frame {process later : Process ι} {label : ι × Event}
    (taken : next program process label = some later) :
    Frame label.1 (process.thread label.1).incrementing process.shared later.shared := by
  obtain ⟨i, event⟩ := label
  have mine := (Threads.next_eq_some.mp taken).1
  cases thread : process.thread i with
  | finder search finder =>
    rw [thread] at mine
    cases event with
    | go => simpa [thread] using find_frame mine
    | index chosen => cases mine
  | swapper swapper =>
    rw [thread] at mine
    simpa [thread] using randomSwap_frame mine

/-- A search stays a search. -/
theorem find_stays {search : Search} {finder : Finder}
    (taken : find program search me shared finder = some (after, moved)) :
    ∃ locals, moved = .finder search locals := by
  have locked : ∀ {access p onward}, shared.lock access me p (.finder search onward) =
      some (after, moved) → ∃ locals, moved = .finder search locals := by
    intro access p onward granted
    obtain ⟨-, -, -, rfl⟩ := lock_eq_some granted
    exact ⟨_, rfl⟩
  have unlocked : ∀ {p onward wrong},
      some (shared.unlock me p (.finder search onward) (.finder search wrong)) =
        some (after, moved) → ∃ locals, moved = .finder search locals := by
    intro p onward wrong released
    obtain ⟨-, rfl⟩ := Prod.ext_iff.mp (Option.some.inj released)
    rcases unlock_cases shared me p (.finder search onward) (.finder search wrong) with same | same
    · exact ⟨onward, same⟩
    · exact ⟨wrong, same⟩
  have moves : ∀ {onward}, some (shared, Thread.finder search onward) = some (after, moved) →
      ∃ locals, moved = .finder search locals := by
    intro onward same
    obtain ⟨-, rfl⟩ := Prod.mk.inj (Option.some.inj same)
    exact ⟨_, rfl⟩
  unfold find at taken
  grind

end Steps

section Main

variable [DecidableEq ι] {first : Ptr} {heap : Heap Node} {nodes : List Ptr} {roles : ι → Role}
  {labels : List (ι × Event)} {process : Process ι}

/-- A thread runs `random_swap`. -/
def Thread.swaps : Thread → Bool
  | .finder _ _ => false
  | .swapper _ => true

/-- A thread goes on running the function it was created with. -/
theorem Process.swaps_run
    (run : exec (next program) (.start first heap roles) labels = some process) (t : ι) :
    (process.thread t).swaps = decide (roles t = .randomSwap) := by
  refine exec_induct (motive := fun _ process =>
    (process.thread t).swaps = decide (roles t = .randomSwap)) ?_ ?_ run
  · cases role : roles t with
    | find search => simp [start, role, Role.thread, Thread.swaps]
    | randomSwap => simp [start, role, Role.thread, Thread.swaps]
  · rintro labels before ⟨j, event⟩ after - kept taken
    obtain ⟨mine, others⟩ := Threads.next_eq_some.mp taken
    by_cases same : t = j
    · subst same
      rw [← kept]
      cases thread : before.thread t with
      | finder search finder =>
        rw [thread] at mine
        cases event with
        | go =>
          obtain ⟨locals, moved⟩ := find_stays mine
          rw [moved]
          rfl
        | index chosen => cases mine
      | swapper swapper =>
        rw [thread] at mine
        obtain ⟨locals, moved⟩ := randomSwap_stays mine
        rw [moved]
        rfl
    · rw [others t same]
      exact kept

open Classical in
/-- The number of exchanges a thread performs along these labels. -/
noncomputable def exchanges (program : Program) (t : ι) : Process ι → List (ι × Event) → Nat
  | _, [] => 0
  | process, label :: rest =>
    match next program process label with
    | none => 0
    | some later =>
      (if label.1 = t ∧ Exchanged t process.shared later.shared then 1 else 0) +
        exchanges program t later rest

/-- No thread ever exchanges anything. -/
theorem exchanges_eq_zero (t : ι) (process : Process ι) (labels : List (ι × Event)) :
    exchanges program t process labels = 0 := by
  induction labels generalizing process with
  | nil => rfl
  | cons label rest ih =>
    unfold exchanges
    split
    · rfl
    · rename_i later taken
      have kept := (next_frame taken).heap
      rw [ih later, if_neg]
      rintro ⟨-, exchanged⟩
      exact not_exchanged kept exchanged

/-- At every state on the way of a run the counter of each `random_swap` thread is the number of
its exchanges, and the list is a permutation of the nodes it was made of. -/
def CountsSwaps (program : Program) (first : Ptr) (heap : Heap Node) (nodes : List Ptr)
    (roles : ι → Role) (labels : List (ι × Event)) : Prop :=
  ∀ earlier process, earlier <+: labels →
    exec (next program) (.start first heap roles) earlier = some process →
      (∀ t, roles t = .randomSwap → process.shared.countIncrement t =
        exchanges program t (.start first heap roles) earlier) ∧
      ∃ now, Chain process.shared.heap.get Node.next process.shared.first now ∧ now.Perm nodes

/-- The thread whose turn it is is not a `random_swap` at its `++count_increment`. -/
def Uncounted (process : Process ι) (label : ι × Event) : Prop :=
  ¬((process.thread label.1).swaps = true ∧ (process.thread label.1).incrementing = true)

instance (process : Process ι) (label : ι × Event) : Decidable (Uncounted process label) :=
  inferInstanceAs (Decidable (¬(_ ∧ _)))

/-- The list is the one it was. -/
theorem Process.list_run
    (run : exec (next program) (.start first heap roles) labels = some process) :
    process.shared.first = first ∧ process.shared.heap = heap := by
  refine exec_induct (motive := fun _ (process : Process ι) =>
    process.shared.first = first ∧ process.shared.heap = heap) ⟨rfl, rfl⟩ ?_ run
  intro labels before label after _ kept taken
  have frame := next_frame taken
  exact ⟨frame.first.trans kept.1, frame.heap.trans kept.2⟩

/-- A swapping thread has counted nothing as long as none was at its `++count_increment`. -/
theorem Process.uncounted_run
    (run : exec (next program) (.start first heap roles) labels = some process)
    (meets : Meets (next program) Uncounted (.start first heap roles) labels) {t : ι}
    (role : roles t = .randomSwap) : process.shared.countIncrement t = 0 := by
  refine exec_induct_meets (motive := fun _ (process : Process ι) =>
    process.shared.countIncrement t = 0) ?_ ?_ run meets
  · rfl
  intro labels before label after earlier zero guard taken
  have still : ¬(label.1 = t ∧ (before.thread label.1).incrementing = true) := by
    rintro ⟨same, counting⟩
    have swaps : (before.thread label.1).swaps = true := by
      rw [swaps_run earlier, same]
      exact decide_eq_true role
    exact guard ⟨swaps, counting⟩
  rw [(next_frame taken).count t, if_neg still, zero]

/-- For each program, every list, any number of threads and every run: the swap counters count
exchanges of neighbours throughout the run exactly when no `random_swap` thread takes a step at its
`++count_increment`. -/
theorem counts_swaps_iff (chain : Chain heap.get Node.next first nodes)
    (run : exec (next program) (.start first heap roles) labels = some process) :
    CountsSwaps program first heap nodes roles labels ↔
      Meets (next program) Uncounted (.start first heap roles) labels := by
  constructor
  · refine exec_induct (motive := fun labels _ =>
      CountsSwaps program first heap nodes roles labels →
        Meets (next program) Uncounted (.start first heap roles) labels) (fun _ => trivial) ?_ run
    intro labels before label after earlier ih taken counts
    have met := ih fun part state early =>
      counts part state (early.trans (List.prefix_append _ _))
    refine (meets_snoc earlier).mpr ⟨met, ?_⟩
    rintro ⟨swaps, counting⟩
    have role : roles label.1 = .randomSwap := by
      rw [Process.swaps_run earlier] at swaps
      exact of_decide_eq_true swaps
    have reached := exec_snoc.mpr ⟨before, earlier, taken⟩
    have equal := (counts _ after List.prefix_rfl reached).1 label.1 role
    rw [exchanges_eq_zero, (next_frame taken).count, if_pos ⟨rfl, counting⟩] at equal
    omega
  · intro meets earlier state early reached
    obtain ⟨later, split⟩ := early
    have met : Meets (next program) Uncounted (.start first heap roles) earlier := by
      rw [← split] at meets
      exact meets_left meets
    obtain ⟨firsts, heaps⟩ := Process.list_run reached
    refine ⟨?_, nodes, ?_, List.Perm.refl nodes⟩
    · intro t role
      rw [exchanges_eq_zero]
      exact Process.uncounted_run reached met role
    · rw [firsts, heaps]
      exact chain

/-- The first step of a walk of thread `t`. -/
def walkBegun (t : ι) : List (ι × Event) := [(t, .index 3), (t, .go), (t, .go)]

/-- Two threads that have begun to walk have counted nothing yet. -/
theorem counts_swaps_begun :
    CountsSwaps .mutex 1 threeNodes [1, 2, 3] (fun _ : Fin 2 => .randomSwap) (walkBegun 0) := by
  have outcome : (exec (next .mutex) (.start 1 threeNodes fun _ : Fin 2 => .randomSwap)
      (walkBegun 0)).isSome = true := by
    decide +kernel
  obtain ⟨process, run⟩ := Option.isSome_iff_exists.mp outcome
  exact (counts_swaps_iff linked_threeNodes.chain run).mpr (by decide +kernel)

/-- A whole walk of thread `t` over three nodes. -/
def walk (t : ι) : List (ι × Event) := (t, .index 3) :: List.replicate 18 (t, .go)

/-- After one walk a thread has counted one exchange and performed none. -/
theorem walk_counts_no_swap :
    ¬CountsSwaps .mutex 1 threeNodes [1, 2, 3] (fun _ : Fin 1 => .randomSwap) (walk 0) := by
  have outcome : (exec (next .mutex) (.start 1 threeNodes fun _ : Fin 1 => .randomSwap)
      (walk 0)).map (fun process => process.shared.countIncrement 0) = some 1 := by
    decide +kernel
  obtain ⟨process, run, one⟩ := Option.map_eq_some_iff.mp outcome
  intro counts
  have equal := (counts _ process List.prefix_rfl run).1 0 rfl
  rw [exchanges_eq_zero, one] at equal
  cases equal

end Main

end NsuOs.Storage
