import NsuOs.Storage.LockOrder

/-!
# What the searches count

A search keeps in `counter` the pairs it has compared: together with the pairs from its node on they
are all pairs of the list. At the end of a pass the counter is therefore the number of neighbours
that meet the comparison of the program, which is the intended one but for `find_decreasing` in
`main.c` and `spinlock.c`.
-/
namespace NsuOs.Storage

open NsuOs.Run

/-- The number of neighbours in a list that meet a test. -/
def pairs {α : Type*} (test : α → α → Bool) : List α → Nat
  | first :: second :: rest => (if test first second then 1 else 0) + pairs test (second :: rest)
  | [_] => 0
  | [] => 0

/-- `strlen` of the value of a node. -/
def lengthOf (heap : Heap Node) (p : Ptr) : Nat :=
  ((heap.get p).map fun node => node.value.strlen).getD 0

/-- The pairs of lengths a search is meant to count. -/
def Search.means : Search → Nat → Nat → Bool
  | .increasing, left, right => left < right
  | .decreasing, left, right => left > right
  | .equals, left, right => left == right

/-- Neighbours of increasing, decreasing and equal length are all neighbours. -/
theorem pairs_means (lengths : List Nat) :
    pairs Search.increasing.means lengths + pairs Search.decreasing.means lengths +
      pairs Search.equals.means lengths = lengths.length - 1 := by
  induction lengths with
  | nil => rfl
  | cons first rest ih =>
    cases rest with
    | nil => rfl
    | cons second rest =>
      have longer : (second :: rest).length = rest.length + 1 := rfl
      simp only [pairs, List.length_cons, longer] at ih ⊢
      rcases Nat.lt_trichotomy first second with below | same | above
      · have unequal : (first == second) = false := by simp; omega
        have upside : decide (first > second) = false := by simp; omega
        simp only [Search.means, below, decide_true, if_true, unequal, upside] at ih ⊢
        simp only [Bool.false_eq_true, if_false]
        omega
      · simp only [Search.means, same, beq_self_eq_true, if_true, Nat.lt_irrefl, gt_iff_lt,
          decide_false, Bool.false_eq_true, if_false] at ih ⊢
        omega
      · have unequal : (first == second) = false := by simp; omega
        have upside : decide (first < second) = false := by simp; omega
        simp only [Search.means, above, decide_true, if_true, unequal, upside] at ih ⊢
        simp only [Bool.false_eq_true, if_false]
        omega

/-- What a search has counted at its place: with the pairs from its node on these are all. -/
def Finder.Counted (total : Nat) (remaining : List Ptr → Nat) (nodes : List Ptr)
    (finder : Finder) : Prop :=
  match finder.pc with
  | .lockNode | .readNext | .unlockNext | .unlockTmp =>
    ∃ rest, finder.node :: rest <:+ nodes ∧ finder.counter + remaining (finder.node :: rest) = total
  | .lockNext | .compare =>
    ∃ rest, finder.node :: finder.next :: rest <:+ nodes ∧
      finder.counter + remaining (finder.node :: finder.next :: rest) = total
  | .unlockLast | .increment => finder.counter = total
  | .start | .fault => True

/-- What a thread has counted. -/
def Thread.Counted (program : Program) (heap : Heap Node) (nodes : List Ptr) : Thread → Prop
  | .finder search locals =>
    locals.Counted (pairs (search.counts program) (nodes.map (lengthOf heap)))
      (fun rest => pairs (search.counts program) (rest.map (lengthOf heap))) nodes
  | .swapper _ => True

section Steps

variable {ι : Type*} [DecidableEq ι] {program : Program} {me : ι} {shared after : Shared ι}
  {moved : Thread} {first : Ptr} {heap : Heap Node} {nodes : List Ptr}

/-- An unlock leads to one of two places. -/
theorem unlock_cases (shared : Shared ι) (me : ι) (p : Ptr) (onward wrong : Thread) :
    (shared.unlock me p onward wrong).2 = onward ∨ (shared.unlock me p onward wrong).2 = wrong := by
  unfold Shared.unlock
  split
  · exact .inl rfl
  · exact .inr rfl

/-- Every step of a search keeps its count. -/
theorem Seek.counted {search : Search} {finder onward : Finder} {effect : Effect}
    (linked : Linked first heap nodes) (seek : Seek program heap nodes search finder effect onward)
    (counted : (Thread.finder search finder).Counted program heap nodes) :
    (Thread.finder search onward).Counted program heap nodes := by
  cases seek with
  | begins whole =>
    rename_i first second rest
    refine ⟨second :: rest, by rw [whole], ?_⟩
    rw [whole]
    exact Nat.zero_add _
  | seesNext window =>
    -- A node has one continuation in the list, the one the count speaks of.
    obtain ⟨rest, suffix, total⟩ := counted
    obtain rfl := linked.rest_unique suffix window
    exact ⟨_, window, total⟩
  | seesEnd last =>
    obtain ⟨rest, suffix, total⟩ := counted
    obtain rfl := linked.rest_unique suffix last
    exact total
  | compares window here there =>
    rename_i node next counter behind left right
    obtain ⟨rest, suffix, total⟩ := counted
    have lengths : lengthOf heap node = left.value.strlen ∧
        lengthOf heap next = right.value.strlen := by
      simp [lengthOf, here, there]
    refine ⟨rest, (List.suffix_cons node _).trans suffix, ?_⟩
    simp only [List.map_cons, pairs, lengths.1, lengths.2] at total
    simp only [List.map_cons, lengths.2]
    split_ifs at total ⊢ with meets
    · omega
    · omega
  | locksNode | locksNext | unlocksNext | unlocksTmp | unlocksLast => exact counted
  | counts => trivial

/-- `random_swap` stays `random_swap`. -/
theorem randomSwap_stays {swapper : Swapper} {event : Event}
    (taken : randomSwap me shared swapper event = some (after, moved)) :
    ∃ locals, moved = .swapper locals := by
  have locked : ∀ {access p onward}, shared.lock access me p (.swapper onward) =
      some (after, moved) → ∃ locals, moved = .swapper locals := by
    intro access p onward granted
    obtain ⟨-, -, -, rfl⟩ := lock_eq_some granted
    exact ⟨_, rfl⟩
  have unlocked : ∀ {p onward wrong}, some (shared.unlock me p (.swapper onward) (.swapper wrong)) =
      some (after, moved) → ∃ locals, moved = .swapper locals := by
    intro p onward wrong released
    obtain ⟨-, rfl⟩ := Prod.ext_iff.mp (Option.some.inj released)
    rcases unlock_cases shared me p (.swapper onward) (.swapper wrong) with same | same
    · exact ⟨onward, same⟩
    · exact ⟨wrong, same⟩
  have moves : ∀ {onward}, some (shared, Thread.swapper onward) = some (after, moved) →
      ∃ locals, moved = .swapper locals := by
    intro onward same
    obtain ⟨-, rfl⟩ := Prod.mk.inj (Option.some.inj same)
    exact ⟨_, rfl⟩
  unfold randomSwap at taken
  grind

/-- In every state of every run every search has counted the pairs up to its node. -/
theorem Process.counted_run (linked : Linked first heap nodes) {roles : ι → Role}
    {labels : List (ι × Event)} {process : Process ι}
    (run : exec (next program) (.start first heap roles) labels = some process) (i : ι) :
    (process.thread i).Counted program heap nodes := by
  refine exec_induct (motive := fun _ process => ∀ i, (process.thread i).Counted program heap nodes)
    ?_ ?_ run i
  · intro i
    cases role : roles i with
    | find search => simp [start, role, Role.thread, Thread.Counted, Finder.Counted]
    | randomSwap => simp [start, role, Role.thread, Thread.Counted]
  · rintro labels before ⟨j, event⟩ after earlier counted taken i
    obtain ⟨steady, threads⟩ := own_run linked earlier
    obtain ⟨mine, others⟩ := Threads.next_eq_some.mp taken
    by_cases same : i = j
    · subst same
      have held := counted i
      have own := threads i
      cases thread : before.thread i with
      | finder search finder =>
        rw [thread] at held mine own
        cases event with
        | go =>
          obtain ⟨effect, onward, moved, seek, -⟩ := find_seek linked steady own mine
          rw [moved]
          exact seek.counted linked held
        | index chosen => cases mine
      | swapper swapper =>
        rw [thread] at mine
        obtain ⟨locals, moved⟩ := randomSwap_stays mine
        rw [moved]
        trivial
    · rw [others i same]
      exact counted i

end Steps

section Alone

variable {program : Program} {search : Search} {first : Ptr} {heap : Heap Node} {nodes : List Ptr}
  {locks : LockTable Unit Ptr} {access : Access} {moved wrong : Thread} {p : Ptr}

/-- The shared memory of a single search. -/
def solo (first : Ptr) (heap : Heap Node) (locks : LockTable Unit Ptr) : Shared Unit :=
  ⟨first, heap, locks, fun _ => 0⟩

/-- A single search at a place, with the locks it holds. -/
def alone (first : Ptr) (heap : Heap Node) (locks : LockTable Unit Ptr) (mine : Thread) :
    Process Unit :=
  ⟨solo first heap locks, fun _ => mine⟩

/-- A step of the only thread. -/
theorem next_alone {after : LockTable Unit Ptr} {mine : Thread}
    (taken : step program () (solo first heap locks) mine .go =
      some (solo first heap after, moved)) :
    next program (alone first heap locks mine) ((), .go) = some (alone first heap after moved) := by
  unfold alone
  simp only [next, Threads.next, taken, Option.map_some]
  congr 2

/-- A free lock is granted to the only thread. -/
theorem solo_lock (unheld : locks p = ⟨none, ∅⟩) :
    (solo first heap locks).lock access () p moved =
      some (solo first heap (Function.update locks p (LockTable.heldBy access ())), moved) := by
  simp [Shared.lock, solo, LockTable.acquire_free unheld]

/-- The only thread gives a lock back. -/
theorem solo_unlock (held : locks p = LockTable.heldBy access ()) :
    (solo first heap locks).unlock () p moved wrong =
      (solo first heap (Function.update locks p ⟨none, ∅⟩), moved) := by
  simp [Shared.unlock, solo, LockTable.release_heldBy held]

/-- A lock taken and given back is free again. -/
theorem update_free (unheld : locks p = ⟨none, ∅⟩) (state : LockState Unit) :
    Function.update (Function.update locks p state) p ⟨none, ∅⟩ = locks := by
  rw [Function.update_idem, ← unheld, Function.update_eq_self]

/-- A search alone goes on from its place to another one. -/
theorem exec_alone {mine : Thread} {after : LockTable Unit Ptr} {count : Nat}
    (taken : step program () (solo first heap locks) mine .go =
      some (solo first heap after, moved)) :
    exec (next program) (alone first heap locks mine) (List.replicate (count + 1) ((), .go)) =
      exec (next program) (alone first heap after moved) (List.replicate count ((), .go)) := by
  rw [List.replicate_succ, exec, next_alone taken, Option.bind_some]

variable {node ahead next tmp : Ptr} {counter : Nat}

/-- At `node` the only thread gets the lock. -/
theorem solo_lockNode (unheld : locks node = ⟨none, ∅⟩) :
    step program () (solo first heap locks) (.finder search ⟨.lockNode, node, next, tmp, counter⟩)
      .go = some (solo first heap
        (Function.update locks node (LockTable.heldBy program.finderAccess ())),
        .finder search ⟨.readNext, node, next, tmp, counter⟩) :=
  solo_lock unheld

/-- It reads the pointer to the next node. -/
theorem solo_readNext (link : nextOf heap node = some ahead) :
    step program () (solo first heap locks) (.finder search ⟨.readNext, node, next, tmp, counter⟩)
      .go = some (solo first heap locks, .finder search
        ⟨if ahead = null then .unlockLast else .lockNext, node, ahead, node, counter⟩) := by
  simp [step, find, solo, link]

/-- It gets the lock of the next node. -/
theorem solo_lockNext (unheld : locks next = ⟨none, ∅⟩) :
    step program () (solo first heap locks) (.finder search ⟨.lockNext, node, next, tmp, counter⟩)
      .go = some (solo first heap
        (Function.update locks next (LockTable.heldBy program.finderAccess ())),
        .finder search ⟨.compare, node, next, tmp, counter⟩) :=
  solo_lock unheld

/-- It compares the two nodes. -/
theorem solo_compare {left right : Node} (here : heap.get node = some left)
    (there : heap.get next = some right) (link : left.next = next) :
    ∃ counter', step program () (solo first heap locks)
      (.finder search ⟨.compare, node, next, tmp, counter⟩) .go =
        some (solo first heap locks, .finder search ⟨.unlockNext, next, next, tmp, counter'⟩) := by
  simp only [step, find, solo, here, there, link]
  exact ⟨_, rfl⟩

/-- It gives back the lock of the next node. -/
theorem solo_unlockNext (held : locks next = LockTable.heldBy access ()) :
    step program () (solo first heap locks) (.finder search ⟨.unlockNext, node, next, tmp, counter⟩)
      .go = some (solo first heap (Function.update locks next ⟨none, ∅⟩),
        .finder search ⟨.unlockTmp, node, next, tmp, counter⟩) :=
  congrArg some (solo_unlock held)

/-- It gives back the lock of the node it came from. -/
theorem solo_unlockTmp (held : locks tmp = LockTable.heldBy access ()) :
    step program () (solo first heap locks) (.finder search ⟨.unlockTmp, node, next, tmp, counter⟩)
      .go = some (solo first heap (Function.update locks tmp ⟨none, ∅⟩),
        .finder search ⟨.lockNode, node, next, tmp, counter⟩) :=
  congrArg some (solo_unlock held)

/-- It gives back the lock of the last node. -/
theorem solo_unlockLast (held : locks node = LockTable.heldBy access ()) :
    step program () (solo first heap locks) (.finder search ⟨.unlockLast, node, next, tmp, counter⟩)
      .go = some (solo first heap (Function.update locks node ⟨none, ∅⟩),
        .finder search ⟨.increment, node, next, tmp, counter⟩) :=
  congrArg some (solo_unlock held)

/-- At the last node a search alone comes to the end of its pass. -/
theorem alone_last (link : nextOf heap node = some null) :
    exec (Storage.next program)
      (alone first heap .free (.finder search ⟨.lockNode, node, next, tmp, counter⟩))
      (List.replicate 3 ((), .go)) =
      some (alone first heap .free (.finder search ⟨.increment, node, null, node, counter⟩)) := by
  have free : (LockTable.free : LockTable Unit Ptr) node = ⟨none, ∅⟩ := rfl
  have held : Function.update LockTable.free node (LockTable.heldBy program.finderAccess ()) node =
      LockTable.heldBy program.finderAccess () := Function.update_self ..
  rw [exec_alone (solo_lockNode free), exec_alone (solo_readNext link), if_pos rfl,
    exec_alone (solo_unlockLast held), update_free free, List.replicate_zero, exec]

/-- One round of the loop of a search alone. -/
theorem alone_round (program : Program) (search : Search) (first next tmp : Ptr) (counter : Nat)
    {left right : Node} (here : heap.get node = some left) (there : heap.get ahead = some right)
    (link : left.next = ahead) (nonnull : ahead ≠ null) (apart : node ≠ ahead) :
    ∃ counter',
      exec (Storage.next program)
        (alone first heap .free (.finder search ⟨.lockNode, node, next, tmp, counter⟩))
        (List.replicate 6 ((), .go)) =
        some (alone first heap .free
          (.finder search ⟨.lockNode, ahead, ahead, node, counter'⟩)) := by
  have free : (LockTable.free : LockTable Unit Ptr) node = ⟨none, ∅⟩ := rfl
  have points : nextOf heap node = some ahead := by simp [nextOf, here, link]
  have unheld :
      Function.update LockTable.free node (LockTable.heldBy program.finderAccess ()) ahead =
      ⟨none, ∅⟩ := Function.update_of_ne apart.symm ..
  have held : Function.update LockTable.free node (LockTable.heldBy program.finderAccess ()) node =
      LockTable.heldBy program.finderAccess () := Function.update_self ..
  obtain ⟨counter', compared⟩ := solo_compare here there link
  refine ⟨counter', ?_⟩
  rw [exec_alone (solo_lockNode free), exec_alone (solo_readNext points), if_neg nonnull,
    exec_alone (solo_lockNext unheld), exec_alone compared,
    exec_alone (solo_unlockNext (Function.update_self ..)), update_free unheld,
    exec_alone (solo_unlockTmp held), update_free free, List.replicate_zero, exec]

/-- From a node on, a search alone reaches the end of its pass. -/
theorem alone_finishes (linked : Linked first heap nodes) (rest : List Ptr) :
    ∀ node next tmp counter, node :: rest <:+ nodes →
      ∃ labels finder,
        exec (Storage.next program)
          (alone first heap .free (.finder search ⟨.lockNode, node, next, tmp, counter⟩)) labels =
            some (alone first heap .free (.finder search finder)) ∧
        finder.pc = .increment := by
  induction rest with
  | nil =>
    intro node next tmp counter suffix
    exact ⟨_, _, alone_last (linked.nextOf_eq suffix), rfl⟩
  | cons ahead rest ih =>
    intro node next tmp counter suffix
    have later := (List.suffix_cons node _).trans suffix
    obtain ⟨left, here⟩ := (linked.chain.live (suffix.subset (by simp : node ∈ _))).2
    obtain ⟨nonnull, right, there⟩ := linked.chain.live (later.subset (by simp : ahead ∈ _))
    have link : left.next = ahead := by
      have points := linked.nextOf_eq suffix
      simpa [nextOf, here, following] using points
    have apart : node ≠ ahead := by
      have nodup := (List.nodup_cons.mp (linked.nodup suffix)).1
      rintro rfl
      exact nodup (by simp)
    obtain ⟨counter', round⟩ :=
      alone_round program search first next tmp counter here there link nonnull apart
    obtain ⟨labels, finder, finished, place⟩ := ih ahead ahead node counter' later
    refine ⟨List.replicate 6 ((), .go) ++ labels, finder, ?_, place⟩
    rw [exec_append, round, Option.bind_some, finished]

end Alone

/-- In some run of a program on a list, with any number of threads, a thread has come to the end of
a pass of a search with this counter. -/
def Completes (program : Program) (first : Ptr) (heap : Heap Node) (search : Search)
    (counter : Nat) : Prop :=
  ∃ (ι : Type) (_ : DecidableEq ι) (roles : ι → Role) (labels : List (ι × Event))
    (process : Process ι) (i : ι) (finder : Finder),
    exec (next program) (.start first heap roles) labels = some process ∧
      process.thread i = .finder search finder ∧ finder.pc = .increment ∧
      finder.counter = counter

/-- The number of neighbouring nodes whose lengths meet a test. -/
def lengthPairs (heap : Heap Node) (nodes : List Ptr) (test : Nat → Nat → Bool) : Nat :=
  pairs test (nodes.map (lengthOf heap))

/-- A pass of each search of a program can be completed, leaves the number of pairs the search is
meant to count, and the three counters add up to the number of all pairs. -/
structure CountsPairs (program : Program) (first : Ptr) (heap : Heap Node) (nodes : List Ptr) :
    Prop where
  /-- A pass of each search can be completed. -/
  completes : ∀ search, ∃ counter, Completes program first heap search counter
  /-- It leaves the number of the pairs it is meant to count. -/
  exact : ∀ search counter, Completes program first heap search counter →
    counter = lengthPairs heap nodes search.means
  /-- The three counters add up to the number of all pairs. -/
  sum : ∀ increasing decreasing equals, Completes program first heap .increasing increasing →
    Completes program first heap .decreasing decreasing →
    Completes program first heap .equals equals →
      increasing + decreasing + equals = nodes.length - 1

/-- The three programs leave the same counters. -/
def Agree (first : Ptr) (heap : Heap Node) : Prop :=
  ∀ program program' search counter counter', Completes program first heap search counter →
    Completes program' first heap search counter' → counter = counter'

section Main

variable {program : Program} {search : Search} {first : Ptr} {heap : Heap Node} {nodes : List Ptr}

/-- The counter at the end of a pass is the number of pairs that meet the comparison. -/
theorem completes_iff (linked : Linked first heap nodes) {counter : Nat} :
    Completes program first heap search counter ↔
      counter = lengthPairs heap nodes (search.counts program) := by
  have counts : ∀ counter, Completes program first heap search counter →
      counter = lengthPairs heap nodes (search.counts program) := by
    rintro counter ⟨ι, _, roles, labels, process, i, finder, run, here, place, rfl⟩
    have counted := Process.counted_run linked run i
    rw [here] at counted
    simp only [Thread.Counted, Finder.Counted, place] at counted
    exact counted
  constructor
  · exact counts counter
  · rintro rfl
    obtain ⟨second, tail, two⟩ := linked.first_two
    have whole : first :: second :: tail <:+ nodes := by rw [two]
    have nonempty : first ≠ null := (linked.chain.live (whole.subset (by simp))).1
    have onward : second ≠ null := (linked.chain.live (whole.subset (by simp))).1
    have link : nextOf heap first = some second := linked.nextOf_eq whole
    have started : next program (.start first heap fun _ : Unit => .find search) ((), .go) =
        some (alone first heap .free (.finder search ⟨.lockNode, first, null, null, 0⟩)) := by
      apply next_alone
      simp [Role.thread, step, find, solo, nonempty, link, onward]
    obtain ⟨labels, finder, finished, place⟩ :=
      alone_finishes linked (second :: tail) first null null 0 whole
    have completed : Completes program first heap search finder.counter := by
      refine ⟨Unit, inferInstance, fun _ => .find search, ((), .go) :: labels,
        alone first heap .free (.finder search finder), (), finder, ?_, rfl, place, rfl⟩
      rw [exec, started, Option.bind_some, finished]
    rw [← counts _ completed]
    exact completed

/-- The comparison of a program is the intended one but for `find_decreasing`, which in two
programs counts the increasing pairs. -/
theorem counts_eq_means (program : Program) (search : Search) :
    search.counts program = search.means ∨
      program ≠ .rwlock ∧ search = .decreasing ∧
        search.counts program = Search.increasing.means := by
  cases search with
  | increasing =>
    left
    funext left right
    cases program <;> rfl
  | equals =>
    left
    funext left right
    cases program <;> rfl
  | decreasing =>
    cases program with
    | rwlock => exact .inl rfl
    | mutex => exact .inr ⟨by decide, rfl, rfl⟩
    | spinlock => exact .inr ⟨by decide, rfl, rfl⟩

/-- On every list of at least two nodes the searches of a program count what they are meant to, and
their counters add up to the number of pairs, exactly when the program is `rwlock.c` or the list has
as many increasing as decreasing pairs; and the three programs agree exactly in the latter case. -/
theorem counts_pairs_iff (linked : Linked first heap nodes) :
    (∀ program, CountsPairs program first heap nodes ↔ program = .rwlock ∨
      lengthPairs heap nodes (· < ·) = lengthPairs heap nodes (· > ·)) ∧
    (Agree first heap ↔ lengthPairs heap nodes (· < ·) = lengthPairs heap nodes (· > ·)) := by
  have ends : ∀ {program search counter}, Completes program first heap search counter ↔
      counter = lengthPairs heap nodes (search.counts program) := completes_iff linked
  have balanced : lengthPairs heap nodes (· < ·) = lengthPairs heap nodes (· > ·) →
      ∀ program search, lengthPairs heap nodes (Search.counts program search) =
        lengthPairs heap nodes search.means := by
    intro same program search
    rcases counts_eq_means program search with intended | ⟨-, rfl, swapped⟩
    · rw [intended]
    · rw [swapped]
      exact same
  have counting : ∀ program, (∀ search, lengthPairs heap nodes (Search.counts program search) =
      lengthPairs heap nodes search.means) → CountsPairs program first heap nodes := by
    intro program means
    refine ⟨fun search => ⟨_, ends.mpr rfl⟩, ?_, ?_⟩
    · intro search counter completed
      rw [ends.mp completed, means]
    · intro increasing decreasing equals up down level
      rw [ends.mp up, ends.mp down, ends.mp level, means, means, means]
      have total := pairs_means (nodes.map (lengthOf heap))
      rw [List.length_map] at total
      exact total
  have decreasing : ∀ program, program ≠ .rwlock →
      Completes program first heap .decreasing (lengthPairs heap nodes (· < ·)) := by
    intro program other
    cases program with
    | rwlock => exact absurd rfl other
    | mutex | spinlock => exact ends.mpr rfl
  refine ⟨fun program => ⟨?_, ?_⟩, ⟨?_, ?_⟩⟩
  · intro counts
    by_cases which : program = .rwlock
    · exact .inl which
    · exact .inr (counts.exact _ _ (decreasing program which))
  · rintro (rfl | same)
    · apply counting
      intro search
      rcases counts_eq_means .rwlock search with intended | ⟨other, -⟩
      · rw [intended]
      · exact absurd rfl other
    · exact counting program (balanced same program)
  · intro agree
    exact agree .mutex .rwlock .decreasing _ _ (decreasing .mutex (by decide)) (ends.mpr rfl)
  · intro same program program' search counter counter' completed completed'
    rw [ends.mp completed, ends.mp completed', balanced same, balanced same]

/-- On a list of lengths one, two and none `main.c` counts right, since it has one pair of each
kind. -/
theorem counts_pairs_balanced : CountsPairs .mutex 1 threeNodes [1, 2, 3] :=
  ((counts_pairs_iff linked_threeNodes).1 .mutex).mpr (.inr (by decide))

/-- Two nodes with texts of length one and two. -/
def twoNodes : Heap Node :=
  (Heap.empty.alloc 1 ⟨.ofBytes [97], 2⟩).alloc 2 ⟨.ofBytes [97, 98], null⟩

/-- On that list `find_decreasing` of `main.c` counts a pair although no length decreases. -/
theorem decreasing_miscounts : ¬CountsPairs .mutex 1 twoNodes [1, 2] := by
  have linked : Linked 1 twoNodes [1, 2] :=
    ⟨⟨rfl, by decide, _, rfl, rfl, by decide, _, rfl, rfl⟩, by decide⟩
  intro counts
  have wrong := counts.exact .decreasing 1 ((completes_iff linked).mpr (by decide))
  revert wrong
  decide

end Main

end NsuOs.Storage
