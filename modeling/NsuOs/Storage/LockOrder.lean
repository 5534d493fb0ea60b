import NsuOs.Storage.HandOverHand

/-!
# The locks of the list are taken in the order of the list

What a step of a thread does to its variables and to the locks is said once, by `Seek` and `Move`.
At every place a thread holds the locks of at most three consecutive nodes, and the lock it asks
for is that of the node behind them. The position of a node in the list is therefore a rank in
which every thread acquires, and the threads cannot all be blocked. The list is never written, so
the pointers a thread has read stay those of its neighbours.
-/
namespace NsuOs.Storage

open NsuOs.Run

variable {ι : Type*}

/-- The address a node points to when these are the nodes behind it. -/
def following (rest : List Ptr) : Ptr := rest.head?.getD null

/-- The locks a search holds at its place. -/
def Finder.held (finder : Finder) : List Ptr :=
  match finder.pc with
  | .readNext | .lockNext | .unlockLast => [finder.node]
  | .compare => [finder.node, finder.next]
  | .unlockNext => [finder.tmp, finder.next]
  | .unlockTmp => [finder.tmp]
  | .start | .lockNode | .increment | .fault => []

/-- The locks `random_swap` holds at its place. -/
def Swapper.held (swapper : Swapper) : List Ptr :=
  match swapper.pc with
  | .checkNext | .lockCurrent | .leavePrev => [swapper.prev]
  | .checkFuture | .lockFuture | .leaveCurrent => [swapper.prev, swapper.current]
  | .advance => [swapper.prev, swapper.current, swapper.future]
  | .unlockFuture => [swapper.node, swapper.prev, swapper.current]
  | .unlockCurrent => [swapper.node, swapper.prev]
  | .unlockNode => [swapper.node]
  | .start | .test | .lockPrev | .increment | .fault => []

/-- The locks a thread holds at its place. -/
def Thread.held : Thread → List Ptr
  | .finder _ locals => locals.held
  | .swapper locals => locals.held

/-- Where in the list the pointers of a search are. -/
def Finder.Placed (nodes : List Ptr) (finder : Finder) : Prop :=
  match finder.pc with
  | .lockNode | .readNext | .unlockLast => ∃ rest, finder.node :: rest <:+ nodes
  | .lockNext | .compare =>
    finder.tmp = finder.node ∧ ∃ rest, finder.node :: finder.next :: rest <:+ nodes
  | .unlockNext =>
    finder.node = finder.next ∧ ∃ rest, finder.tmp :: finder.next :: rest <:+ nodes
  | .unlockTmp => ∃ rest, finder.tmp :: finder.node :: rest <:+ nodes
  | .start | .increment => True
  | .fault => False

/-- Where in the list the pointers of `random_swap` are. -/
def Swapper.Placed (nodes : List Ptr) (swapper : Swapper) : Prop :=
  match swapper.pc with
  | .test | .lockPrev | .checkNext | .lockCurrent | .checkFuture =>
    ∃ rest, swapper.prev :: swapper.current :: rest <:+ nodes ∧ swapper.future = following rest
  | .lockFuture | .advance =>
    ∃ rest, swapper.prev :: swapper.current :: swapper.future :: rest <:+ nodes
  | .unlockFuture | .unlockCurrent | .unlockNode =>
    ∃ rest, swapper.node :: swapper.prev :: swapper.current :: rest <:+ nodes ∧
      swapper.future = following rest
  | .leaveCurrent => ∃ rest, swapper.prev :: swapper.current :: rest <:+ nodes
  | .leavePrev => ∃ rest, swapper.prev :: rest <:+ nodes
  | .start | .increment => True
  | .fault => False

/-- Where in the list the pointers of a thread are. -/
def Thread.Placed (nodes : List Ptr) : Thread → Prop
  | .finder _ locals => locals.Placed nodes
  | .swapper locals => locals.Placed nodes

/-- A list of nodes reached from its first one. -/
structure Linked (first : Ptr) (heap : Heap Node) (nodes : List Ptr) : Prop where
  /-- The nodes are chained from the first one on. -/
  chain : Chain heap.get Node.next first nodes
  /-- There are at least two. -/
  two : 2 ≤ nodes.length

variable {first : Ptr} {heap : Heap Node} {nodes : List Ptr}

/-- A node points to the node behind it. -/
theorem Linked.nextOf_eq (linked : Linked first heap nodes) {p : Ptr} {rest : List Ptr}
    (suffix : p :: rest <:+ nodes) : nextOf heap p = some (following rest) := by
  obtain ⟨front, split⟩ := suffix
  have chain := linked.chain
  rw [← split] at chain
  obtain ⟨value, here, link⟩ := chain.suffix.next_eq
  simp [nextOf, here, link, following]

/-- The first node is the first of the list and has another one behind it. -/
theorem Linked.first_two (linked : Linked first heap nodes) :
    ∃ second rest, first :: second :: rest = nodes := by
  have chain := linked.chain
  have two := linked.two
  cases nodes with
  | nil => simp at two
  | cons p rest =>
    cases rest with
    | nil => simp at two
    | cons q rest => exact ⟨q, rest, by rw [chain.1]⟩

/-- The nodes behind a node of the list are gone from it exactly at its end. -/
theorem Linked.following_eq_null (linked : Linked first heap nodes) {p : Ptr} {rest : List Ptr}
    (suffix : p :: rest <:+ nodes) : following rest = null ↔ rest = [] := by
  cases rest with
  | nil => simp [following]
  | cons q rest =>
    have member : q ∈ nodes := suffix.subset (by simp)
    have nonnull := (linked.chain.live member).1
    simp [following, nonnull]

/-- The nodes behind a node of the list are determined. -/
theorem Linked.rest_unique (linked : Linked first heap nodes) {p : Ptr} {left right : List Ptr}
    (one : p :: left <:+ nodes) (other : p :: right <:+ nodes) : left = right := by
  obtain ⟨front, split⟩ := one
  obtain ⟨front', split'⟩ := other
  have chain := linked.chain
  have chain' := linked.chain
  rw [← split] at chain
  rw [← split'] at chain'
  have same := chain.suffix.unique chain'.suffix
  exact (List.cons.inj same).2

/-- No node of a window occurs twice. -/
theorem Linked.nodup (linked : Linked first heap nodes) {window : List Ptr}
    (suffix : window <:+ nodes) : window.Nodup :=
  linked.chain.nodup.sublist suffix.sublist

/-- The list and its locks as every step leaves them. -/
structure Steady (first : Ptr) (heap : Heap Node) (_ : Unit) (shared : Shared ι) : Prop where
  /-- The list begins where it began. -/
  first : shared.first = first
  /-- Its nodes are as they were. -/
  heap : shared.heap = heap
  /-- No lock is held against its rules. -/
  exclusive : shared.locks.Exclusive

/-- The assertion on one thread: it holds the locks of its place, and its pointers are where its
place says. -/
structure Own (nodes : List Ptr) (_ : Unit) (me : ι) (shared : Shared ι) (mine : Thread) :
    Prop where
  /-- It holds exactly the locks of its place. -/
  holds : ∀ p, shared.locks.Holds me p ↔ p ∈ mine.held
  /-- Its pointers are where its place says. -/
  placed : mine.Placed nodes

/-- What a step must achieve. -/
def Restores (first : Ptr) (heap : Heap Node) (nodes : List Ptr) (me : ι)
    (shared after : Shared ι) (moved : Thread) : Prop :=
  Steady first heap () after ∧ Own nodes () me after moved ∧
    ∀ j theirs, j ≠ me → Own nodes () j shared theirs → Own nodes () j after theirs

section Kinds

variable {me : ι} {shared : Shared ι} {mine moved : Thread}

/-- A step that takes and gives back no lock. -/
theorem Steady.stays {after : Shared ι} (steady : Steady first heap () shared)
    (own : Own nodes () me shared mine) (firsts : after.first = shared.first)
    (heaps : after.heap = shared.heap) (locks : after.locks = shared.locks)
    (held : moved.held = mine.held) (placed : moved.Placed nodes) :
    Restores first heap nodes me shared after moved := by
  refine ⟨⟨firsts.trans steady.first, heaps.trans steady.heap, ?_⟩, ⟨?_, placed⟩, ?_⟩
  · rw [locks]
    exact steady.exclusive
  · intro p
    rw [locks, held]
    exact own.holds p
  · intro j theirs _ their
    refine ⟨?_, their.placed⟩
    intro p
    rw [locks]
    exact their.holds p

variable [DecidableEq ι]

/-- A step that takes a lock. -/
theorem Steady.locks (steady : Steady first heap () shared) (own : Own nodes () me shared mine)
    {access : Access} {p : Ptr} {locks : LockTable ι Ptr}
    (granted : shared.locks.acquire access me p = some locks)
    (held : ∀ q, q ∈ moved.held ↔ q ∈ mine.held ∨ q = p) (placed : moved.Placed nodes) :
    Restores first heap nodes me shared { shared with locks := locks } moved := by
  refine ⟨⟨steady.first, steady.heap, steady.exclusive.acquire granted⟩, ⟨?_, placed⟩, ?_⟩
  · intro q
    change locks.Holds me q ↔ q ∈ moved.held
    rw [LockTable.holds_acquire granted, own.holds q, held q]
    simp
  · intro j theirs other their
    refine ⟨?_, their.placed⟩
    intro q
    change locks.Holds j q ↔ q ∈ theirs.held
    rw [LockTable.holds_acquire granted, their.holds q]
    simp [other]

/-- A step that gives back a lock. -/
theorem Steady.releases (steady : Steady first heap () shared) (own : Own nodes () me shared mine)
    {p : Ptr} {locks : LockTable ι Ptr} (released : shared.locks.release me p = some locks)
    (held : ∀ q, q ∈ moved.held ↔ q ∈ mine.held ∧ q ≠ p) (placed : moved.Placed nodes) :
    Restores first heap nodes me shared { shared with locks := locks } moved := by
  have change' := LockTable.holds_release steady.exclusive released
  refine ⟨⟨steady.first, steady.heap, steady.exclusive.release released⟩, ⟨?_, placed⟩, ?_⟩
  · intro q
    change locks.Holds me q ↔ q ∈ moved.held
    rw [change', own.holds q, held q]
    simp
  · intro j theirs other their
    refine ⟨?_, their.placed⟩
    intro q
    change locks.Holds j q ↔ q ∈ theirs.held
    rw [change', their.holds q]
    simp [other]

/-- A lock the thread holds is given back. -/
theorem unlock_holds {p : Ptr} {onward wrong : Thread} (holds : shared.locks.Holds me p) :
    ∃ locks, shared.locks.release me p = some locks ∧
      shared.unlock me p onward wrong = ({ shared with locks := locks }, onward) := by
  obtain ⟨locks, released⟩ := LockTable.release_of_holds holds
  exact ⟨locks, released, by simp [Shared.unlock, released]⟩

end Kinds

section Steps

variable [DecidableEq ι] {program : Program} {me : ι} {shared after : Shared ι} {moved : Thread}

/-- A granted lock is what the step says it is. -/
theorem lock_eq_some {access : Access} {p : Ptr} {onward : Thread}
    (taken : shared.lock access me p onward = some (after, moved)) :
    ∃ locks, shared.locks.acquire access me p = some locks ∧
      after = { shared with locks := locks } ∧ moved = onward := by
  obtain ⟨locks, granted, same⟩ := Option.map_eq_some_iff.mp taken
  obtain ⟨rfl, rfl⟩ := Prod.mk.inj same
  exact ⟨locks, granted, rfl, rfl⟩

/-- What a step does to the locks. -/
inductive Effect
  /-- The locks stay. -/
  | stays
  /-- A lock is taken. -/
  | takes (p : Ptr)
  /-- A lock is given back. -/
  | gives (p : Ptr)

/-- The memory around a step with an effect. -/
def Effect.Performed (access : Access) (me : ι) (shared after : Shared ι) : Effect → Prop
  | .stays => after.first = shared.first ∧ after.heap = shared.heap ∧ after.locks = shared.locks
  | .takes p => ∃ locks, shared.locks.acquire access me p = some locks ∧
      after = { shared with locks := locks }
  | .gives p => ∃ locks, shared.locks.release me p = some locks ∧
      after = { shared with locks := locks }

/-- The locks held around a step with an effect. -/
def Effect.Changes (before after : List Ptr) : Effect → Prop
  | .stays => after = before
  | .takes p => ∀ q, q ∈ after ↔ q ∈ before ∨ q = p
  | .gives p => ∀ q, q ∈ after ↔ q ∈ before ∧ q ≠ p

/-- What the steps of a search do to its variables and to the locks. -/
inductive Seek (program : Program) (heap : Heap Node) (nodes : List Ptr) (search : Search) :
    Finder → Effect → Finder → Prop
  /-- A pass begins at the first node. -/
  | begins {node next tmp counter first second rest} (whole : nodes = first :: second :: rest) :
      Seek program heap nodes search ⟨.start, node, next, tmp, counter⟩ .stays
        ⟨.lockNode, first, next, tmp, 0⟩
  /-- The node is locked. -/
  | locksNode {node next tmp counter} :
      Seek program heap nodes search ⟨.lockNode, node, next, tmp, counter⟩ (.takes node)
        ⟨.readNext, node, next, tmp, counter⟩
  /-- There is a node behind it. -/
  | seesNext {node next tmp counter ahead rest} (window : node :: ahead :: rest <:+ nodes) :
      Seek program heap nodes search ⟨.readNext, node, next, tmp, counter⟩ .stays
        ⟨.lockNext, node, ahead, node, counter⟩
  /-- It is the last one. -/
  | seesEnd {node next tmp counter} (last : [node] <:+ nodes) :
      Seek program heap nodes search ⟨.readNext, node, next, tmp, counter⟩ .stays
        ⟨.unlockLast, node, null, node, counter⟩
  /-- The node behind it is locked. -/
  | locksNext {node next tmp counter} :
      Seek program heap nodes search ⟨.lockNext, node, next, tmp, counter⟩ (.takes next)
        ⟨.compare, node, next, tmp, counter⟩
  /-- The two lengths are compared, and the pass moves on. -/
  | compares {node next counter rest left right} (window : node :: next :: rest <:+ nodes)
      (here : heap.get node = some left) (there : heap.get next = some right) :
      Seek program heap nodes search ⟨.compare, node, next, node, counter⟩ .stays
        ⟨.unlockNext, next, next, node,
          if search.counts program left.value.strlen right.value.strlen then counter + 1
          else counter⟩
  /-- The second lock is given back. -/
  | unlocksNext {next tmp counter rest} (window : tmp :: next :: rest <:+ nodes) :
      Seek program heap nodes search ⟨.unlockNext, next, next, tmp, counter⟩ (.gives next)
        ⟨.unlockTmp, next, next, tmp, counter⟩
  /-- So is the first. -/
  | unlocksTmp {node next tmp counter rest} (window : tmp :: node :: rest <:+ nodes) :
      Seek program heap nodes search ⟨.unlockTmp, node, next, tmp, counter⟩ (.gives tmp)
        ⟨.lockNode, node, next, tmp, counter⟩
  /-- The lock of the last node is given back. -/
  | unlocksLast {node next tmp counter} :
      Seek program heap nodes search ⟨.unlockLast, node, next, tmp, counter⟩ (.gives node)
        ⟨.increment, node, next, tmp, counter⟩
  /-- The pass is counted. -/
  | counts {node next tmp counter} :
      Seek program heap nodes search ⟨.increment, node, next, tmp, counter⟩ .stays
        ⟨.start, node, next, tmp, counter⟩

/-- A step that gives back a lock of the thread's place. -/
theorem Own.gives {mine onward wrong : Thread} {p : Ptr} (access : Access)
    (own : Own nodes () me shared mine) (member : p ∈ mine.held)
    (taken : shared.unlock me p onward wrong = (after, moved)) :
    moved = onward ∧ (Effect.gives p).Performed access me shared after := by
  obtain ⟨locks, released, same⟩ := unlock_holds ((own.holds p).mpr member)
  obtain ⟨rfl, rfl⟩ := Prod.mk.inj (same.symm.trans taken)
  exact ⟨rfl, locks, released, rfl⟩

/-- Every step of a search is one of these. -/
theorem find_seek (linked : Linked first heap nodes) (steady : Steady first heap () shared)
    {search : Search} {finder : Finder} (own : Own nodes () me shared (.finder search finder))
    (taken : find program search me shared finder = some (after, moved)) :
    ∃ effect onward, moved = .finder search onward ∧
      Seek program heap nodes search finder effect onward ∧
      effect.Performed program.finderAccess me shared after := by
  have placed := own.placed
  obtain ⟨pc, node, next, tmp, counter⟩ := finder
  cases pc with
  | start =>
    obtain ⟨second, tail, two⟩ := linked.first_two
    have whole : first :: second :: tail <:+ nodes := by rw [two]
    have nonempty : first ≠ null := (linked.chain.live (whole.subset (by simp))).1
    have onward : second ≠ null := (linked.chain.live (whole.subset (by simp))).1
    have link : nextOf heap first = some second := linked.nextOf_eq whole
    simp only [find, steady.first, steady.heap, nonempty, link, onward, if_false,
      Option.some.injEq, Prod.mk.injEq] at taken
    obtain ⟨rfl, rfl⟩ := taken
    exact ⟨_, _, rfl, .begins two.symm, rfl, rfl, rfl⟩
  | lockNode =>
    obtain ⟨locks, granted, rfl, rfl⟩ := lock_eq_some taken
    exact ⟨_, _, rfl, .locksNode, locks, granted, rfl⟩
  | readNext =>
    obtain ⟨rest, suffix⟩ := placed
    have link := linked.nextOf_eq suffix
    simp only [find, steady.heap, link, Option.some.injEq, Prod.mk.injEq] at taken
    obtain ⟨rfl, rfl⟩ := taken
    have ends := linked.following_eq_null suffix
    cases rest with
    | nil =>
      simp only [ends.mpr rfl, if_true]
      exact ⟨_, _, rfl, .seesEnd suffix, rfl, rfl, rfl⟩
    | cons q rest =>
      have more : following (q :: rest) ≠ null := by
        intro none
        cases ends.mp none
      simp only [more, if_false]
      exact ⟨_, _, rfl, .seesNext suffix, rfl, rfl, rfl⟩
  | lockNext =>
    obtain ⟨locks, granted, rfl, rfl⟩ := lock_eq_some taken
    exact ⟨_, _, rfl, .locksNext, locks, granted, rfl⟩
  | compare =>
    obtain ⟨same, rest, suffix⟩ := placed
    simp only at same suffix
    obtain ⟨left, here⟩ := (linked.chain.live (suffix.subset (by simp : node ∈ _))).2
    obtain ⟨right, there⟩ := (linked.chain.live (suffix.subset (by simp : next ∈ _))).2
    have link : left.next = next := by
      have points := linked.nextOf_eq suffix
      simpa [nextOf, here, following] using points
    simp only [find, steady.heap, here, there, Option.some.injEq, Prod.mk.injEq] at taken
    obtain ⟨rfl, rfl⟩ := taken
    subst same link
    exact ⟨_, _, rfl, .compares suffix here there, rfl, rfl, rfl⟩
  | unlockNext =>
    obtain ⟨same, rest, suffix⟩ := placed
    simp only at same suffix
    subst same
    obtain ⟨rfl, performed⟩ := own.gives program.finderAccess
      (by simp [Thread.held, Finder.held]) (Option.some.inj taken)
    exact ⟨_, _, rfl, .unlocksNext suffix, performed⟩
  | unlockTmp =>
    obtain ⟨rest, suffix⟩ := placed
    obtain ⟨rfl, performed⟩ := own.gives program.finderAccess
      (by simp [Thread.held, Finder.held]) (Option.some.inj taken)
    exact ⟨_, _, rfl, .unlocksTmp suffix, performed⟩
  | unlockLast =>
    obtain ⟨rfl, performed⟩ := own.gives program.finderAccess
      (by simp [Thread.held, Finder.held]) (Option.some.inj taken)
    exact ⟨_, _, rfl, .unlocksLast, performed⟩
  | increment =>
    obtain ⟨rfl, rfl⟩ := Prod.mk.inj (Option.some.inj taken)
    exact ⟨_, _, rfl, .counts, rfl, rfl, rfl⟩
  | fault => exact placed.elim

/-- Every step of a search leaves the pointers in place. -/
theorem Seek.placed {search : Search} {finder onward : Finder} {effect : Effect}
    (seek : Seek program heap nodes search finder effect onward) (placed : finder.Placed nodes) :
    onward.Placed nodes := by
  cases seek with
  | begins whole =>
    rename_i first second rest
    exact ⟨second :: rest, by rw [whole]⟩
  | seesNext window => exact ⟨rfl, _, window⟩
  | seesEnd last => exact ⟨_, last⟩
  | compares window here there => exact ⟨rfl, _, window⟩
  | unlocksNext window => exact ⟨_, window⟩
  | unlocksTmp window => exact ⟨_, (List.suffix_cons _ _).trans window⟩
  | locksNode | locksNext => exact placed
  | unlocksLast | counts => trivial

/-- Every step of a search changes the locks of the place by its effect. -/
theorem Seek.held {search : Search} {finder onward : Finder} {effect : Effect}
    (linked : Linked first heap nodes)
    (seek : Seek program heap nodes search finder effect onward) :
    effect.Changes finder.held onward.held := by
  cases seek with
  | begins | seesNext | seesEnd | compares | counts => rfl
  | locksNode | locksNext | unlocksTmp | unlocksLast => simp [Effect.Changes, Finder.held]
  | unlocksNext window =>
    have nodup := linked.nodup window
    simp only [List.nodup_cons, List.mem_cons, not_or] at nodup
    intro q
    simp only [Finder.held, List.mem_cons, List.not_mem_nil, or_false]
    grind

/-- A step with an effect keeps the assertions when the thread's place changes by that effect. -/
theorem Effect.restores {mine : Thread} {access : Access} {effect : Effect}
    (steady : Steady first heap () shared) (own : Own nodes () me shared mine)
    (performed : effect.Performed access me shared after)
    (changes : effect.Changes mine.held moved.held) (placed : moved.Placed nodes) :
    Restores first heap nodes me shared after moved := by
  cases effect with
  | stays =>
    obtain ⟨firsts, heaps, locks⟩ := performed
    exact steady.stays own firsts heaps locks changes placed
  | takes p =>
    obtain ⟨locks, granted, rfl⟩ := performed
    exact steady.locks own granted changes placed
  | gives p =>
    obtain ⟨locks, released, rfl⟩ := performed
    exact steady.releases own released changes placed

/-- Every step of a search keeps the assertions. -/
theorem find_restores (linked : Linked first heap nodes) (steady : Steady first heap () shared)
    {search : Search} {finder : Finder} (own : Own nodes () me shared (.finder search finder))
    (taken : find program search me shared finder = some (after, moved)) :
    Restores first heap nodes me shared after moved := by
  obtain ⟨effect, onward, rfl, seek, performed⟩ := find_seek linked steady own taken
  exact effect.restores steady own performed (seek.held linked) (seek.placed own.placed)

/-- The addresses a window of three nodes gives for `prev->next` and `prev->next->next`. -/
theorem Linked.nextOf_two (linked : Linked first heap nodes) {p q : Ptr} {rest : List Ptr}
    (suffix : p :: q :: rest <:+ nodes) :
    nextOf heap p = some q ∧ (nextOf heap p).bind (nextOf heap) = some (following rest) := by
  have near : nextOf heap p = some q := linked.nextOf_eq suffix
  have far := linked.nextOf_eq ((List.suffix_cons p _).trans suffix)
  exact ⟨near, by rw [near]; exact far⟩

/-- What the steps of `random_swap` do to its variables and to the locks. -/
inductive Move (nodes : List Ptr) : Swapper → Effect → Swapper → Prop
  /-- A walk begins at the first two nodes. -/
  | begins {prev current future node index i first second rest} (chosen : Nat)
      (whole : nodes = first :: second :: rest) :
      Move nodes ⟨.start, prev, current, future, node, index, i⟩ .stays
        ⟨.test, first, second, following rest, node, chosen, 0⟩
  /-- Another iteration begins. -/
  | enters {prev current future node index i} (more : i < index) :
      Move nodes ⟨.test, prev, current, future, node, index, i⟩ .stays
        ⟨.lockPrev, prev, current, future, node, index, i⟩
  /-- The index is reached. -/
  | ends {prev current future node index i} (done : index ≤ i) :
      Move nodes ⟨.test, prev, current, future, node, index, i⟩ .stays
        ⟨.increment, prev, current, future, node, index, i⟩
  /-- The first node is locked. -/
  | locksPrev {prev current future node index i} :
      Move nodes ⟨.lockPrev, prev, current, future, node, index, i⟩ (.takes prev)
        ⟨.checkNext, prev, current, future, node, index, i⟩
  /-- There is a node behind it. -/
  | seesNext {prev current future node index i} :
      Move nodes ⟨.checkNext, prev, current, future, node, index, i⟩ .stays
        ⟨.lockCurrent, prev, current, future, node, index, i⟩
  /-- The second node is locked. -/
  | locksCurrent {prev current future node index i} :
      Move nodes ⟨.lockCurrent, prev, current, future, node, index, i⟩ (.takes current)
        ⟨.checkFuture, prev, current, future, node, index, i⟩
  /-- There is a node behind that one too. -/
  | seesFuture {prev current future node index i rest}
      (window : prev :: current :: future :: rest <:+ nodes) :
      Move nodes ⟨.checkFuture, prev, current, future, node, index, i⟩ .stays
        ⟨.lockFuture, prev, current, future, node, index, i⟩
  /-- There is none, and the loop breaks off. -/
  | breaks {prev current future node index i} (last : [prev, current] <:+ nodes) :
      Move nodes ⟨.checkFuture, prev, current, future, node, index, i⟩ .stays
        ⟨.leaveCurrent, prev, current, future, node, index, i⟩
  /-- The third node is locked. -/
  | locksFuture {prev current future node index i} :
      Move nodes ⟨.lockFuture, prev, current, future, node, index, i⟩ (.takes future)
        ⟨.advance, prev, current, future, node, index, i⟩
  /-- The three pointers move on by one node. -/
  | advances {prev current future node index i rest}
      (window : prev :: current :: future :: rest <:+ nodes) :
      Move nodes ⟨.advance, prev, current, future, node, index, i⟩ .stays
        ⟨.unlockFuture, current, future, following rest, prev, index, i⟩
  /-- The lock of the third node is given back. -/
  | unlocksFuture {prev current future node index i rest}
      (window : node :: prev :: current :: rest <:+ nodes) :
      Move nodes ⟨.unlockFuture, prev, current, future, node, index, i⟩ (.gives current)
        ⟨.unlockCurrent, prev, current, future, node, index, i⟩
  /-- That of the second node is. -/
  | unlocksCurrent {prev current future node index i rest}
      (window : node :: prev :: current :: rest <:+ nodes) :
      Move nodes ⟨.unlockCurrent, prev, current, future, node, index, i⟩ (.gives prev)
        ⟨.unlockNode, prev, current, future, node, index, i⟩
  /-- That of the first node is, and the iteration is over. -/
  | unlocksNode {prev current future node index i rest}
      (window : node :: prev :: current :: rest <:+ nodes) :
      Move nodes ⟨.unlockNode, prev, current, future, node, index, i⟩ (.gives node)
        ⟨.test, prev, current, future, node, index, i + 1⟩
  /-- Behind the break the second lock is given back. -/
  | leavesCurrent {prev current future node index i rest}
      (window : prev :: current :: rest <:+ nodes) :
      Move nodes ⟨.leaveCurrent, prev, current, future, node, index, i⟩ (.gives current)
        ⟨.leavePrev, prev, current, future, node, index, i⟩
  /-- So is the first. -/
  | leavesPrev {prev current future node index i} :
      Move nodes ⟨.leavePrev, prev, current, future, node, index, i⟩ (.gives prev)
        ⟨.increment, prev, current, future, node, index, i⟩
  /-- The walk is counted. -/
  | counts {prev current future node index i} :
      Move nodes ⟨.increment, prev, current, future, node, index, i⟩ .stays
        ⟨.start, prev, current, future, node, index, i⟩

/-- Every step of `random_swap` is a move. -/
theorem randomSwap_move (linked : Linked first heap nodes) (steady : Steady first heap () shared)
    {swapper : Swapper} {event : Event} (own : Own nodes () me shared (.swapper swapper))
    (taken : randomSwap me shared swapper event = some (after, moved)) :
    ∃ effect onward, moved = .swapper onward ∧ Move nodes swapper effect onward ∧
      effect.Performed .write me shared after := by
  have placed := own.placed
  obtain ⟨pc, prev, current, future, node, index, i⟩ := swapper
  cases event with
  | index chosen =>
    cases pc with
    | start =>
      obtain ⟨second, tail, two⟩ := linked.first_two
      have whole : first :: second :: tail <:+ nodes := by rw [two]
      have nonempty : first ≠ null := (linked.chain.live (whole.subset (by simp))).1
      have onward : second ≠ null := (linked.chain.live (whole.subset (by simp))).1
      have near : nextOf heap first = some second := linked.nextOf_eq whole
      have far := linked.nextOf_eq ((List.suffix_cons first _).trans whole)
      simp only [randomSwap, steady.first, steady.heap, nonempty, near, far, onward, if_false,
        Option.some.injEq, Prod.mk.injEq] at taken
      obtain ⟨rfl, rfl⟩ := taken
      exact ⟨_, _, rfl, .begins chosen two.symm, rfl, rfl, rfl⟩
    | test | lockPrev | checkNext | lockCurrent | checkFuture | lockFuture | advance | unlockFuture
    | unlockCurrent | unlockNode | leaveCurrent | leavePrev | increment | fault =>
      simp [randomSwap] at taken
  | go =>
    cases pc with
    | start => simp [randomSwap] at taken
    | test =>
      obtain ⟨rfl, rfl⟩ := Prod.mk.inj (Option.some.inj taken)
      by_cases more : i < index
      · simp only [more, if_true]
        exact ⟨_, _, rfl, .enters more, rfl, rfl, rfl⟩
      · simp only [more, if_false]
        exact ⟨_, _, rfl, .ends (Nat.le_of_not_lt more), rfl, rfl, rfl⟩
    | lockPrev =>
      obtain ⟨locks, granted, rfl, rfl⟩ := lock_eq_some taken
      exact ⟨_, _, rfl, .locksPrev, locks, granted, rfl⟩
    | checkNext =>
      obtain ⟨rest, suffix, -⟩ := placed
      have near := (linked.nextOf_two suffix).1
      have nonnull : current ≠ null := (linked.chain.live (suffix.subset (by simp))).1
      simp only [randomSwap, steady.heap, near, nonnull, if_false, Option.some.injEq,
        Prod.mk.injEq] at taken
      obtain ⟨rfl, rfl⟩ := taken
      exact ⟨_, _, rfl, .seesNext, rfl, rfl, rfl⟩
    | lockCurrent =>
      obtain ⟨rest, suffix, -⟩ := placed
      have near := (linked.nextOf_two suffix).1
      simp only [randomSwap, steady.heap, near] at taken
      obtain ⟨locks, granted, rfl, rfl⟩ := lock_eq_some taken
      exact ⟨_, _, rfl, .locksCurrent, locks, granted, rfl⟩
    | checkFuture =>
      obtain ⟨rest, suffix, ahead⟩ := placed
      have far := (linked.nextOf_two suffix).2
      have ends := linked.following_eq_null ((List.suffix_cons prev _).trans suffix)
      simp only [randomSwap, steady.heap, far, Option.some.injEq, Prod.mk.injEq] at taken
      obtain ⟨rfl, rfl⟩ := taken
      by_cases last : following rest = null
      · simp only [last, if_true]
        obtain rfl := ends.mp last
        exact ⟨_, _, rfl, .breaks suffix, rfl, rfl, rfl⟩
      · simp only [last, if_false]
        cases rest with
        | nil => exact absurd rfl last
        | cons q rest =>
          obtain rfl : future = q := ahead
          exact ⟨_, _, rfl, .seesFuture suffix, rfl, rfl, rfl⟩
    | lockFuture =>
      obtain ⟨rest, suffix⟩ := placed
      have far := (linked.nextOf_two suffix).2
      simp only [randomSwap, steady.heap, far] at taken
      obtain ⟨locks, granted, rfl, rfl⟩ := lock_eq_some taken
      exact ⟨_, _, rfl, .locksFuture, locks, granted, rfl⟩
    | advance =>
      obtain ⟨rest, suffix⟩ := placed
      have near : nextOf heap prev = some current := linked.nextOf_eq suffix
      have later := (List.suffix_cons prev _).trans suffix
      have far : nextOf heap current = some future := linked.nextOf_eq later
      have beyond := linked.nextOf_eq ((List.suffix_cons current _).trans later)
      simp only [randomSwap, steady.heap, near, far, beyond, Option.some.injEq,
        Prod.mk.injEq] at taken
      obtain ⟨rfl, rfl⟩ := taken
      exact ⟨_, _, rfl, .advances suffix, rfl, rfl, rfl⟩
    | unlockFuture =>
      obtain ⟨rest, suffix, -⟩ := placed
      have far := (linked.nextOf_two suffix).2
      simp only [randomSwap, steady.heap, far, following, List.head?_cons, Option.getD_some,
        Option.some.injEq] at taken
      obtain ⟨rfl, performed⟩ := own.gives .write (by simp [Thread.held, Swapper.held]) taken
      exact ⟨_, _, rfl, .unlocksFuture suffix, performed⟩
    | unlockCurrent =>
      obtain ⟨rest, suffix, -⟩ := placed
      have near := (linked.nextOf_two suffix).1
      simp only [randomSwap, steady.heap, near, Option.some.injEq] at taken
      obtain ⟨rfl, performed⟩ := own.gives .write (by simp [Thread.held, Swapper.held]) taken
      exact ⟨_, _, rfl, .unlocksCurrent suffix, performed⟩
    | unlockNode =>
      obtain ⟨rest, suffix, -⟩ := placed
      obtain ⟨rfl, performed⟩ := own.gives .write (by simp [Thread.held, Swapper.held])
        (Option.some.inj taken)
      exact ⟨_, _, rfl, .unlocksNode suffix, performed⟩
    | leaveCurrent =>
      obtain ⟨rest, suffix⟩ := placed
      have near := (linked.nextOf_two suffix).1
      simp only [randomSwap, steady.heap, near, Option.some.injEq] at taken
      obtain ⟨rfl, performed⟩ := own.gives .write (by simp [Thread.held, Swapper.held]) taken
      exact ⟨_, _, rfl, .leavesCurrent suffix, performed⟩
    | leavePrev =>
      obtain ⟨rfl, performed⟩ := own.gives .write (by simp [Thread.held, Swapper.held])
        (Option.some.inj taken)
      exact ⟨_, _, rfl, .leavesPrev, performed⟩
    | increment =>
      obtain ⟨rfl, rfl⟩ := Prod.mk.inj (Option.some.inj taken)
      exact ⟨_, _, rfl, .counts, rfl, rfl, rfl⟩
    | fault => exact placed.elim

/-- Every move leaves the pointers in place. -/
theorem Move.placed {swapper onward : Swapper} {effect : Effect}
    (move : Move nodes swapper effect onward) (placed : swapper.Placed nodes) :
    onward.Placed nodes := by
  cases move with
  | begins chosen whole => exact ⟨_, whole ▸ List.suffix_refl _, rfl⟩
  | seesFuture window => exact ⟨_, window⟩
  | breaks last => exact ⟨_, last⟩
  | advances window => exact ⟨_, window, rfl⟩
  | unlocksNode window =>
    obtain ⟨rest, suffix, ahead⟩ := placed
    exact ⟨rest, (List.suffix_cons _ _).trans suffix, ahead⟩
  | leavesCurrent window => exact ⟨_, window⟩
  | enters | locksPrev | seesNext | locksCurrent | locksFuture | unlocksFuture | unlocksCurrent =>
    exact placed
  | ends | leavesPrev | counts => trivial

/-- Every move changes the locks of the place by its effect. -/
theorem Move.held {swapper onward : Swapper} {effect : Effect} (linked : Linked first heap nodes)
    (move : Move nodes swapper effect onward) : effect.Changes swapper.held onward.held := by
  cases move with
  | begins | enters | ends | seesNext | seesFuture | breaks | advances | counts => rfl
  | locksPrev | locksCurrent | locksFuture => simp [Effect.Changes, Swapper.held, or_assoc]
  | unlocksNode | leavesPrev => simp [Effect.Changes, Swapper.held]
  | unlocksFuture window | unlocksCurrent window | leavesCurrent window =>
    -- A node given back is none of those that stay locked.
    have nodup := linked.nodup window
    simp only [List.nodup_cons, List.mem_cons, not_or] at nodup
    intro q
    simp only [Swapper.held, List.mem_cons, List.not_mem_nil, or_false]
    grind

/-- Every step of `random_swap` keeps the assertions. -/
theorem randomSwap_restores (linked : Linked first heap nodes)
    (steady : Steady first heap () shared) {swapper : Swapper} {event : Event}
    (own : Own nodes () me shared (.swapper swapper))
    (taken : randomSwap me shared swapper event = some (after, moved)) :
    Restores first heap nodes me shared after moved := by
  obtain ⟨effect, onward, rfl, move, performed⟩ := randomSwap_move linked steady own taken
  exact effect.restores steady own performed (move.held linked) (move.placed own.placed)

end Steps

section Order

/-- The first nodes of a window are consecutive in the list. -/
theorem infix_of_suffix (window : List Ptr) {rest : List Ptr} (suffix : window ++ rest <:+ nodes) :
    window <:+: nodes :=
  (List.prefix_append window rest).isInfix.trans suffix.isInfix

/-- A thread holds the locks of at most three consecutive nodes. -/
theorem Thread.Placed.held {mine : Thread} (placed : mine.Placed nodes) :
    mine.held <:+: nodes ∧ mine.held.length ≤ 3 := by
  have nothing : ([] : List Ptr) <:+: nodes := List.nil_infix
  cases mine with
  | finder search finder =>
    obtain ⟨pc, node, next, tmp, counter⟩ := finder
    cases pc with
    | start | lockNode | increment | fault => exact ⟨nothing, by simp [Thread.held, Finder.held]⟩
    | readNext | unlockLast =>
      obtain ⟨rest, suffix⟩ := placed
      exact ⟨infix_of_suffix [node] suffix, by simp [Thread.held, Finder.held]⟩
    | lockNext =>
      obtain ⟨-, rest, suffix⟩ := placed
      exact ⟨infix_of_suffix [node] suffix, by simp [Thread.held, Finder.held]⟩
    | compare =>
      obtain ⟨-, rest, suffix⟩ := placed
      exact ⟨infix_of_suffix [node, next] suffix, by simp [Thread.held, Finder.held]⟩
    | unlockNext =>
      obtain ⟨-, rest, suffix⟩ := placed
      exact ⟨infix_of_suffix [tmp, next] suffix, by simp [Thread.held, Finder.held]⟩
    | unlockTmp =>
      obtain ⟨rest, suffix⟩ := placed
      exact ⟨infix_of_suffix [tmp] suffix, by simp [Thread.held, Finder.held]⟩
  | swapper swapper =>
    obtain ⟨pc, prev, current, future, node, index, i⟩ := swapper
    cases pc with
    | start | test | lockPrev | increment | fault =>
      exact ⟨nothing, by simp [Thread.held, Swapper.held]⟩
    | checkNext | lockCurrent =>
      obtain ⟨rest, suffix, -⟩ := placed
      exact ⟨infix_of_suffix [prev] suffix, by simp [Thread.held, Swapper.held]⟩
    | leavePrev =>
      obtain ⟨rest, suffix⟩ := placed
      exact ⟨infix_of_suffix [prev] suffix, by simp [Thread.held, Swapper.held]⟩
    | checkFuture =>
      obtain ⟨rest, suffix, -⟩ := placed
      exact ⟨infix_of_suffix [prev, current] suffix,
        by simp [Thread.held, Swapper.held]⟩
    | lockFuture | leaveCurrent =>
      obtain ⟨rest, suffix⟩ := placed
      exact ⟨infix_of_suffix [prev, current] suffix,
        by simp [Thread.held, Swapper.held]⟩
    | advance =>
      obtain ⟨rest, suffix⟩ := placed
      exact ⟨infix_of_suffix [prev, current, future] suffix,
        by simp [Thread.held, Swapper.held]⟩
    | unlockFuture =>
      obtain ⟨rest, suffix, -⟩ := placed
      exact ⟨infix_of_suffix [node, prev, current] suffix,
        by simp [Thread.held, Swapper.held]⟩
    | unlockCurrent =>
      obtain ⟨rest, suffix, -⟩ := placed
      exact ⟨infix_of_suffix [node, prev] suffix,
        by simp [Thread.held, Swapper.held]⟩
    | unlockNode =>
      obtain ⟨rest, suffix, -⟩ := placed
      exact ⟨infix_of_suffix [node] suffix, by simp [Thread.held, Swapper.held]⟩

/-- The lock a thread asks for is that of the node behind those it holds. -/
theorem Thread.Placed.wants (linked : Linked first heap nodes) {mine : Thread} {p : Ptr}
    (placed : mine.Placed nodes) (asks : mine.wants heap = some p) :
    mine.held ++ [p] <:+: nodes := by
  cases mine with
  | finder search finder =>
    obtain ⟨pc, node, next, tmp, counter⟩ := finder
    cases pc with
    | lockNode =>
      obtain rfl : node = p := Option.some.inj asks
      obtain ⟨rest, suffix⟩ := placed
      exact infix_of_suffix [node] suffix
    | lockNext =>
      obtain rfl : next = p := Option.some.inj asks
      obtain ⟨-, rest, suffix⟩ := placed
      exact infix_of_suffix [node, next] suffix
    | start | readNext | compare | unlockNext | unlockTmp | unlockLast | increment | fault =>
      simp [Thread.wants, Finder.wants] at asks
  | swapper swapper =>
    obtain ⟨pc, prev, current, future, node, index, i⟩ := swapper
    cases pc with
    | lockPrev =>
      obtain rfl : prev = p := Option.some.inj asks
      obtain ⟨rest, suffix, -⟩ := placed
      exact infix_of_suffix [prev] suffix
    | lockCurrent =>
      obtain ⟨rest, suffix, -⟩ := placed
      have near := (linked.nextOf_two suffix).1
      obtain rfl : current = p := Option.some.inj (near.symm.trans asks)
      exact infix_of_suffix [prev, current] suffix
    | lockFuture =>
      obtain ⟨rest, suffix⟩ := placed
      have far := (linked.nextOf_two suffix).2
      obtain rfl : future = p := Option.some.inj (far.symm.trans asks)
      exact infix_of_suffix [prev, current, future] suffix
    | start | test | checkNext | checkFuture | advance | unlockFuture | unlockCurrent | unlockNode
    | leaveCurrent | leavePrev | increment | fault =>
      simp [Thread.wants, Swapper.wants] at asks

/-- The position of a node follows from how many nodes are behind it. -/
theorem idxOf_suffix {p : Ptr} {rest : List Ptr} (nodup : nodes.Nodup)
    (suffix : p :: rest <:+ nodes) : nodes.idxOf p + (rest.length + 1) = nodes.length := by
  obtain ⟨front, split⟩ := suffix
  rw [← split] at nodup ⊢
  have outside : p ∉ front := fun inside =>
    (List.nodup_append.mp nodup).2.2 p inside p (by simp) rfl
  rw [List.idxOf_append_of_notMem outside]
  simp

/-- A node in front of another one comes earlier in the list. -/
theorem idxOf_lt {window : List Ptr} {p q : Ptr} (nodup : nodes.Nodup)
    (consecutive : window ++ [q] <:+: nodes) (member : p ∈ window) :
    nodes.idxOf p < nodes.idxOf q := by
  obtain ⟨front, back, split⟩ := consecutive
  obtain ⟨left, right, here⟩ := List.append_of_mem member
  have later : q :: back <:+ nodes := ⟨front ++ window, by simp [← split]⟩
  have earlier : p :: (right ++ q :: back) <:+ nodes := ⟨front ++ left, by simp [← split, here]⟩
  have second := idxOf_suffix nodup later
  have first := idxOf_suffix nodup earlier
  simp only [List.length_append, List.length_cons] at first
  omega

end Order

section Main

variable [DecidableEq ι] {program : Program}

/-- The assertions are stable under every step. -/
theorem own_stable (linked : Linked first heap nodes) :
    Threads.Stable (step program) (Steady first heap) (Own (ι := ι) nodes) := by
  intro ghost me shared mine event after moved steady own taken
  have restores : Restores first heap nodes me shared after moved := by
    cases mine with
    | finder search finder =>
      cases event with
      | go => exact find_restores linked steady own taken
      | index chosen => simp [step] at taken
    | swapper swapper => exact randomSwap_restores linked steady own taken
  exact ⟨ghost, restores⟩

/-- The assertions hold in every state of every run. -/
theorem Process.own_run (linked : Linked first heap nodes) {roles : ι → Role}
    {labels : List (ι × Event)} {process : Process ι}
    (run : exec (next program) (.start first heap roles) labels = some process) :
    Steady first heap () process.shared ∧
      ∀ i, Own nodes () i process.shared (process.thread i) := by
  have initial : Threads.Holds (Steady first heap) (Own nodes)
      (Process.start first heap roles) := by
    refine ⟨(), ⟨rfl, rfl, LockTable.exclusive_free⟩, fun i => ⟨?_, ?_⟩⟩
    · intro p
      have none := LockTable.not_holds_free i p
      cases role : roles i with
      | find search => simpa [start, role, Role.thread, Thread.held, Finder.held] using none
      | randomSwap => simpa [start, role, Role.thread, Thread.held, Swapper.held] using none
    · cases role : roles i with
      | find search => simp [start, role, Role.thread, Thread.Placed, Finder.Placed]
      | randomSwap => simp [start, role, Role.thread, Thread.Placed, Swapper.Placed]
  obtain ⟨_, steady, threads⟩ := (own_stable linked).exec initial run
  exact ⟨steady, threads⟩

/-- Thread `i` is at a lock that is not granted to it. -/
def Process.Blocked (program : Program) (process : Process ι) (i : ι) : Prop :=
  ∃ p, (process.thread i).wants process.shared.heap = some p ∧
    process.shared.locks.acquire ((process.thread i).access program) i p = none

/-- The thread is at `++count_increment`. -/
def Thread.incrementing : Thread → Bool
  | .finder _ locals => locals.pc = .increment
  | .swapper locals => locals.pc = .increment

/-- The thread followed a null pointer or unlocked a lock it did not hold. -/
def Thread.faulty : Thread → Bool
  | .finder _ locals => locals.pc = .fault
  | .swapper locals => locals.pc = .fault

/-- A thread with its pointers in place has done nothing wrong. -/
theorem Thread.Placed.not_faulty {mine : Thread} (placed : mine.Placed nodes) :
    mine.faulty = false := by
  cases mine with
  | finder search finder =>
    obtain ⟨pc, node, next, tmp, counter⟩ := finder
    cases pc with
    | fault => exact placed.elim
    | start | lockNode | readNext | lockNext | compare | unlockNext | unlockTmp | unlockLast
    | increment => rfl
  | swapper swapper =>
    obtain ⟨pc, prev, current, future, node, index, i⟩ := swapper
    cases pc with
    | fault => exact placed.elim
    | start | test | lockPrev | checkNext | lockCurrent | checkFuture | lockFuture | advance
    | unlockFuture | unlockCurrent | unlockNode | leaveCurrent | leavePrev | increment => rfl

/-- A thread that counts a finished pass holds no lock. -/
theorem Thread.held_incrementing {mine : Thread} (counts : mine.incrementing = true) :
    mine.held = [] := by
  cases mine with
  | finder search finder =>
    have place : finder.pc = .increment := of_decide_eq_true counts
    simp [Thread.held, Finder.held, place]
  | swapper swapper =>
    have place : swapper.pc = .increment := of_decide_eq_true counts
    simp [Thread.held, Swapper.held, place]

/-- Not all threads are blocked. -/
theorem Process.not_all_blocked [Nonempty ι] (linked : Linked first heap nodes) {roles : ι → Role}
    {labels : List (ι × Event)} {process : Process ι}
    (run : exec (next program) (.start first heap roles) labels = some process) :
    ¬∀ i, process.Blocked program i := by
  obtain ⟨steady, threads⟩ := own_run linked run
  intro blocked
  choose wants asks refused using blocked
  rw [steady.heap] at asks
  have behind : ∀ i, (process.thread i).held ++ [wants i] <:+: nodes := fun i =>
    (threads i).placed.wants linked (asks i)
  have bounded : ∀ i, nodes.idxOf (wants i) ≤ nodes.length := fun i => List.idxOf_le_length
  have ordered : ∀ i p, process.shared.locks.Holds i p →
      nodes.idxOf p < nodes.idxOf (wants i) := by
    intro i p holds
    have member := ((threads i).holds p).mp holds
    exact idxOf_lt linked.chain.nodup (behind i) member
  exact LockTable.not_all_blocked bounded ordered refused

/-- For each program, every list of at least two nodes, any number of threads of both kinds and
every run: not all threads are blocked; no thread has unlocked a lock it did not hold or followed a
null pointer; each holds the locks of at most three consecutive nodes and none when it increments
`count_increment`; and the list is the one it was. -/
theorem hand_over_hand [Nonempty ι] (linked : Linked first heap nodes) {roles : ι → Role}
    {labels : List (ι × Event)} {process : Process ι}
    (run : exec (next program) (.start first heap roles) labels = some process) :
    (¬∀ i, process.Blocked program i) ∧
      (∀ i, (process.thread i).faulty = false) ∧
      (∀ i, ∃ window, window <:+: nodes ∧ window.length ≤ 3 ∧
        ∀ p, process.shared.locks.Holds i p ↔ p ∈ window) ∧
      (∀ i, (process.thread i).incrementing = true → ∀ p, ¬process.shared.locks.Holds i p) ∧
      process.shared.first = first ∧ process.shared.heap = heap := by
  obtain ⟨steady, threads⟩ := Process.own_run linked run
  refine ⟨Process.not_all_blocked linked run, fun i => (threads i).placed.not_faulty, ?_, ?_,
    steady.first, steady.heap⟩
  · intro i
    have held := (threads i).placed.held
    exact ⟨(process.thread i).held, held.1, held.2, (threads i).holds⟩
  · intro i counts p holds
    have member := ((threads i).holds p).mp holds
    rw [Thread.held_incrementing counts] at member
    simp at member

/-- Three nodes with texts of length one, two and none. -/
def threeNodes : Heap Node :=
  ((Heap.empty.alloc 1 ⟨.ofBytes [97], 2⟩).alloc 2 ⟨.ofBytes [97, 98], 3⟩).alloc 3
    ⟨.ofBytes [], null⟩

/-- They form a list. -/
theorem linked_threeNodes : Linked 1 threeNodes [1, 2, 3] := by
  refine ⟨⟨rfl, by decide, _, rfl, rfl, by decide, _, rfl, rfl, by decide, _, rfl, rfl⟩, by decide⟩

/-- A search by thread `i` and `random_swap` by thread `j` on a list of three nodes: the search
has reached the second node, `random_swap` holds the first one and waits for the second. -/
def crossing (i j : ι) : List (ι × Event) :=
  [(i, .go), (i, .go), (i, .go), (i, .go), (i, .go), (j, .index 5), (i, .go), (i, .go), (j, .go),
    (j, .go), (i, .go), (j, .go)]

/-- In that state `random_swap` is blocked and the search is not. -/
theorem hand_over_hand_crossing :
    ∃ process, exec (next .rwlock) (.start 1 threeNodes
        fun i : Fin 2 => if i = 0 then Role.find .increasing else .randomSwap) (crossing 0 1) =
          some process ∧
      process.shared.locks.Holds 1 1 ∧ ¬∀ i, process.Blocked .rwlock i := by
  have outcome : (exec (next .rwlock) (.start 1 threeNodes
      fun i : Fin 2 => if i = 0 then Role.find .increasing else .randomSwap) (crossing 0 1)).map
        (fun process => decide (process.shared.locks.Holds 1 1)) = some true := by
    decide +kernel
  obtain ⟨process, run, holds⟩ := Option.map_eq_some_iff.mp outcome
  exact ⟨process, run, of_decide_eq_true holds, (hand_over_hand linked_threeNodes run).1⟩

end Main

end NsuOs.Storage
