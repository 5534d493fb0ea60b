import NsuOs.Storage.SwapCounts

/-!
# Building the list and exchanging two neighbours

`append_new_node` walks to the last node of a storage and links a new one behind it, so a storage
filled with it is always a chain. `swap_nodes` writes three links. On three consecutive nodes of a
chain this exchanges the last two and touches nothing else, and exchanging them back gives the heap
that was there before.
-/
namespace NsuOs.Storage

/-- `create_storage`; a storage is its pointer `first`. -/
def createStorage : Ptr := null

/-- `create_node`, with the address `malloc` returns. -/
def createNode (heap : Heap Node) (address : Ptr) (line : CString) : Heap Node :=
  heap.alloc address ⟨line, null⟩

/-- The loop of `append_new_node` that looks for the last node; the fuel bounds its rounds. -/
def lastNode (heap : Heap Node) : Nat → Ptr → Option Ptr
  | 0, _ => none
  | fuel + 1, current =>
    (nextOf heap current).bind fun next =>
      if next ≠ null then lastNode heap fuel next else some current

/-- `append_new_node`: the heap and the `first` of the storage afterwards, or `none` when the list
does not end. -/
def appendNewNode (heap : Heap Node) (first newNode : Ptr) : Option (Heap Node × Ptr) :=
  if first = null then some (heap, newNode)
  else
    (lastNode heap heap.bound first).bind fun last =>
      (setNext heap last newNode).map fun after => (after, first)

/-- `init_storage`, with the addresses `malloc` returns and the lines of the nodes. -/
def initStorage (heap : Heap Node) (first : Ptr) :
    List (Ptr × CString) → Option (Heap Node × Ptr)
  | [] => some (heap, first)
  | (address, line) :: rest =>
    (appendNewNode (createNode heap address line) first address).bind fun (after, first) =>
      initStorage after first rest

/-- The storages built by `append_new_node`, with their nodes in order: nodes may be created at any
time, and every node appended is one that is linked nowhere yet. -/
inductive Built : Heap Node → Ptr → List Ptr → Prop
  /-- The empty list. -/
  | create (heap : Heap Node) : Built heap createStorage []
  /-- A node is made. -/
  | allocate {heap first nodes address} (line : CString) (built : Built heap first nodes)
      (unused : heap.Unused address) : Built (createNode heap address line) first nodes
  /-- A node is linked at the end. -/
  | append {heap first nodes newNode after larger} (built : Built heap first nodes)
      (fresh : newNode ∉ nodes) (nonnull : newNode ≠ null)
      (single : nextOf heap newNode = some null)
      (appended : appendNewNode heap first newNode = some (after, larger)) :
      Built after larger (nodes ++ [newNode])

variable {heap : Heap Node} {nodes : List Ptr}

/-- The loop of `append_new_node` stops at the last node of a chain. -/
theorem lastNode_chain {fuel : Nat} {p last : Ptr} {front : List Ptr}
    (chain : Chain heap.get Node.next p (front ++ [last])) (enough : front.length < fuel) :
    lastNode heap fuel p = some last := by
  induction front generalizing p fuel with
  | nil =>
    obtain ⟨fuel, rfl⟩ := Nat.exists_eq_succ_of_ne_zero (by omega : fuel ≠ 0)
    obtain ⟨rfl, -, node, here, ends⟩ := chain
    have link : nextOf heap p = some null := by
      rw [nextOf, here, Option.map_some, ends]
    simp [lastNode, link]
  | cons q rest ih =>
    obtain ⟨fuel, rfl⟩ := Nat.exists_eq_succ_of_ne_zero (by omega : fuel ≠ 0)
    obtain ⟨rfl, -, node, here, later⟩ := chain
    have link : nextOf heap p = some node.next := by simp [nextOf, here]
    have nonnull : node.next ≠ null := by
      intro ended
      cases rest with
      | nil => exact later.2.1 (later.1 ▸ ended)
      | cons r rest => exact later.2.1 (later.1 ▸ ended)
    simp only [List.length_cons] at enough
    have found := ih later (by omega : rest.length < fuel)
    simp [lastNode, link, nonnull, found]

/-- `append_new_node` links a node behind the last one of a chain. -/
theorem appendNewNode_chain {first newNode : Ptr} (chain : Chain heap.get Node.next first nodes)
    (fresh : newNode ∉ nodes) (nonnull : newNode ≠ null)
    (single : nextOf heap newNode = some null) :
    ∃ after larger, appendNewNode heap first newNode = some (after, larger) ∧
      Chain after.get Node.next larger (nodes ++ [newNode]) ∧
      ∀ p, after.number p = heap.number p := by
  obtain ⟨fresh', placed, ends⟩ := Option.map_eq_some_iff.mp single
  rcases List.eq_nil_or_concat' nodes with rfl | ⟨front, last, rfl⟩
  · obtain rfl : first = null := chain
    exact ⟨heap, newNode, by simp [appendNewNode], ⟨rfl, nonnull, _, placed, ends⟩, fun _ => rfl⟩
  · have started : first ≠ null := by
      cases front with
      | nil => exact chain.1 ▸ chain.2.1
      | cons q rest => exact chain.1 ▸ chain.2.1
    have short := chain.length_le fun _ _ => heap.lt_bound
    rw [List.length_append, List.length_singleton] at short
    have found := lastNode_chain chain (by omega : front.length < heap.bound)
    obtain ⟨-, node, here⟩ := chain.live (by simp : last ∈ front ++ [last])
    have away : newNode ≠ last := by
      rintro rfl
      simp at fresh
    refine ⟨heap.set last { node with next := newNode }, first, ?_, ?_, by simp⟩
    · simp [appendNewNode, started, found, setNext, here]
    · have points : (heap.set last { node with next := newNode }).get last =
          some { node with next := newNode } := by simp [here]
      have behind : (heap.set last { node with next := newNode }).get newNode = some fresh' := by
        simpa [away] using placed
      have kept : ∀ q ∈ front, ((heap.set last { node with next := newNode }).get q).map Node.next =
          (heap.get q).map Node.next := by
        intro q member
        have other : q ≠ last := by
          rintro rfl
          exact (List.nodup_append.mp chain.nodup).2.2 q member q (by simp) rfl
        simp [other]
      have longer := chain.link kept points rfl nonnull behind ends
      simpa using longer

/-- Every storage built by `append_new_node` is a chain of the nodes appended, in order. -/
theorem Built.chain {first : Ptr} (built : Built heap first nodes) :
    Chain heap.get Node.next first nodes := by
  induction built with
  | create heap => rfl
  | allocate line built unused ih =>
    refine ih.congr fun q member => ?_
    obtain ⟨-, node, here⟩ := ih.live member
    rename_i address
    have other : q ≠ address := by
      rintro rfl
      rw [unused.get] at here
      cases here
    simp [createNode, other]
  | append built fresh nonnull single appended ih =>
    obtain ⟨after, larger, same, chain, -⟩ := appendNewNode_chain ih fresh nonnull single
    obtain ⟨rfl, rfl⟩ := Prod.mk.inj (Option.some.inj (appended.symm.trans same))
    exact chain

/-- A new node can be created and appended to every storage that was built. -/
theorem Built.grows {first address : Ptr} (built : Built heap first nodes)
    (unused : heap.Unused address) (line : CString) :
    ∃ after larger, appendNewNode (createNode heap address line) first address =
        some (after, larger) ∧
      Built after larger (nodes ++ [address]) ∧
      ∀ p, p ≠ address → after.number p = heap.number p := by
  have created := built.allocate line unused
  have fresh : address ∉ nodes := by
    intro member
    obtain ⟨-, node, here⟩ := built.chain.live member
    rw [unused.get] at here
    cases here
  have single : nextOf (createNode heap address line) address = some null := by
    simp [nextOf, createNode]
  obtain ⟨after, larger, appended, -, numbers⟩ :=
    appendNewNode_chain created.chain fresh unused.1 single
  refine ⟨after, larger, appended, created.append fresh unused.1 single appended, ?_⟩
  intro p other
  rw [numbers p]
  simp [createNode, other]

/-- `init_storage` builds a storage of the nodes it creates, in order. -/
theorem initStorage_built {first : Ptr} {blocks : List (Ptr × CString)}
    (built : Built heap first nodes) (apart : (blocks.map Prod.fst).Nodup)
    (unused : ∀ address ∈ blocks.map Prod.fst, heap.Unused address) :
    ∃ after larger, initStorage heap first blocks = some (after, larger) ∧
      Built after larger (nodes ++ blocks.map Prod.fst) := by
  induction blocks generalizing heap first nodes with
  | nil => exact ⟨heap, first, rfl, by simpa using built⟩
  | cons block rest ih =>
    obtain ⟨address, line⟩ := block
    obtain ⟨fresh, apart⟩ := List.nodup_cons.mp apart
    obtain ⟨middle, onward, appended, grown, numbers⟩ :=
      built.grows (unused address List.mem_cons_self) line
    have still : ∀ other ∈ rest.map Prod.fst, middle.Unused other := by
      intro other member
      have before := unused other (List.mem_cons_of_mem _ member)
      have different : other ≠ address := by
        rintro rfl
        exact fresh member
      exact ⟨before.1, (numbers other different).trans before.2⟩
    obtain ⟨after, larger, filled, whole⟩ := ih grown apart still
    refine ⟨after, larger, ?_, by simpa using whole⟩
    simp [initStorage, appended, filled]

section Swap

variable {prev cur future : Ptr} {a b c : Node}

/-- What `swap_nodes` writes on three different nodes. -/
def swapped (heap : Heap Node) (prev cur future : Ptr) (a b c : Node) : Heap Node :=
  ((heap.set prev { a with next := future }).set future { c with next := cur }).set cur
    { b with next := c.next }

/-- On three different nodes `swap_nodes` returns. -/
theorem swapNodes_eq (nonnull : prev ≠ null ∧ cur ≠ null ∧ future ≠ null)
    (distinct : prev ≠ cur ∧ prev ≠ future ∧ cur ≠ future) (first : heap.get prev = some a)
    (second : heap.get cur = some b) (third : heap.get future = some c) :
    swapNodes heap prev cur future = some (swapped heap prev cur future a b c) := by
  obtain ⟨beside, apart, differ⟩ := distinct
  simp [swapNodes, nonnull, setNext, nextOf, first, second, third, beside.symm, apart.symm, differ,
    swapped]

/-- The contents after `swap_nodes`. -/
theorem get_swapped (distinct : prev ≠ cur ∧ prev ≠ future ∧ cur ≠ future)
    (first : heap.get prev = some a) (second : heap.get cur = some b)
    (third : heap.get future = some c) (p : Ptr) :
    (swapped heap prev cur future a b c).get p =
      if p = prev then some { a with next := future }
      else if p = cur then some { b with next := c.next }
      else if p = future then some { c with next := cur }
      else heap.get p := by
  obtain ⟨beside, apart, differ⟩ := distinct
  by_cases atPrev : p = prev
  · subst atPrev
    simp [swapped, beside, apart, first]
  · by_cases atCur : p = cur
    · subst atCur
      simp [swapped, atPrev, differ, second]
    · by_cases atFuture : p = future
      · subst atFuture
        simp [swapped, atPrev, atCur, third]
      · simp [swapped, atPrev, atCur, atFuture]

/-- The three contents after `swap_nodes`. -/
theorem get_swapped_three (distinct : prev ≠ cur ∧ prev ≠ future ∧ cur ≠ future)
    (first : heap.get prev = some a) (second : heap.get cur = some b)
    (third : heap.get future = some c) :
    (swapped heap prev cur future a b c).get prev = some { a with next := future } ∧
      (swapped heap prev cur future a b c).get future = some { c with next := cur } ∧
      (swapped heap prev cur future a b c).get cur = some { b with next := c.next } := by
  have written := get_swapped distinct first second third
  obtain ⟨beside, apart, differ⟩ := distinct
  rw [written prev, written future, written cur]
  simp [beside.symm, apart.symm, differ.symm]

/-- Exchanging back restores the heap. -/
theorem swapped_swapped (distinct : prev ≠ cur ∧ prev ≠ future ∧ cur ≠ future)
    (first : heap.get prev = some a) (second : heap.get cur = some b)
    (third : heap.get future = some c) (toCur : a.next = cur) (toFuture : b.next = future) :
    swapped (swapped heap prev cur future a b c) prev future cur { a with next := future }
      { c with next := cur } { b with next := c.next } = heap := by
  have written := get_swapped distinct first second third
  obtain ⟨first', third', second'⟩ := get_swapped_three distinct first second third
  obtain ⟨beside, apart, differ⟩ := distinct
  have again := get_swapped ⟨apart, beside, differ.symm⟩ first' third' second'
  refine Heap.ext_get ?_ (by simp [swapped]) rfl rfl rfl
  intro p
  rw [again p, written p]
  subst toCur toFuture
  by_cases atPrev : p = prev
  · simp [atPrev, first]
  · by_cases atFuture : p = b.next
    · simp [atFuture, apart.symm, third]
    · by_cases atCur : p = a.next
      · simp [atCur, beside.symm, differ, second]
      · simp [atPrev, atFuture, atCur]

/-- `swap_nodes` on three consecutive nodes of a chain exchanges the last two, keeps every value and
every other node, and is undone by exchanging them back. -/
theorem swapNodes_chain {first : Ptr} {front back : List Ptr}
    (chain : Chain heap.get Node.next first (front ++ prev :: cur :: future :: back)) :
    ∃ after, swapNodes heap prev cur future = some after ∧
      Chain after.get Node.next first (front ++ prev :: future :: cur :: back) ∧
      (∀ p, (after.get p).map Node.value = (heap.get p).map Node.value) ∧
      (∀ p, p ≠ prev → p ≠ cur → p ≠ future → after.get p = heap.get p) ∧
      swapNodes after prev future cur = some heap := by
  have nodup := chain.nodup
  obtain ⟨nonnull, distinct, a, b, c, atPrev, atCur, atFuture, toCur, toFuture, later⟩ :=
    chain_three chain
  have written := get_swapped distinct atPrev atCur atFuture
  obtain ⟨newPrev, newFuture, newCur⟩ := get_swapped_three distinct atPrev atCur atFuture
  have others : ∀ p, p ≠ prev → p ≠ cur → p ≠ future →
      (swapped heap prev cur future a b c).get p = heap.get p := by
    intro p notPrev notCur notFuture
    rw [written p, if_neg notPrev, if_neg notCur, if_neg notFuture]
  refine ⟨swapped heap prev cur future a b c,
    swapNodes_eq nonnull distinct atPrev atCur atFuture, ?_, ?_, others, ?_⟩
  · -- The nodes before `prev` and behind `future` keep their links.
    have tail : Chain (swapped heap prev cur future a b c).get Node.next c.next back := by
      refine later.congr fun q member => ?_
      have away : q ≠ prev ∧ q ≠ cur ∧ q ≠ future := by grind
      rw [others q away.1 away.2.1 away.2.2]
    refine chain.splice ?_ ⟨rfl, nonnull.1, _, newPrev, rfl, nonnull.2.2, _, newFuture, rfl,
      nonnull.2.1, _, newCur, tail⟩
    intro q member
    have away : q ≠ prev ∧ q ≠ cur ∧ q ≠ future := by grind
    rw [others q away.1 away.2.1 away.2.2]
  · intro p
    rw [written p]
    split_ifs with same same same
    · simp [same, atPrev]
    · simp [same, atCur]
    · simp [same, atFuture]
    · rfl
  · rw [swapNodes_eq ⟨nonnull.1, nonnull.2.2, nonnull.2.1⟩
      ⟨distinct.2.1, distinct.1, distinct.2.2.symm⟩ newPrev newFuture newCur,
      swapped_swapped distinct atPrev atCur atFuture toCur toFuture]

end Swap

/-- For every storage built by `append_new_node` and every three consecutive nodes of it,
`swap_nodes` exchanges the last two: the list reached from `first` is the old one with these two
exchanged, without repetitions and with the same nodes; values and all other nodes are as they
were; and exchanging the two back restores the heap. -/
theorem swap_nodes_exchanges {first : Ptr} (built : Built heap first nodes)
    {front back : List Ptr} {prev cur future : Ptr}
    (consecutive : nodes = front ++ prev :: cur :: future :: back) :
    Chain heap.get Node.next first nodes ∧
      ∃ after now, swapNodes heap prev cur future = some after ∧
        now = front ++ prev :: future :: cur :: back ∧
        Chain after.get Node.next first now ∧ now.Nodup ∧ now.Perm nodes ∧
        now.length = nodes.length ∧
        (∀ p, (after.get p).map Node.value = (heap.get p).map Node.value) ∧
        (∀ p, p ≠ prev → p ≠ cur → p ≠ future → after.get p = heap.get p) ∧
        swapNodes after prev future cur = some heap := by
  have chain := built.chain
  refine ⟨chain, ?_⟩
  subst consecutive
  obtain ⟨after, swap, exchanged, values, others, restores⟩ := swapNodes_chain chain
  have same : (front ++ prev :: future :: cur :: back).Perm
      (front ++ prev :: cur :: future :: back) :=
    ((List.Perm.swap cur future back).cons prev).append_left front
  exact ⟨after, _, swap, rfl, exchanged, exchanged.nodup, same, same.length_eq, values, others,
    restores⟩

/-- What `malloc` returns for four nodes, and their texts. -/
def fourBlocks : List (Ptr × CString) :=
  [(1, .ofBytes [97]), (2, .ofBytes [98]), (3, .ofBytes [99]), (4, .ofBytes [100])]

/-- `init_storage` with four nodes, the last two of which are exchanged. -/
theorem swap_nodes_exchanges_last :
    ∃ heap first after, initStorage .empty createStorage fourBlocks = some (heap, first) ∧
      swapNodes heap 2 3 4 = some after ∧ Chain after.get Node.next first [1, 2, 4, 3] ∧
      swapNodes after 2 4 3 = some heap := by
  have apart : (fourBlocks.map Prod.fst).Nodup := by decide
  have unused : ∀ address ∈ fourBlocks.map Prod.fst, (Heap.empty : Heap Node).Unused address := by
    decide
  obtain ⟨heap, first, filled, built⟩ := initStorage_built (.create .empty) apart unused
  have consecutive : [] ++ fourBlocks.map Prod.fst = [1] ++ 2 :: 3 :: 4 :: [] := rfl
  obtain ⟨-, after, now, swap, rfl, exchanged, -, -, -, -, -, restores⟩ :=
    swap_nodes_exchanges built consecutive
  exact ⟨heap, first, after, filled, swap, exchanged, restores⟩

end NsuOs.Storage
