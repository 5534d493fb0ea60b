import NsuOs.Queues.Locked

/-!
# The locked queue is a bounded first-in first-out queue

The auxiliary value of the assertions names the nodes in the queue, the owner of every node outside
it, and the thread that still has to hand out each number in the order of the lock. A node is
private from `malloc` until it is linked and from its unlinking until `free`, so the reads and
frees outside the lock meet live nodes of their own, whatever addresses `malloc` hands out again
and although `q->last` keeps pointing at a freed node.
-/
namespace NsuOs.Queues.Locked

open NsuOs.Run

variable {ι κ : Type*}

/-- The nodes in the queue, the owners of the others, and who hands out which number. -/
structure Ghost (ι : Type*) where
  /-- The nodes of the queue with their values. -/
  cells : List (Ptr × Int32)
  /-- The thread that has a node to itself. -/
  owner : Ptr → Option ι
  /-- The thread that is to hand out the value with a number. -/
  holder : Nat → Option ι

/-- The assertion on the shared memory. -/
structure Sound (maxCount : Int) (ghost : Ghost ι) (shared : Shared) : Prop where
  /-- The queue has these nodes. -/
  nodes : Cells shared.heap shared.queue ghost.cells
  /-- No thread has a node of the queue to itself. -/
  unowned : ∀ p ∈ ghost.cells.map Prod.fst, ghost.owner p = none
  /-- The values added are those taken and then those in the queue. -/
  values : shared.added = shared.taken ++ ghost.cells.map Prod.snd
  /-- `add_count` counts the values added. -/
  adds : shared.queue.addCount = shared.added.length
  /-- `get_count` counts the values taken. -/
  gets : shared.queue.getCount = shared.taken.length
  /-- There are not more values in the queue than it may have. -/
  bound : shared.queue.count ≤ maxCount
  /-- The bound is the one the queue was made with. -/
  capacity : shared.queue.maxCount = maxCount
  /-- The node a thread has to itself lives. -/
  live : ∀ p i, ghost.owner p = some i → shared.heap.get p ≠ none
  /-- A number still held was given out, and its value was not. -/
  pending : ∀ k i, ghost.holder k = some i →
    k < shared.taken.length ∧ k ∉ shared.delivered.map Prod.fst
  /-- Each value handed out is the one taken under its number. -/
  right : ∀ given ∈ shared.delivered, shared.taken[given.1]? = some given.2
  /-- No number was handed out twice. -/
  once : (shared.delivered.map Prod.fst).Nodup

/-- The node a thread owns at its place. -/
def Pc.node : Pc → Option Ptr
  | .addLock new _ | .addFree new => some new
  | .getRead tmp _ | .getFree tmp _ _ => some tmp
  | .idle | .malloc _ | .getLock | .fault | .aborted => none

/-- The assertion on one thread. -/
structure Own (ghost : Ghost ι) (me : ι) (shared : Shared) (pc : Pc) : Prop where
  /-- The node at its place is its own. -/
  owned : ∀ p, pc.node = some p → ghost.owner p = some me
  /-- The node it is about to link has its value and no successor. -/
  filled : ∀ p val, pc = .addLock p val → p ≠ null ∧ shared.heap.get p = some ⟨val, null⟩
  /-- The node it is about to read has the value taken under its number. -/
  reads : ∀ p ticket, pc = .getRead p ticket → ghost.holder ticket = some me ∧
    ∃ val, (shared.heap.get p).map Node.val = some val ∧ shared.taken[ticket]? = some val
  /-- The value it has read is the one taken under its number. -/
  read : ∀ p val ticket, pc = .getFree p val ticket → shared.taken[ticket]? = some val
  /-- It has followed no bad pointer. -/
  faultless : pc ≠ .fault
  /-- No `assert` failed in it. -/
  asserts : pc ≠ .aborted

/-- What a step must achieve: the assertions hold again for some auxiliary value. -/
def Restores (maxCount : Int) (ghost : Ghost ι) (me : ι) (shared after : Shared) (moved : Pc) :
    Prop :=
  ∃ later : Ghost ι, Sound maxCount later after ∧ Own later me after moved ∧
    ∀ j theirs, j ≠ me → Own ghost j shared theirs → Own later j after theirs

/-- Values taken later leave the earlier ones at their numbers. -/
theorem taken_kept {before after : List Int32} (grows : before <+: after) {k : Nat} {val : Int32}
    (here : before[k]? = some val) : after[k]? = some val := by
  obtain ⟨inside, value⟩ := List.getElem?_eq_some_iff.mp here
  rw [List.prefix_iff_getElem?.mp grows k inside, value]

/-- What another thread's step must leave alone for a thread's assertion to stand. -/
theorem Own.frame {ghost later : Ghost ι} {me : ι} {shared after : Shared} {pc : Pc}
    (own : Own ghost me shared pc) (kept : ∀ p, ghost.owner p = some me → later.owner p = some me)
    (held : ∀ k, ghost.holder k = some me → later.holder k = some me)
    (heap : ∀ p, ghost.owner p = some me → after.heap.get p = shared.heap.get p)
    (grows : shared.taken <+: after.taken) : Own later me after pc where
  owned p here := kept p (own.owned p here)
  filled p val here := by
    have mine := own.owned p (by rw [here]; rfl)
    rw [heap p mine]
    exact own.filled p val here
  reads p ticket here := by
    have mine := own.owned p (by rw [here]; rfl)
    obtain ⟨holds, val, stored, value⟩ := own.reads p ticket here
    rw [heap p mine]
    exact ⟨held ticket holds, val, stored, taken_kept grows value⟩
  read p val ticket here := taken_kept grows (own.read p val ticket here)
  faultless := own.faultless
  asserts := own.asserts

/-- A thread between two calls relies on nothing. -/
theorem own_idle (ghost : Ghost ι) (me : ι) (shared : Shared) : Own ghost me shared .idle :=
  ⟨by simp [Pc.node], by simp, by simp, by simp, by simp, by simp⟩

/-- A thread that has made a call relies on nothing yet. -/
theorem own_enter (ghost : Ghost ι) (me : ι) (shared : Shared) (call : Call) :
    Own ghost me shared call.enter := by
  cases call with
  | add val => exact ⟨by simp [Call.enter, Pc.node], by simp [Call.enter], by simp [Call.enter],
      by simp [Call.enter], by simp [Call.enter], by simp [Call.enter]⟩
  | get => exact ⟨by simp [Call.enter, Pc.node], by simp [Call.enter], by simp [Call.enter],
      by simp [Call.enter], by simp [Call.enter], by simp [Call.enter]⟩

/-- Counting an attempt changes nothing the assertions are about. -/
theorem Sound.attempt {maxCount : Int} {ghost : Ghost ι} {shared : Shared}
    (sound : Sound maxCount ghost shared) (queue : Queue)
    (first : queue.first = shared.queue.first) (last : queue.last = shared.queue.last)
    (count : queue.count = shared.queue.count) (capacity : queue.maxCount = shared.queue.maxCount)
    (adds : queue.addCount = shared.queue.addCount)
    (gets : queue.getCount = shared.queue.getCount) :
    Sound maxCount ghost { shared with queue := queue } where
  nodes := sound.nodes.congr (fun _ _ => rfl) first last count
  unowned := sound.unowned
  values := sound.values
  adds := adds.trans sound.adds
  gets := gets.trans sound.gets
  bound := by
    rw [count]
    exact sound.bound
  capacity := capacity.trans sound.capacity
  live := sound.live
  pending := sound.pending
  right := sound.right
  once := sound.once

/-- An address that is not in use is neither owned nor in the queue. -/
theorem Sound.unused_apart {maxCount : Int} {ghost : Ghost ι} {shared : Shared}
    (sound : Sound maxCount ghost shared) {p : Ptr} (dead : shared.heap.get p = none) :
    ghost.owner p = none ∧ p ∉ ghost.cells.map Prod.fst := by
  constructor
  · cases who : ghost.owner p with
    | none => rfl
    | some i => exact absurd dead (sound.live p i who)
  · intro member
    exact sound.nodes.live member dead

/-- An owned node is not in the queue. -/
theorem Sound.owned_apart {maxCount : Int} {ghost : Ghost ι} {shared : Shared}
    (sound : Sound maxCount ghost shared) {p : Ptr} {i : ι} (owned : ghost.owner p = some i) :
    p ∉ ghost.cells.map Prod.fst := by
  intro member
  have none := sound.unowned p member
  simp [none] at owned

/-- Changing the heap away from the queue's nodes and from the nodes that stay owned. -/
theorem Sound.reheap {maxCount : Int} {ghost : Ghost ι} {shared : Shared} {owner : Ptr → Option ι}
    {heap : Heap Node} (sound : Sound maxCount ghost shared)
    (same : ∀ p ∈ ghost.cells.map Prod.fst, heap.get p = shared.heap.get p)
    (unowned : ∀ p ∈ ghost.cells.map Prod.fst, owner p = none)
    (live : ∀ p i, owner p = some i → heap.get p ≠ none) :
    Sound maxCount { ghost with owner := owner } { shared with heap := heap } where
  nodes := sound.nodes.congr same rfl rfl rfl
  unowned := unowned
  values := sound.values
  adds := sound.adds
  gets := sound.gets
  bound := sound.bound
  capacity := sound.capacity
  live := live
  pending := sound.pending
  right := sound.right
  once := sound.once

section Steps

variable {maxCount : Int} {ghost : Ghost ι} {me : ι} {shared : Shared}

/-- A step that leaves the heap, the queue's nodes and the records alone. -/
theorem Sound.restores {after : Shared} {moved : Pc} (_ : Sound maxCount ghost shared)
    (sound : Sound maxCount ghost after) (heap : after.heap = shared.heap)
    (taken : after.taken = shared.taken) (own : Own ghost me after moved) :
    Restores maxCount ghost me shared after moved := by
  refine ⟨ghost, sound, own, ?_⟩
  intro j theirs other their
  refine their.frame (fun _ owned => owned) (fun _ held => held) ?_ ?_
  · intro p _
    rw [heap]
  · rw [taken]

/-- A new node belongs to the thread that allocated it. -/
theorem restores_malloc (sound : Sound maxCount ghost shared) {val : Int32} {p : Ptr}
    (unused : shared.heap.Unused p) :
    Restores maxCount ghost me shared { shared with heap := shared.heap.alloc p ⟨val, null⟩ }
      (.addLock p val) := by
  obtain ⟨unowned, outside⟩ := sound.unused_apart unused.get
  have elsewhere : ∀ p', p' ≠ p →
      (shared.heap.alloc p ⟨val, null⟩).get p' = shared.heap.get p' := by
    intro p' other
    simp [other]
  have inQueue : ∀ p' ∈ ghost.cells.map Prod.fst, p' ≠ p := by
    rintro p' member rfl
    exact outside member
  refine ⟨{ ghost with owner := Function.update ghost.owner p (some me) },
    sound.reheap ?_ ?_ ?_, ?_, ?_⟩
  · intro p' member
    exact elsewhere p' (inQueue p' member)
  · intro p' member
    exact (Function.update_of_ne (inQueue p' member) _ _).trans (sound.unowned p' member)
  · intro p' i owned
    by_cases same : p' = p
    · simp [same]
    · simp only [Function.update_of_ne same] at owned
      rw [elsewhere p' same]
      exact sound.live p' i owned
  · refine ⟨?_, ?_, by simp, by simp, by simp, by simp⟩
    · intro p' here
      have same : p = p' := by simpa [Pc.node] using here
      simp [same]
    · intro p' val' here
      obtain ⟨rfl, rfl⟩ : p = p' ∧ val = val' := by simpa using here
      exact ⟨unused.1, by simp⟩
  · intro j theirs other their
    have apart : ∀ p', ghost.owner p' = some j → p' ≠ p := by
      rintro p' owned rfl
      simp [unowned] at owned
    refine their.frame ?_ (fun _ held => held) ?_ (List.prefix_refl _)
    · intro p' owned
      exact (Function.update_of_ne (apart p' owned) _ _).trans owned
    · intro p' owned
      exact elsewhere p' (apart p' owned)

/-- A thread frees its own node, which is live and not in the queue. -/
theorem restores_free (sound : Sound maxCount ghost shared) {p : Ptr}
    (mine : ghost.owner p = some me) (result : Result) :
    (freeNode shared p (.returned result)).2 = .returned result ∧
      Restores maxCount ghost me shared (freeNode shared p (.returned result)).1 .idle := by
  obtain ⟨node, alive⟩ := Option.ne_none_iff_exists'.mp (sound.live p me mine)
  have elsewhere : ∀ p', p' ≠ p → (shared.heap.free p).get p' = shared.heap.get p' := by
    intro p' other
    simp [other]
  have inQueue : ∀ p' ∈ ghost.cells.map Prod.fst, p' ≠ p := by
    rintro p' member rfl
    exact sound.owned_apart mine member
  have freeing : freeNode shared p (.returned result) =
      ({ shared with heap := shared.heap.free p }, .returned result) := by
    simp only [freeNode, alive]
  rw [freeing]
  refine ⟨rfl, { ghost with owner := Function.update ghost.owner p none },
    sound.reheap ?_ ?_ ?_, own_idle _ me _, ?_⟩
  · intro p' member
    exact elsewhere p' (inQueue p' member)
  · intro p' member
    exact (Function.update_of_ne (inQueue p' member) _ _).trans (sound.unowned p' member)
  · intro p' i owned
    by_cases same : p' = p
    · simp [same] at owned
    · simp only [Function.update_of_ne same] at owned
      rw [elsewhere p' same]
      exact sound.live p' i owned
  · intro j theirs other their
    have apart : ∀ p', ghost.owner p' = some j → p' ≠ p := by
      rintro p' owned rfl
      exact other (Option.some.inj (owned.symm.trans mine))
    refine their.frame ?_ (fun _ held => held) ?_ (List.prefix_refl _)
    · intro p' owned
      exact (Function.update_of_ne (apart p' owned) _ _).trans owned
    · intro p' owned
      exact elsewhere p' (apart p' owned)

/-- The node linked by an accepted add leaves its owner and enters the queue. -/
theorem restores_append (sound : Sound maxCount ghost shared) {new : Ptr} {val : Int32}
    (own : Own ghost me shared (.addLock new val)) (room : shared.queue.count < maxCount) :
    ∃ queue heap, shared.queue.append shared.heap new = some (queue, heap) ∧
      Restores maxCount ghost me shared
        { shared with queue := queue, heap := heap, added := shared.added ++ [val] } .idle := by
  have mine : ghost.owner new = some me := own.owned new rfl
  have placed := own.filled new val rfl
  have outside := sound.owned_apart mine
  obtain ⟨queue, heap, linking, appended⟩ := sound.nodes.append placed.2 placed.1 outside
  have count : queue.count = shared.queue.count + 1 := by
    have longer := appended.longer.count
    have before := sound.nodes.count
    simp only [List.length_append, List.length_singleton] at longer
    omega
  refine ⟨queue, heap, linking, ⟨ghost.cells ++ [(new, val)], Function.update ghost.owner new none,
    ghost.holder⟩, ?_, own_idle _ me _, ?_⟩
  · constructor
    · exact appended.longer
    · intro p member
      by_cases same : p = new
      · simp [same]
      · simp only [Function.update_of_ne same]
        apply sound.unowned p
        simpa [same] using member
    · simp [sound.values]
    · simp [appended.addCount, sound.adds]
    · rw [appended.getCount]
      exact sound.gets
    · change queue.count ≤ maxCount
      omega
    · exact appended.maxCount.trans sound.capacity
    · intro p i owned
      by_cases same : p = new
      · simp [same] at owned
      · simp only [Function.update_of_ne same] at owned
        intro dead
        exact sound.live p i owned ((appended.live p).mp dead)
    · exact sound.pending
    · exact sound.right
    · exact sound.once
  · intro j theirs other their
    refine their.frame ?_ (fun _ held => held) ?_ (List.prefix_refl _)
    · intro p owned
      have apart : p ≠ new := by
        rintro rfl
        exact other (Option.some.inj (owned.symm.trans mine))
      exact (Function.update_of_ne apart _ _).trans owned
    · intro p owned
      exact appended.frame p (sound.owned_apart owned)

/-- The node unlinked by a successful get leaves the queue and belongs to the thread, which will
hand out its value under the next number. -/
theorem restores_take (sound : Sound maxCount ghost shared) (some' : shared.queue.count ≠ 0) :
    ∃ queue tmp node, shared.queue.take shared.heap = some (queue, tmp, node) ∧
      Restores maxCount ghost me shared
        { shared with queue := queue, taken := shared.taken ++ [node.val] }
        (.getRead tmp shared.taken.length) := by
  have counted := sound.nodes.count
  obtain ⟨cell, rest, split⟩ : ∃ cell rest, ghost.cells = cell :: rest := by
    cases cells : ghost.cells with
    | nil => simp [cells, some'] at counted
    | cons cell rest => exact ⟨cell, rest, rfl⟩
  have nodes := sound.nodes
  rw [split] at nodes counted
  obtain ⟨queue, node, unlinking, value, left, outside, count, gets, adds, capacity⟩ := nodes.take
  have alive : shared.heap.get cell.1 ≠ none := nodes.live (by simp)
  have unowned : ghost.owner cell.1 = none := sound.unowned cell.1 (by simp [split])
  have stored := nodes.values cell (by simp)
  refine ⟨queue, cell.1, node, unlinking, ⟨rest, Function.update ghost.owner cell.1 (some me),
    Function.update ghost.holder shared.taken.length (some me)⟩, ?_, ?_, ?_⟩
  · constructor
    · exact left
    · intro p member
      have apart : p ≠ cell.1 := by
        rintro rfl
        exact outside member
      simp only [Function.update_of_ne apart]
      apply sound.unowned p
      rw [split]
      exact List.mem_cons_of_mem cell.1 member
    · simp [sound.values, split, value]
    · rw [adds]
      exact sound.adds
    · simp [gets, sound.gets]
    · have bound := sound.bound
      change queue.count ≤ maxCount
      omega
    · exact capacity.trans sound.capacity
    · intro p i owned
      by_cases same : p = cell.1
      · rw [same]
        exact alive
      · simp only [Function.update_of_ne same] at owned
        exact sound.live p i owned
    · intro k i held
      simp only [List.length_append, List.length_singleton]
      by_cases same : k = shared.taken.length
      · refine ⟨by omega, ?_⟩
        intro member
        obtain ⟨given, inside, key⟩ := List.mem_map.mp member
        have here := (List.getElem?_eq_some_iff.mp (sound.right given inside)).1
        omega
      · simp only [Function.update_of_ne same] at held
        obtain ⟨inside, fresh⟩ := sound.pending k i held
        exact ⟨by omega, fresh⟩
    · intro given member
      exact taken_kept (List.prefix_append _ _) (sound.right given member)
    · exact sound.once
  · refine ⟨?_, by simp, ?_, by simp, by simp, by simp⟩
    · intro p here
      have same : cell.1 = p := by simpa [Pc.node] using here
      simp [same]
    · intro p ticket here
      obtain ⟨rfl, rfl⟩ : cell.1 = p ∧ shared.taken.length = ticket := by simpa using here
      refine ⟨by simp, cell.2, stored, ?_⟩
      simp [value]
  · intro j theirs other their
    refine their.frame ?_ ?_ (fun _ _ => rfl) (List.prefix_append _ _)
    · intro p owned
      have apart : p ≠ cell.1 := by
        rintro rfl
        simp [unowned] at owned
      exact (Function.update_of_ne apart _ _).trans owned
    · intro k held
      have inside := (sound.pending k j held).1
      have apart : k ≠ shared.taken.length := by omega
      exact (Function.update_of_ne apart _ _).trans held

/-- The read of a detached node finds it live and hands out the value of its number. -/
theorem restores_read (sound : Sound maxCount ghost shared) {tmp : Ptr} {ticket : Nat}
    (own : Own ghost me shared (.getRead tmp ticket)) :
    ∃ val, readNode shared tmp ticket =
        ({ shared with delivered := shared.delivered ++ [(ticket, val)] },
          .goto (.getFree tmp val ticket)) ∧
      Restores maxCount ghost me shared
        { shared with delivered := shared.delivered ++ [(ticket, val)] }
        (.getFree tmp val ticket) := by
  have mine : ghost.owner tmp = some me := own.owned tmp rfl
  obtain ⟨holds, val, stored, value⟩ := own.reads tmp ticket rfl
  obtain ⟨node, alive, read⟩ := Option.map_eq_some_iff.mp stored
  obtain ⟨inside, fresh⟩ := sound.pending ticket me holds
  refine ⟨val, by simp only [readNode, alive, read],
    { ghost with holder := Function.update ghost.holder ticket none }, ?_, ?_, ?_⟩
  · refine ⟨sound.nodes, sound.unowned, sound.values, sound.adds, sound.gets, sound.bound,
      sound.capacity, sound.live, ?_, ?_, ?_⟩
    · intro k i held
      by_cases same : k = ticket
      · simp [same] at held
      · simp only [Function.update_of_ne same] at held
        obtain ⟨before, unseen⟩ := sound.pending k i held
        refine ⟨before, ?_⟩
        simpa [same] using unseen
    · intro given member
      rcases List.mem_append.mp member with old | last
      · exact sound.right given old
      · have same : given = (ticket, val) := by simpa using last
        rw [same]
        exact value
    · rw [List.map_append, List.map_singleton]
      apply List.nodup_append.mpr
      refine ⟨sound.once, by simp, ?_⟩
      rintro k old other last rfl
      exact fresh (by simpa [List.mem_singleton.mp last] using old)
  · refine ⟨?_, by simp, by simp, ?_, by simp, by simp⟩
    · intro p here
      have same : tmp = p := by simpa [Pc.node] using here
      rw [← same]
      exact mine
    · intro p val' ticket' here
      obtain ⟨rfl, rfl, rfl⟩ : tmp = p ∧ val = val' ∧ ticket = ticket' := by simpa using here
      exact value
  · intro j theirs other their
    refine their.frame (fun _ owned => owned) ?_ (fun _ _ => rfl) (List.prefix_refl _)
    intro k held
    have apart : k ≠ ticket := by
      rintro rfl
      exact other (Option.some.inj (held.symm.trans holds))
    exact (Function.update_of_ne apart _ _).trans held

/-- A thread's assertion does not look at the fields of the queue. -/
theorem Own.requeue {pc : Pc} (own : Own ghost me shared pc) (queue : Queue) :
    Own ghost me { shared with queue := queue } pc :=
  ⟨own.owned, own.filled, own.reads, own.read, own.faultless, own.asserts⟩

/-- A step may be judged from the memory in which the attempt is already counted. -/
theorem Restores.requeue {after : Shared} {moved : Pc} (queue : Queue)
    (restores : Restores maxCount ghost me { shared with queue := queue } after moved) :
    Restores maxCount ghost me shared after moved := by
  obtain ⟨later, sound, own, others⟩ := restores
  exact ⟨later, sound, own, fun j theirs other their => others j theirs other (their.requeue queue)⟩

/-- The place a step leads to. -/
def Outcome.pc : Outcome → Pc
  | .goto pc => pc
  | .returned _ => .idle

/-- `queue_add` from the lock on restores the assertions. -/
theorem restores_queueAdd (variant : Variant) (sound : Sound maxCount ghost shared) {new : Ptr}
    {val : Int32} (own : Own ghost me shared (.addLock new val)) :
    Restores maxCount ghost me shared (queueAdd variant shared new val).1
      (queueAdd variant shared new val).2.pc := by
  have mine : ghost.owner new = some me := own.owned new rfl
  have bound := sound.bound
  have capacity := sound.capacity
  have sane : ¬¬shared.queue.count ≤ shared.queue.maxCount := by omega
  apply Restores.requeue { shared.queue with addAttempts := shared.queue.addAttempts + 1 }
  have counted := sound.attempt { shared.queue with addAttempts := shared.queue.addAttempts + 1 }
    rfl rfl rfl rfl rfl rfl
  have still := own.requeue { shared.queue with addAttempts := shared.queue.addAttempts + 1 }
  simp only [queueAdd, if_neg sane]
  by_cases full : shared.queue.count = shared.queue.maxCount
  · simp only [if_pos full]
    cases inside : variant.freesInside with
    | true =>
      obtain ⟨returns, restores⟩ := restores_free counted mine .full
      simp only [if_true, returns]
      exact restores
    | false =>
      simp only [Bool.false_eq_true, if_false]
      apply counted.restores counted rfl rfl
      refine ⟨?_, by simp [Outcome.pc], by simp [Outcome.pc], by simp [Outcome.pc],
        by simp [Outcome.pc], by simp [Outcome.pc]⟩
      intro p here
      have same : new = p := by simpa [Outcome.pc, Pc.node] using here
      rw [← same]
      exact mine
  · have room : shared.queue.count < maxCount := by omega
    obtain ⟨queue, heap, linking, restores⟩ := restores_append counted still room
    simp only [if_neg full, linking]
    exact restores

/-- `queue_get` between lock and unlock restores the assertions. -/
theorem restores_queueGet (sound : Sound maxCount ghost shared) :
    Restores maxCount ghost me shared (queueGet shared).1 (queueGet shared).2.pc := by
  have counts := sound.nodes.count
  have sane : ¬¬shared.queue.count ≥ 0 := by omega
  apply Restores.requeue { shared.queue with getAttempts := shared.queue.getAttempts + 1 }
  have counted := sound.attempt { shared.queue with getAttempts := shared.queue.getAttempts + 1 }
    rfl rfl rfl rfl rfl rfl
  simp only [queueGet, if_neg sane]
  by_cases empty : shared.queue.count = 0
  · simp only [if_pos empty]
    exact counted.restores counted rfl rfl (own_idle ghost me _)
  · obtain ⟨queue, tmp, node, unlinking, restores⟩ := restores_take counted empty
    simp only [if_neg empty, unlinking]
    exact restores

/-- Every step inside a call restores the assertions. -/
theorem restores_run {variant : Variant} {pc : Pc} {after : Shared} {outcome : Outcome}
    (sound : Sound maxCount ghost shared) (own : Own ghost me shared pc)
    (ran : pc.run variant shared = some (after, outcome)) :
    Restores maxCount ghost me shared after outcome.pc := by
  cases pc with
  | addLock new val =>
    have restores := restores_queueAdd variant sound own
    rw [Option.some.inj ran] at restores
    exact restores
  | addFree new =>
    have restores := restores_free sound (own.owned new rfl) .full
    rw [Option.some.inj ran] at restores
    simp only at restores
    rw [restores.1]
    exact restores.2
  | getLock =>
    have restores : Restores maxCount ghost me shared (queueGet shared).1 (queueGet shared).2.pc :=
      restores_queueGet sound
    rw [Option.some.inj ran] at restores
    exact restores
  | getRead tmp ticket =>
    obtain ⟨val, reading, restores⟩ := restores_read sound own
    have same := reading.symm.trans (Option.some.inj ran)
    obtain ⟨rfl, rfl⟩ := Prod.mk.inj same
    exact restores
  | getFree tmp val ticket =>
    have restores := restores_free sound (own.owned tmp rfl) (.got val)
    rw [Option.some.inj ran] at restores
    simp only at restores
    rw [restores.1]
    exact restores.2
  | idle | malloc | fault | aborted => simp [Pc.run] at ran

end Steps

/-- The place of a thread after a step inside a call. -/
theorem Client.continue_pc (client : Client κ) (state : κ) (outcome : Outcome) :
    (client.continue state outcome).pc = outcome.pc := by
  cases outcome <;> rfl

/-- The assertions are stable under every step of every client. -/
theorem sound_stable (variant : Variant) (client : Client κ) (maxCount : Int) :
    Threads.Stable (step variant client) (Sound maxCount)
      (fun (ghost : Ghost ι) me shared (mine : Locals κ) => Own ghost me shared mine.pc) := by
  intro ghost me shared mine event after moved sound own taken
  obtain ⟨state, pc⟩ := mine
  have restores : Restores maxCount ghost me shared after moved.pc := by
    cases moves_of_step taken with
    | call call allowed => exact sound.restores sound rfl rfl (own_enter ghost me shared call)
    | malloc val p unused => exact restores_malloc sound unused
    | run pc after outcome ran =>
      rw [client.continue_pc]
      exact restores_run sound own ran
  obtain ⟨later, kept, mine, others⟩ := restores
  exact ⟨later, kept, mine, fun j theirs => others j theirs.pc⟩

variable [DecidableEq ι]

/-- The assertions hold in every state of every run. -/
theorem Process.sound_run {variant : Variant} {client : Client κ} {maxCount : Int}
    (positive : 0 ≤ maxCount) {initial : ι → κ} {labels : List (ι × Event)} {process : Process ι κ}
    (run : exec (next variant client) (.start maxCount initial) labels = some process) :
    ∃ ghost : Ghost ι, Sound maxCount ghost process.shared ∧
      ∀ i, Own ghost i process.shared (process.thread i).pc := by
  apply (sound_stable variant client maxCount).exec ?_ run
  refine ⟨⟨[], fun _ => none, fun _ => none⟩, ?_, fun i => own_idle _ i _⟩
  exact ⟨cells_init _ _, by simp, rfl, rfl, rfl, positive, rfl, by simp, by simp, by simp [start],
    by simp [start]⟩


end NsuOs.Queues.Locked
