import NsuOs.Queues.Fifo
import NsuOs.Queues.Single

/-!
# What `queue_destroy` leaves behind

`queue_destroy` follows the nodes from `q->first` on and frees each of them; it does not free the
`queue_t`. The variant of `queue-usleep.c` does the opposite: it frees the `queue_t` and none of
the nodes. Between calls every live node is in the queue, and inside a call a node outside of it
is the private one of the thread that is about to link, read or free it. So the nodes that survive
`queue_destroy` are known at every moment.
-/
namespace NsuOs.Queues

open NsuOs.Run

/-- The loop of `queue_destroy` over the nodes. -/
def freeNodes (q : Queue) (heap : Heap Node) : Option (Heap Node) :=
  heap.freeList Node.next (heap.bound + 1) q.first

/-- The loop frees the nodes of the queue and follows no bad pointer. -/
theorem Cells.freeNodes {heap : Heap Node} {q : Queue} {cells : List (Ptr × Int32)}
    (known : Cells heap q cells) :
    ∃ after, Queues.freeNodes q heap = some after ∧ heap.Drained (cells.map Prod.fst) after :=
  known.chain.freeList known.chain.length_lt_bound

/-- Linking a node allocates and frees nothing. -/
theorem append_complete {q q' : Queue} {heap after : Heap Node} {new : Ptr}
    (linked : q.append heap new = some (q', after)) :
    after.made = heap.made ∧ (heap.Complete → after.Complete) := by
  unfold Queue.append at linked
  split at linked
  · cases linked
    exact ⟨rfl, id⟩
  · split at linked
    · cases linked
    · cases linked
      exact ⟨rfl, fun complete => complete.set _ _⟩

namespace Locked

variable {ι κ : Type*}

/-- The heap of nodes after `queue_destroy`, and whether the `queue_t` was freed. -/
structure Destroyed where
  /-- The heap of nodes. -/
  heap : Heap Node
  /-- The `queue_t` was freed. -/
  queueFreed : Bool

/-- `queue_destroy`, after the monitor was joined. -/
def queueDestroy (variant : Variant) (q : Queue) (heap : Heap Node) : Option Destroyed :=
  match variant with
  | .spinLock | .mutex | .semaphore => (freeNodes q heap).map fun after => ⟨after, false⟩
  | .usleep => some ⟨heap, true⟩

/-- Every live node is in the queue or is the one a thread has to itself, and every allocation
lives or was freed. -/
structure Process.Accounted (process : Process ι κ) : Prop where
  /-- Every allocation lives or was freed. -/
  complete : process.shared.heap.Complete
  /-- Every live node is in the queue or a thread has it to itself. -/
  held : ∃ cells, Cells process.shared.heap process.shared.queue cells ∧
    ∀ p, process.shared.heap.get p ≠ none →
      p ∈ cells.map Prod.fst ∨ ∃ i, (process.thread i).pc.node = some p

/-- What a step inside a call does to the nodes: one that is live afterwards is in the queue, is
the thread's own, or was neither before and has not changed hands. -/
structure Accounts (shared : Shared) (cells : List (Ptr × Int32)) (pc : Pc) (after : Shared)
    (moved : Pc) : Prop where
  /-- No allocation is lost. -/
  complete : shared.heap.Complete → after.heap.Complete
  /-- A node that lives is in the queue, is the own one of the thread, or was neither before. -/
  held : ∃ later, Cells after.heap after.queue later ∧
    ∀ p, after.heap.get p ≠ none → p ∈ later.map Prod.fst ∨ moved.node = some p ∨
      shared.heap.get p ≠ none ∧ p ∉ cells.map Prod.fst ∧ pc.node ≠ some p

section Steps

variable {maxCount : Int} {ghost : Ghost ι} {me : ι} {shared after : Shared}

/-- A step that leaves the heap and the nodes of the queue alone and passes the thread's own node
on. -/
theorem accounts_kept {cells : List (Ptr × Int32)} {pc moved : Pc} {queue : Queue}
    (nodes : Cells shared.heap queue cells) (heap : after.heap = shared.heap)
    (same : after.queue = queue) (node : ∀ p, pc.node = some p → moved.node = some p) :
    Accounts shared cells pc after moved := by
  refine ⟨by rw [heap]; exact id, cells, by rw [heap, same]; exact nodes, ?_⟩
  intro p live
  rw [heap] at live
  by_cases queued : p ∈ cells.map Prod.fst
  · exact .inl queued
  · by_cases mine : pc.node = some p
    · exact .inr (.inl (node p mine))
    · exact .inr (.inr ⟨live, queued, mine⟩)

/-- A thread frees its own node. -/
theorem accounts_free {cells : List (Ptr × Int32)} {pc : Pc} {p : Ptr} {queue : Queue}
    {taken added : List Int32} {delivered : List (Nat × Int32)}
    (nodes : Cells shared.heap queue cells) (outside : p ∉ cells.map Prod.fst)
    (mine : pc.node = some p) :
    Accounts shared cells pc ⟨queue, shared.heap.free p, added, taken, delivered⟩ .idle := by
  refine ⟨fun complete => complete.free p, cells, ?_, ?_⟩
  · apply nodes.congr _ rfl rfl rfl
    intro q member
    have other : q ≠ p := by
      rintro rfl
      exact outside member
    simp [other]
  · intro q live
    have other : q ≠ p := by
      rintro rfl
      simp at live
    simp only [Heap.get_free, other, if_false] at live
    by_cases queued : q ∈ cells.map Prod.fst
    · exact .inl queued
    · refine .inr (.inr ⟨live, queued, ?_⟩)
      rw [mine]
      simpa using other.symm

/-- `queue_add` from the lock on. -/
theorem accounts_queueAdd (variant : Variant) (sound : Sound maxCount ghost shared) {new : Ptr}
    {val : Int32} (own : Own ghost me shared (.addLock new val)) :
    Accounts shared ghost.cells (.addLock new val) (queueAdd variant shared new val).1
      (queueAdd variant shared new val).2.pc := by
  have outside : new ∉ ghost.cells.map Prod.fst := sound.owned_apart (own.owned new rfl)
  have placed := own.filled new val rfl
  have bound := sound.bound
  have capacity := sound.capacity
  have sane : ¬¬shared.queue.count ≤ shared.queue.maxCount := by omega
  have nodes : Cells shared.heap
      { shared.queue with addAttempts := shared.queue.addAttempts + 1 } ghost.cells :=
    sound.nodes.congr (fun _ _ => rfl) rfl rfl rfl
  simp only [queueAdd, if_neg sane]
  by_cases full : shared.queue.count = shared.queue.maxCount
  · simp only [if_pos full]
    cases inside : variant.freesInside with
    | true =>
      simp only [if_true, freeNode, placed.2]
      exact accounts_free nodes outside rfl
    | false =>
      simp only [Bool.false_eq_true, if_false]
      exact accounts_kept nodes rfl rfl fun _ mine => mine
  · obtain ⟨queue, heap, linking, appended⟩ := nodes.append placed.2 placed.1 outside
    simp only [if_neg full, linking]
    refine ⟨(append_complete linking).2, _, appended.longer, ?_⟩
    intro p live
    have before : shared.heap.get p ≠ none := fun dead => live ((appended.live p).mpr dead)
    by_cases queued : p ∈ (ghost.cells ++ [(new, val)]).map Prod.fst
    · exact .inl queued
    · simp only [List.map_append, List.map_singleton, List.mem_append, List.mem_singleton,
        not_or] at queued
      refine .inr (.inr ⟨before, queued.1, ?_⟩)
      simpa [Pc.node] using Ne.symm queued.2

/-- `queue_get` between lock and unlock. -/
theorem accounts_queueGet (sound : Sound maxCount ghost shared) :
    Accounts shared ghost.cells .getLock (queueGet shared).1 (queueGet shared).2.pc := by
  have counted := sound.nodes.count
  have sane : ¬¬shared.queue.count ≥ 0 := by omega
  have nodes : Cells shared.heap
      { shared.queue with getAttempts := shared.queue.getAttempts + 1 } ghost.cells :=
    sound.nodes.congr (fun _ _ => rfl) rfl rfl rfl
  simp only [queueGet, if_neg sane]
  by_cases empty : shared.queue.count = 0
  · simp only [if_pos empty]
    exact accounts_kept nodes rfl rfl (by simp [Pc.node])
  · cases split : ghost.cells with
    | nil => simp [split, empty] at counted
    | cons cell rest =>
      rw [split] at nodes
      obtain ⟨queue, node, unlinking, -, left, -⟩ := nodes.take
      simp only [if_neg empty, unlinking]
      refine ⟨id, rest, left, ?_⟩
      intro p live
      by_cases queued : p ∈ rest.map Prod.fst
      · exact .inl queued
      · by_cases first : cell.1 = p
        · exact .inr (.inl (congrArg some first))
        · refine .inr (.inr ⟨live, ?_, by simp [Pc.node]⟩)
          simp only [List.map_cons, List.mem_cons, not_or]
          exact ⟨Ne.symm first, queued⟩

/-- Every step inside a call. -/
theorem accounts_run {variant : Variant} {pc : Pc} {outcome : Outcome}
    (sound : Sound maxCount ghost shared) (own : Own ghost me shared pc)
    (ran : pc.run variant shared = some (after, outcome)) :
    Accounts shared ghost.cells pc after outcome.pc := by
  have freeing : ∀ p result, pc.node = some p →
      freeNode shared p (.returned result) = (after, outcome) →
      Accounts shared ghost.cells pc after outcome.pc := by
    intro p result mine freed
    obtain ⟨node, alive⟩ := Option.ne_none_iff_exists'.mp (sound.live p me (own.owned p mine))
    simp only [freeNode, alive] at freed
    cases freed
    exact accounts_free sound.nodes (sound.owned_apart (own.owned p mine)) mine
  cases pc with
  | addLock new val =>
    have accounts := accounts_queueAdd variant sound own
    rwa [Option.some.inj ran] at accounts
  | addFree new => exact freeing new .full rfl (Option.some.inj ran)
  | getLock =>
    have accounts := accounts_queueGet sound
    rwa [Option.some.inj ran] at accounts
  | getRead tmp ticket =>
    obtain ⟨val, reading, -⟩ := restores_read sound own
    have same := reading.symm.trans (Option.some.inj ran)
    cases same
    exact accounts_kept sound.nodes rfl rfl fun _ mine => mine
  | getFree tmp val ticket => exact freeing tmp (.got val) rfl (Option.some.inj ran)
  | idle | malloc | fault | aborted => simp [Pc.run] at ran

/-- Every step of a thread. -/
theorem accounts_moves {variant : Variant} {client : Client κ} {state : κ} {pc : Pc}
    {event : Event} {moved : Locals κ} (sound : Sound maxCount ghost shared)
    (own : Own ghost me shared pc) (move : Moves variant client shared state pc event after moved) :
    Accounts shared ghost.cells pc after moved.pc := by
  cases move with
  | call call allowed => exact accounts_kept sound.nodes rfl rfl (by simp [Pc.node])
  | malloc val p unused =>
    have outside := (sound.unused_apart unused.get).2
    refine ⟨fun complete => complete.alloc unused _, ghost.cells, ?_, ?_⟩
    · apply sound.nodes.congr _ rfl rfl rfl
      intro q member
      have other : q ≠ p := by
        rintro rfl
        exact outside member
      simp [other]
    · intro q live
      by_cases mine : p = q
      · exact .inr (.inl (congrArg some mine))
      · simp only [Heap.get_alloc, Ne.symm mine, if_false] at live
        by_cases queued : q ∈ ghost.cells.map Prod.fst
        · exact .inl queued
        · exact .inr (.inr ⟨live, queued, by simp [Pc.node]⟩)
  | run pc after outcome ran =>
    rw [client.continue_pc]
    exact accounts_run sound own ran

end Steps

section Runs

variable [DecidableEq ι] {variant : Variant} {client : Client κ} {maxCount : Int} {initial : ι → κ}
  {process : Process ι κ}

/-- A step of any thread keeps the account. -/
theorem Process.Accounted.next (positive : 0 ≤ maxCount) {labels : List (ι × Event)}
    {after : Process ι κ} {label : ι × Event} (accounted : process.Accounted)
    (run : exec (Locked.next variant client) (.start maxCount initial) labels = some process)
    (taken : Locked.next variant client process label = some after) : after.Accounted := by
  obtain ⟨i, event⟩ := label
  obtain ⟨ghost, sound, threads⟩ := sound_run positive run
  obtain ⟨step, others⟩ := Threads.next_eq_some.mp taken
  obtain ⟨complete, cells, nodes, held⟩ := accounted
  rw [nodes.chain.unique sound.nodes.chain] at held
  obtain ⟨completes, later, laterNodes, laterHeld⟩ :=
    accounts_moves sound (threads i) (moves_of_step step)
  refine ⟨completes complete, later, laterNodes, ?_⟩
  intro p live
  rcases laterHeld p live with queued | mine | ⟨before, unqueued, notMine⟩
  · exact .inl queued
  · exact .inr ⟨i, mine⟩
  · rcases held p before with queued | ⟨j, theirs⟩
    · exact absurd queued unqueued
    · have other : j ≠ i := by
        rintro rfl
        exact notMine theirs
      exact .inr ⟨j, by rwa [others j other]⟩

/-- The account holds in every state of every run. -/
theorem Process.accounted_run (positive : 0 ≤ maxCount) {labels : List (ι × Event)}
    (run : exec (Locked.next variant client) (.start maxCount initial) labels = some process) :
    process.Accounted := by
  refine exec_induct (motive := fun _ process => process.Accounted) ?_ ?_ run
  · refine ⟨Heap.complete_empty, [], cells_init _ _, ?_⟩
    intro p live
    exact absurd rfl live
  · intro labels middle label finish earlier held step
    exact held.next positive earlier step

/-- At every moment of every run of every variant, `queue_destroy` follows no bad pointer. The
nodes it leaves are the ones that a thread has to itself in the middle of a call and, in
`queue-usleep.c`, those of the queue; and when no thread has one, every node ever allocated was
freed exactly once, except that `queue-usleep.c` never frees the `q->count` nodes of the queue. -/
theorem destroy_leaves (positive : 0 ≤ maxCount) {labels : List (ι × Event)}
    (run : exec (Locked.next variant client) (.start maxCount initial) labels = some process) :
    ∃ nodes destroyed, Chain process.shared.heap.get Node.next process.shared.queue.first nodes ∧
      (nodes.length : Int) = process.shared.queue.count ∧
      queueDestroy variant process.shared.queue process.shared.heap = some destroyed ∧
      (destroyed.queueFreed = true ↔ variant = .usleep) ∧
      (∀ p, destroyed.heap.get p ≠ none ↔
        (∃ i, (process.thread i).pc.node = some p) ∨ variant = .usleep ∧ p ∈ nodes) ∧
      ((∀ i, (process.thread i).pc.node = none) →
        (destroyed.heap.freed ++
          if variant = .usleep then nodes.filterMap destroyed.heap.number else []).Perm
            (List.range destroyed.heap.made)) := by
  obtain ⟨ghost, sound, threads⟩ := Process.sound_run positive run
  obtain ⟨complete, cells, nodes, held⟩ := Process.accounted_run positive run
  have owned : ∀ p, (∃ i, (process.thread i).pc.node = some p) →
      process.shared.heap.get p ≠ none ∧ p ∉ ghost.cells.map Prod.fst := by
    rintro p ⟨i, mine⟩
    have owner := (threads i).owned p mine
    exact ⟨sound.live p i owner, sound.owned_apart owner⟩
  rw [nodes.chain.unique sound.nodes.chain] at held
  have live : ∀ p, process.shared.heap.get p ≠ none ↔
      (∃ i, (process.thread i).pc.node = some p) ∨ p ∈ ghost.cells.map Prod.fst := by
    intro p
    constructor
    · intro alive
      exact (held p alive).symm
    · rintro (mine | queued)
      · exact (owned p mine).1
      · exact sound.nodes.live queued
  have counted : ((ghost.cells.map Prod.fst).length : Int) = process.shared.queue.count := by
    rw [List.length_map, sound.nodes.count]
  by_cases keeps : variant = .usleep
  · subst keeps
    refine ⟨_, ⟨process.shared.heap, true⟩, sound.nodes.chain, counted, rfl, by simp, ?_, ?_⟩
    · intro p
      rw [live p]
      simp
    · intro quiet
      simp only [if_true]
      apply complete.perm sound.nodes.chain.nodup
      intro p
      rw [live p]
      simp [quiet]
  · obtain ⟨after, loop, drained⟩ := sound.nodes.freeNodes
    have destroys : queueDestroy variant process.shared.queue process.shared.heap =
        some ⟨after, false⟩ := by
      cases variant with
      | spinLock | mutex | semaphore => simp [queueDestroy, loop]
      | usleep => exact absurd rfl keeps
    have left : ∀ p, after.get p ≠ none ↔ ∃ i, (process.thread i).pc.node = some p := by
      intro p
      rw [drained.get p]
      constructor
      · intro alive
        obtain ⟨unqueued, before⟩ := ite_ne_left_iff.mp alive
        exact ((live p).mp (Ne.symm before)).resolve_right unqueued
      · intro mine
        rw [if_neg (owned p mine).2]
        exact (owned p mine).1
    refine ⟨_, ⟨after, false⟩, sound.nodes.chain, counted, destroys, by simp [keeps], ?_, ?_⟩
    · intro p
      rw [left p]
      simp [keeps]
    · intro quiet
      simp only [keeps, if_false]
      apply (drained.complete complete).perm List.nodup_nil
      intro p
      rw [left p]
      simp [quiet]

end Runs

/-- Two clients that may make any call. -/
def anyCalls : Client Unit := ⟨fun _ _ => true, fun _ _ => ()⟩

/-- One thread has added a value while the other has allocated a node and not linked it yet. -/
def midCall : List (Bool × Event) :=
  [(true, .call (.add 5)), (true, .malloc 8), (true, .go), (false, .call (.add 6)),
    (false, .malloc 9)]

/-- In the mutex variant only the node that is not linked yet survives; the usleep variant keeps
both. -/
theorem destroy_leaves_midCall :
    ∃ mutex usleep, exec (next .mutex anyCalls) (.start 3 fun _ => ()) midCall = some mutex ∧
      exec (next .usleep anyCalls) (.start 3 fun _ => ()) midCall = some usleep ∧
      (∃ destroyed, queueDestroy .mutex mutex.shared.queue mutex.shared.heap = some destroyed ∧
        destroyed.heap.get 8 = none ∧ destroyed.heap.get 9 ≠ none) ∧
      ∃ destroyed, queueDestroy .usleep usleep.shared.queue usleep.shared.heap = some destroyed ∧
        destroyed.heap.get 8 ≠ none ∧ destroyed.heap.get 9 ≠ none := by
  have mutexRun : (exec (next .mutex anyCalls) (.start 3 fun _ => ()) midCall).map
      (fun process => ((process.thread true).pc, (process.thread false).pc,
        process.shared.queue.first)) = some (.idle, .addLock 9 6, 8) := by
    decide +kernel
  have usleepRun : (exec (next .usleep anyCalls) (.start 3 fun _ => ()) midCall).map
      (fun process => ((process.thread true).pc, (process.thread false).pc,
        process.shared.queue.first)) = some (.idle, .addLock 9 6, 8) := by
    decide +kernel
  obtain ⟨mutex, ran, facts⟩ := Option.map_eq_some_iff.mp mutexRun
  obtain ⟨usleep, ran', facts'⟩ := Option.map_eq_some_iff.mp usleepRun
  simp only [Prod.mk.injEq] at facts facts'
  obtain ⟨nodes, destroyed, -, -, destroys, -, left, -⟩ := destroy_leaves (by decide) ran
  obtain ⟨nodes', destroyed', chain', -, destroys', -, left', -⟩ :=
    destroy_leaves (by decide) ran'
  refine ⟨mutex, usleep, ran, ran', ⟨destroyed, destroys, ?_, ?_⟩, destroyed', destroys', ?_, ?_⟩
  · by_contra alive
    have held := (left 8).mp alive
    simp [facts, Pc.node] at held
  · exact (left 9).mpr (.inl ⟨false, by simp [facts, Pc.node]⟩)
  · apply (left' 8).mpr
    refine .inr ⟨rfl, ?_⟩
    cases nodes' with
    | nil =>
      have empty : usleep.shared.queue.first = null := chain'
      simp [facts', null] at empty
    | cons p rest =>
      have start : usleep.shared.queue.first = p := chain'.1
      simp [← start, facts']
  · exact (left' 9).mpr (.inl ⟨false, by simp [facts', Pc.node]⟩)

end Locked

namespace Single

open NsuOs.Queues.Locked (Call)

/-- Every live node is in the queue, every allocation lives or was freed, and there was one for
each value added. -/
structure State.Accounted (state : State) (cells : List (Ptr × Int32)) : Prop where
  /-- Every allocation lives or was freed. -/
  complete : state.heap.Complete
  /-- The nodes of the queue. -/
  nodes : Cells state.heap state.queue cells
  /-- Every live node is among them. -/
  held : ∀ p, state.heap.get p ≠ none → p ∈ cells.map Prod.fst
  /-- There was an allocation for each value added. -/
  adds : state.queue.addCount = state.heap.made

variable {maxCount : Int} {state after : State} {cells : List (Ptr × Int32)}

/-- A call that ends without a change to the nodes keeps the account. -/
theorem State.Accounted.keep (accounted : state.Accounted cells) {queue : Queue}
    {outcome : Outcome} (first : queue.first = state.queue.first)
    (last : queue.last = state.queue.last) (count : queue.count = state.queue.count)
    (adds : queue.addCount = state.queue.addCount) :
    (state.ends queue state.heap outcome).Accounted cells :=
  ⟨accounted.complete, accounted.nodes.congr (fun _ _ => rfl) first last count, accounted.held,
    adds.trans accounted.adds⟩

/-- `queue_add` keeps the account. -/
theorem State.Accounted.add (accounted : state.Accounted cells) {val : Int32} {p : Ptr}
    (step : queueAdd state val p = some after) : ∃ later, after.Accounted later := by
  unfold queueAdd at step
  split at step
  · cases step
    exact ⟨cells, accounted.keep rfl rfl rfl rfl⟩
  · simp only at step
    split at step
    · cases step
      exact ⟨cells, accounted.keep rfl rfl rfl rfl⟩
    · obtain ⟨unused, linked⟩ := Option.ite_none_right_eq_some.mp step
      have dead : state.heap.get p = none := unused.get
      have apart : p ∉ cells.map Prod.fst := fun member => accounted.nodes.live member dead
      have kept : Cells (state.heap.alloc p ⟨val, null⟩)
          { state.queue with addAttempts := state.queue.addAttempts + 1 } cells := by
        refine accounted.nodes.congr ?_ rfl rfl rfl
        intro q member
        have other : q ≠ p := fun same => apart (same ▸ member)
        simp [other]
      have placed : (state.heap.alloc p ⟨val, null⟩).get p = some ⟨val, null⟩ := by simp
      obtain ⟨queue, heap, appends, appended⟩ := kept.append placed unused.1 apart
      rw [appends] at linked
      cases linked
      obtain ⟨made, completes⟩ := append_complete appends
      refine ⟨_, completes (accounted.complete.alloc unused _), appended.longer, ?_, ?_⟩
      · intro q live
        have before : (state.heap.alloc p ⟨val, null⟩).get q ≠ none :=
          fun gone => live ((appended.live q).mpr gone)
        by_cases same : q = p
        · simp [same]
        · simp only [Heap.get_alloc, same, if_false] at before
          have queued := accounted.held q before
          rw [List.map_append]
          exact List.mem_append_left _ queued
      · have adds := accounted.adds
        have counted := appended.addCount
        simp only [State.ends, made, Heap.made_alloc]
        simp only at counted
        omega

/-- `queue_get` keeps the account. -/
theorem State.Accounted.get (accounted : state.Accounted cells) :
    ∃ later, (queueGet state).Accounted later := by
  have counted := accounted.nodes.count
  unfold queueGet
  split
  · exact ⟨cells, accounted.keep rfl rfl rfl rfl⟩
  · simp only
    split
    · exact ⟨cells, accounted.keep rfl rfl rfl rfl⟩
    · split
      · exact ⟨cells, accounted.keep rfl rfl rfl rfl⟩
      · rename_i some
        cases cells with
        | nil => exact absurd counted some
        | cons cell rest =>
          have kept : Cells state.heap
              { state.queue with getAttempts := state.queue.getAttempts + 1 } (cell :: rest) :=
            accounted.nodes.congr (fun _ _ => rfl) rfl rfl rfl
          obtain ⟨queue, node, takes, -, others, outside, -, -, adds, -⟩ := kept.take
          rw [takes]
          refine ⟨rest, accounted.complete.free _, ?_, ?_, adds.trans accounted.adds⟩
          · refine others.congr ?_ rfl rfl rfl
            intro p member
            have other : p ≠ cell.1 := fun same => outside (same ▸ member)
            simp [State.ends, other]
          · intro p live
            have other : p ≠ cell.1 := by
              rintro rfl
              simp [State.ends] at live
            simp only [State.ends, Heap.get_free, other, if_false] at live
            exact (List.mem_cons.mp (accounted.held p live)).resolve_left other

/-- The account holds after every sequence of calls. -/
theorem accounted_run {labels : List (Call × Ptr)}
    (run : exec Single.next (.start maxCount) labels = some state) :
    ∃ cells, state.Accounted cells := by
  refine exec_induct (motive := fun _ state => ∃ cells, state.Accounted cells) ?_ ?_ run
  · refine ⟨[], Heap.complete_empty, cells_init _ _, ?_, rfl⟩
    intro p live
    exact absurd rfl live
  · rintro labels before ⟨call, p⟩ after - ⟨cells, accounted⟩ step
    cases call with
    | add val => exact accounted.add step
    | get =>
      cases step
      exact accounted.get

/-- After every sequence of calls, whatever addresses `malloc` returned, `queue_destroy` follows no
bad pointer and leaves no node: each value that was ever added had one node, and each of these
nodes was freed exactly once. -/
theorem destroy_frees_each {labels : List (Call × Ptr)}
    (run : exec Single.next (.start maxCount) labels = some state) :
    ∃ heap, freeNodes state.queue state.heap = some heap ∧ (∀ p, heap.get p = none) ∧
      heap.freed.Perm (List.range heap.made) ∧ state.queue.addCount = heap.made := by
  obtain ⟨cells, accounted⟩ := accounted_run run
  obtain ⟨after, loop, drained⟩ := accounted.nodes.freeNodes
  have nothing : ∀ p, after.get p = none := by
    intro p
    rw [drained.get p]
    by_contra alive
    obtain ⟨unqueued, before⟩ := ite_ne_left_iff.mp alive
    exact unqueued (accounted.held p (Ne.symm before))
  have freed := (drained.complete accounted.complete).perm List.nodup_nil
    fun p => by simp [nothing]
  refine ⟨after, loop, nothing, by simpa using freed, ?_⟩
  rw [drained.made]
  exact accounted.adds

/-- The calls of `queue-example.c` cut down: two adds, a get, and an address that comes back. -/
theorem destroy_frees_each_reused :
    ∃ state heap, exec next (.start 2)
        [(.add 1, 8), (.add 2, 9), (.get, 0), (.add 3, 8), (.add 4, 10)] = some state ∧
      freeNodes state.queue state.heap = some heap ∧ heap.freed.Perm (List.range heap.made) ∧
      heap.made = 3 := by
  have outcome : (exec next (.start 2)
      [(.add 1, 8), (.add 2, 9), (.get, 0), (.add 3, 8), (.add 4, 10)]).map
        (fun state => state.queue.addCount) = some 3 := by
    decide +kernel
  obtain ⟨state, run, three⟩ := Option.map_eq_some_iff.mp outcome
  obtain ⟨heap, destroys, -, freed, adds⟩ := destroy_frees_each run
  refine ⟨state, heap, run, destroys, freed, ?_⟩
  rw [three] at adds
  exact_mod_cast adds.symm

end Single

end NsuOs.Queues
