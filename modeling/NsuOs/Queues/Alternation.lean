import NsuOs.Queues.CondVar

/-!
# Adds and gets of the condition-variable queue alternate

The flag `shared_data` admits an add only after a get and a get only after an add, so the queue
holds at most one node whatever its capacity is. A node that is not in the queue belongs to one
thread: to an add from `malloc` until it is linked, to a get from its unlinking until `free`. The
owner of each such node is the auxiliary value of the assertions; it separates the pointers of
different threads from each other and from the queue when addresses are used again.
-/
namespace NsuOs.Queues.CondVar

open NsuOs.Run

variable {ι : Type*}

/-- An add and a get of each value, in turn. -/
def pairs (vals : List Int32) : List Op := vals.flatMap fun val => [.add val, .get val]

/-- Adds and gets alternate, starting with an add, and each get has the value of the add before
it. -/
def Alternates (log : List Op) : Prop :=
  ∃ vals, log = pairs vals ∨ ∃ val, log = pairs vals ++ [.add val]

/-- The flag, the nodes and the operations completed so far fit together: the queue is empty after
a get, and after an add it holds just the node of that add, which no thread owns. -/
inductive Phase (owner : Ptr → Option ι) (shared : Shared ι) : Prop
  /-- Every value added was taken. -/
  | empty (vals : List Int32) (data : shared.sharedData = .ok)
      (cells : Cells shared.heap shared.queue []) (log : shared.log = pairs vals)
  /-- The last value added is in the queue. -/
  | full (vals : List Int32) (p : Ptr) (val : Int32) (data : shared.sharedData = .nok)
      (cells : Cells shared.heap shared.queue [(p, val)]) (unowned : owner p = none)
      (log : shared.log = pairs vals ++ [.add val])

/-- The assertion on the shared memory. -/
structure Sound (owner : Ptr → Option ι) (shared : Shared ι) : Prop where
  /-- The flag and the queue are in one of the two phases. -/
  phase : Phase owner shared
  /-- The node a thread has to itself lives. -/
  live : ∀ p i, owner p = some i → shared.heap.get p ≠ none

/-- The places at which a thread holds the mutex. -/
def Pc.holds : Pc → Bool
  | .test _ | .malloc _ | .link _ _ | .take | .signal _ | .unlock _ => true
  | .idle | .lock _ | .waiting _ | .free _ | .fault => false

/-- The flag that a thread past its loop relies on. -/
def Pc.flag : Pc → Option EventData
  | .malloc _ | .link _ _ => some .ok
  | .take => some .nok
  | .idle | .lock _ | .test _ | .waiting _ | .signal _ | .unlock _ | .free _ | .fault => none

/-- The node a thread owns at its place, with the contents it relies on. -/
def Pc.node : Pc → Option (Ptr × Option Node)
  | .link new val => some (new, some ⟨val, null⟩)
  | .signal (some tmp) | .unlock (some tmp) | .free tmp => some (tmp, none)
  | .signal none | .unlock none | .idle | .lock _ | .test _ | .waiting _ | .malloc _ | .take
  | .fault => none

/-- The assertion on one thread. -/
structure Own (owner : Ptr → Option ι) (me : ι) (shared : Shared ι) (pc : Pc) : Prop where
  /-- The thread has the mutex exactly at the places between its lock and its unlock. -/
  holds : pc.holds = true ↔ shared.mutex = some me
  /-- A thread in the wait set is in its wait. -/
  waits : me ∈ shared.waiters → ∃ call, pc = .waiting call
  /-- Behind the test the flag is what the test saw. -/
  flag : ∀ data, pc.flag = some data → shared.sharedData = data
  /-- The node at its place is its own. -/
  owned : ∀ p contents, pc.node = some (p, contents) → owner p = some me
  /-- The node it is about to link lives and has its contents. -/
  filled : ∀ p node, pc.node = some (p, some node) → p ≠ null ∧ shared.heap.get p = some node
  /-- It has followed no bad pointer. -/
  faultless : pc ≠ .fault

/-- A place whose flag matters is one at which the mutex is held. -/
theorem Pc.holds_of_flag {pc : Pc} {data : EventData} (relies : pc.flag = some data) :
    pc.holds = true := by
  cases pc with
  | malloc | link | take => rfl
  | idle | lock | test | waiting | signal | unlock | free | fault => simp [flag] at relies

/-- What another thread's step must leave alone for a thread's assertion to stand. -/
theorem Own.frame {owner later : Ptr → Option ι} {me : ι} {shared after : Shared ι} {pc : Pc}
    (own : Own owner me shared pc) (mutex : after.mutex = some me ↔ shared.mutex = some me)
    (waiters : me ∈ after.waiters → me ∈ shared.waiters)
    (data : shared.mutex = some me → after.sharedData = shared.sharedData)
    (kept : ∀ p, owner p = some me → later p = some me)
    (heap : ∀ p, owner p = some me → after.heap.get p = shared.heap.get p) :
    Own later me after pc where
  holds := own.holds.trans mutex.symm
  waits member := own.waits (waiters member)
  flag d relies := by
    have held := own.holds.mp (Pc.holds_of_flag relies)
    rw [data held]
    exact own.flag d relies
  owned p contents here := kept p (own.owned p contents here)
  filled p node here := by
    have stands := own.filled p node here
    rw [heap p (own.owned p (some node) here)]
    exact stands
  faultless := own.faultless

/-- The assertion on the shared memory does not look at the mutex or the wait set. -/
theorem Sound.congr {owner : Ptr → Option ι} {shared after : Shared ι}
    (sound : Sound owner shared) (data : after.sharedData = shared.sharedData)
    (queue : after.queue = shared.queue) (heap : after.heap = shared.heap)
    (log : after.log = shared.log) : Sound owner after := by
  refine ⟨?_, by rw [heap]; exact sound.live⟩
  cases sound.phase with
  | empty vals flag cells logged =>
    refine .empty vals (data.trans flag) ?_ (log.trans logged)
    rw [heap, queue]
    exact cells
  | full vals p val flag cells unowned logged =>
    refine .full vals p val (data.trans flag) ?_ unowned (log.trans logged)
    rw [heap, queue]
    exact cells

/-- A step that touches only the mutex and the wait set keeps every assertion, provided the moving
thread restores its own. -/
theorem sound_quiet {owner : Ptr → Option ι} {me : ι} {shared after : Shared ι} {moved : Pc}
    (sound : Sound owner shared) (data : after.sharedData = shared.sharedData)
    (queue : after.queue = shared.queue) (heap : after.heap = shared.heap)
    (log : after.log = shared.log)
    (mutex : ∀ j, j ≠ me → (after.mutex = some j ↔ shared.mutex = some j))
    (waiters : ∀ j, j ≠ me → j ∈ after.waiters → j ∈ shared.waiters)
    (mine : Own owner me after moved) :
    ∃ later, Sound later after ∧ Own later me after moved ∧
      ∀ j theirs, j ≠ me → Own owner j shared theirs → Own later j after theirs := by
  refine ⟨owner, sound.congr data queue heap log, mine, ?_⟩
  intro j theirs other own
  exact own.frame (mutex j other) (waiters j other) (fun _ => data) (fun _ same => same)
    (fun p _ => by rw [heap])

/-- The thread that holds the mutex is not in the wait set. -/
theorem Own.not_waiting {owner : Ptr → Option ι} {me : ι} {shared : Shared ι} {pc : Pc}
    (own : Own owner me shared pc) (awake : ∀ call, pc ≠ .waiting call) : me ∉ shared.waiters := by
  intro member
  obtain ⟨call, here⟩ := own.waits member
  exact awake call here

/-- The flag and the queue a thread finds when it is past its loop. -/
theorem Call.flag_enter {shared : Shared ι} {call : Call} (free : ¬shared.blocked call)
    {data : EventData} (relies : call.enter.flag = some data) : shared.sharedData = data := by
  cases call with
  | add val =>
    simp only [Shared.blocked, not_or] at free
    have flag : data = .ok := by simpa [enter, Pc.flag] using relies.symm
    cases read : shared.sharedData with
    | ok => exact flag.symm
    | nok => exact absurd read free.2
  | get =>
    simp only [Shared.blocked, not_or] at free
    have flag : data = .nok := by simpa [enter, Pc.flag] using relies.symm
    cases read : shared.sharedData with
    | ok => exact absurd read free.2
    | nok => exact flag.symm

/-- A thread past its loop holds the mutex and owns nothing yet. -/
theorem Own.enter {owner : Ptr → Option ι} {me : ι} {shared : Shared ι} {call : Call}
    (own : Own owner me shared (.test call)) (free : ¬shared.blocked call) :
    Own owner me shared call.enter := by
  have held : shared.mutex = some me := own.holds.mp rfl
  have awake := own.not_waiting (by simp)
  have flag : ∀ data, call.enter.flag = some data → shared.sharedData = data :=
    fun _ relies => Call.flag_enter free relies
  cases call with
  | add val =>
    exact ⟨by simp [Call.enter, Pc.holds, held], fun member => absurd member awake, flag,
      by simp [Call.enter, Pc.node], by simp [Call.enter, Pc.node], by simp [Call.enter]⟩
  | get =>
    exact ⟨by simp [Call.enter, Pc.holds, held], fun member => absurd member awake, flag,
      by simp [Call.enter, Pc.node], by simp [Call.enter, Pc.node], by simp [Call.enter]⟩

/-- Linking the new node turns the empty queue into one with a single node. -/
theorem sound_link {owner : Ptr → Option ι} {me : ι} {shared : Shared ι} {new : Ptr} {val : Int32}
    (sound : Sound owner shared) (own : Own owner me shared (.link new val)) :
    ∃ later, Sound later (addNode shared new val).1 ∧
      Own later me (addNode shared new val).1 (addNode shared new val).2 ∧
      ∀ j theirs, j ≠ me → Own owner j shared theirs →
        Own later j (addNode shared new val).1 theirs := by
  have data : shared.sharedData = .ok := own.flag .ok rfl
  have held : shared.mutex = some me := own.holds.mp rfl
  have mine : owner new = some me := own.owned new _ rfl
  have placed := own.filled new _ rfl
  have awake := own.not_waiting (by simp)
  cases sound.phase with
  | full vals p v flag => simp [data] at flag
  | empty vals flag cells logged =>
    obtain ⟨q', after, linking, appended⟩ := cells.append placed.2 placed.1 (by simp)
    have same : ∀ p, after.get p = shared.heap.get p := fun p => appended.frame p (by simp)
    simp only [addNode, linking]
    refine ⟨Function.update owner new none, ⟨?_, ?_⟩, ?_, ?_⟩
    · exact .full vals new val rfl appended.longer (by simp) (by rw [logged])
    · intro p i owned
      by_cases here : p = new
      · simp [here] at owned
      · rw [Function.update_of_ne here] at owned
        change after.get p ≠ none
        rw [same p]
        exact sound.live p i owned
    · exact ⟨by simp [Pc.holds, held], fun member => absurd member awake, by simp [Pc.flag],
        by simp [Pc.node], by simp [Pc.node], by simp⟩
    · intro j theirs other their
      refine their.frame Iff.rfl id ?_ ?_ fun p _ => same p
      · intro theirMutex
        exact absurd (Option.some.inj (theirMutex.symm.trans held)) other
      · intro p owned
        have apart : p ≠ new := by
          rintro rfl
          exact other (Option.some.inj (owned.symm.trans mine))
        rw [Function.update_of_ne apart]
        exact owned

/-- Unlinking the only node leaves the queue empty and gives the node to the thread. -/
theorem sound_take {owner : Ptr → Option ι} {me : ι} {shared : Shared ι}
    (sound : Sound owner shared) (own : Own owner me shared .take) :
    ∃ later, Sound later (getNode shared).1 ∧ Own later me (getNode shared).1 (getNode shared).2 ∧
      ∀ j theirs, j ≠ me → Own owner j shared theirs → Own later j (getNode shared).1 theirs := by
  have data : shared.sharedData = .nok := own.flag .nok rfl
  have held : shared.mutex = some me := own.holds.mp rfl
  have awake := own.not_waiting (by simp)
  cases sound.phase with
  | empty vals flag => simp [data] at flag
  | full vals p val flag cells unowned logged =>
    obtain ⟨q', node, unlinking, value, rest, -⟩ := cells.take
    have alive : shared.heap.get p ≠ none := cells.live (by simp)
    simp only [getNode, unlinking]
    refine ⟨Function.update owner p (some me), ⟨?_, ?_⟩, ?_, ?_⟩
    · refine .empty (vals ++ [val]) rfl rest ?_
      have read : node.val = val := value
      simp [logged, read, pairs]
    · intro p' i owned
      by_cases here : p' = p
      · rw [here]
        exact alive
      · rw [Function.update_of_ne here] at owned
        exact sound.live p' i owned
    · exact ⟨by simp [Pc.holds, held], fun member => absurd member awake, by simp [Pc.flag],
        by simp [Pc.node], by simp [Pc.node], by simp⟩
    · intro j theirs other their
      refine their.frame Iff.rfl id ?_ ?_ fun _ _ => rfl
      · intro theirMutex
        exact absurd (Option.some.inj (theirMutex.symm.trans held)) other
      · intro p' owned
        have apart : p' ≠ p := by
          rintro rfl
          simp [unowned] at owned
        rw [Function.update_of_ne apart]
        exact owned

/-- A new node belongs to the thread that allocated it. -/
theorem sound_malloc {owner : Ptr → Option ι} {me : ι} {shared : Shared ι} {val : Int32} {p : Ptr}
    (sound : Sound owner shared) (own : Own owner me shared (.malloc val))
    (unused : shared.heap.Unused p) :
    ∃ later, Sound later { shared with heap := shared.heap.alloc p ⟨val, null⟩ } ∧
      Own later me { shared with heap := shared.heap.alloc p ⟨val, null⟩ } (.link p val) ∧
      ∀ j theirs, j ≠ me → Own owner j shared theirs →
        Own later j { shared with heap := shared.heap.alloc p ⟨val, null⟩ } theirs := by
  have dead : shared.heap.get p = none := unused.get
  have held : shared.mutex = some me := own.holds.mp rfl
  have data : shared.sharedData = .ok := own.flag .ok rfl
  have awake := own.not_waiting (by simp)
  have unowned : owner p = none := by
    cases who : owner p with
    | none => rfl
    | some i => exact absurd dead (sound.live p i who)
  have elsewhere : ∀ p', p' ≠ p →
      (shared.heap.alloc p ⟨val, null⟩).get p' = shared.heap.get p' := by
    intro p' other
    simp [other]
  refine ⟨Function.update owner p (some me), ⟨?_, ?_⟩, ?_, ?_⟩
  · cases sound.phase with
    | full vals p' v flag => simp [data] at flag
    | empty vals flag cells logged =>
      exact .empty vals flag (cells.congr (by simp) rfl rfl rfl) logged
  · intro p' i owned
    by_cases here : p' = p
    · simp [here]
    · rw [Function.update_of_ne here] at owned
      change (shared.heap.alloc p ⟨val, null⟩).get p' ≠ none
      rw [elsewhere p' here]
      exact sound.live p' i owned
  · refine ⟨by simp [Pc.holds, held], fun member => absurd member awake, ?_, ?_, ?_, by simp⟩
    · intro d relies
      have flag : d = .ok := by simpa [Pc.flag] using relies.symm
      rw [flag]
      exact data
    · intro p' contents here
      have same : p' = p := by
        simp only [Pc.node, Option.some.injEq, Prod.mk.injEq] at here
        exact here.1.symm
      simp [same]
    · intro p' node here
      simp only [Pc.node, Option.some.injEq, Prod.mk.injEq] at here
      obtain ⟨rfl, rfl⟩ := here
      exact ⟨unused.1, by simp⟩
  · intro j theirs other their
    have apart : ∀ p', owner p' = some j → p' ≠ p := by
      rintro p' owned rfl
      simp [unowned] at owned
    refine their.frame Iff.rfl id (fun _ => rfl) ?_ fun p' owned => elsewhere p' (apart p' owned)
    intro p' owned
    rw [Function.update_of_ne (apart p' owned)]
    exact owned

/-- A get frees its own node, which is live and not in the queue. -/
theorem sound_free {owner : Ptr → Option ι} {me : ι} {shared : Shared ι} {tmp : Ptr}
    (sound : Sound owner shared) (own : Own owner me shared (.free tmp)) :
    ∃ later, Sound later (freeNode shared tmp).1 ∧
      Own later me (freeNode shared tmp).1 (freeNode shared tmp).2 ∧
      ∀ j theirs, j ≠ me → Own owner j shared theirs →
        Own later j (freeNode shared tmp).1 theirs := by
  have mine : owner tmp = some me := own.owned tmp none rfl
  have unheld : ¬shared.mutex = some me := fun same => by simpa [Pc.holds] using own.holds.mpr same
  have awake := own.not_waiting (by simp)
  obtain ⟨node, alive⟩ := Option.ne_none_iff_exists'.mp (sound.live tmp me mine)
  have elsewhere : ∀ p, p ≠ tmp → (shared.heap.free tmp).get p = shared.heap.get p := by
    intro p other
    simp [other]
  simp only [freeNode, alive]
  refine ⟨Function.update owner tmp none, ⟨?_, ?_⟩, ?_, ?_⟩
  · cases sound.phase with
    | empty vals flag cells logged =>
      exact .empty vals flag (cells.congr (by simp) rfl rfl rfl) logged
    | full vals p val flag cells unowned logged =>
      have apart : p ≠ tmp := by
        rintro rfl
        simp [unowned] at mine
      refine .full vals p val flag ?_ ?_ logged
      · apply cells.congr ?_ rfl rfl rfl
        intro p' member
        have same : p' = p := by simpa using member
        rw [same]
        exact elsewhere p apart
      · rw [Function.update_of_ne apart]
        exact unowned
  · intro p i owned
    by_cases here : p = tmp
    · simp [here] at owned
    · rw [Function.update_of_ne here] at owned
      change (shared.heap.free tmp).get p ≠ none
      rw [elsewhere p here]
      exact sound.live p i owned
  · exact ⟨by simp [Pc.holds, unheld], fun member => absurd member awake, by simp [Pc.flag],
      by simp [Pc.node], by simp [Pc.node], by simp⟩
  · intro j theirs other their
    have apart : ∀ p, owner p = some j → p ≠ tmp := by
      rintro p owned rfl
      exact other (Option.some.inj (owned.symm.trans mine))
    refine their.frame Iff.rfl id (fun _ => rfl) ?_ fun p owned => elsewhere p (apart p owned)
    intro p owned
    rw [Function.update_of_ne (apart p owned)]
    exact owned

/-- A holder of the mutex that passes it on or takes it leaves it with no third thread. -/
theorem mutex_other {me j : ι} {before after : Option ι} (other : j ≠ me)
    (first : before = none ∨ before = some me) (second : after = none ∨ after = some me) :
    after = some j ↔ before = some j := by
  have apart : me ≠ j := other.symm
  rcases first with rfl | rfl <;> rcases second with rfl | rfl <;> simp [apart]

/-- The chain of the queue's nodes is what the abstract view says, and counts at most one. -/
theorem Phase.at_most_one {owner : Ptr → Option ι} {shared : Shared ι}
    (phase : Phase owner shared) :
    shared.queue.count ≤ 1 ∧ ∃ nodes, Chain shared.heap.get Node.next shared.queue.first nodes ∧
      nodes.length ≤ 1 := by
  cases phase with
  | empty vals data cells log =>
    have count : shared.queue.count = 0 := cells.count
    exact ⟨by omega, [], cells.chain, by simp⟩
  | full vals p val data cells unowned log =>
    have count : shared.queue.count = 1 := cells.count
    exact ⟨by omega, [p], cells.chain, by simp⟩

/-- The flag tells which of the two states the queue is in. -/
theorem Phase.flag_iff {owner : Ptr → Option ι} {shared : Shared ι} (phase : Phase owner shared) :
    (shared.sharedData = .ok ↔ shared.queue.count = 0 ∧ shared.queue.first = null) ∧
      (shared.sharedData = .nok ↔ shared.queue.count = 1 ∧
        shared.queue.first = shared.queue.last ∧
        Chain shared.heap.get Node.next shared.queue.first [shared.queue.first]) := by
  cases phase with
  | empty vals data cells log =>
    have count : shared.queue.count = 0 := cells.count
    have first := cells.first_eq_null
    simp [data, count, first]
  | full vals p val data cells unowned log =>
    have count : shared.queue.count = 1 := cells.count
    have first : shared.queue.first = p := cells.first_eq.1
    have last : shared.queue.last = p := cells.last [] (p, val) rfl
    have chain := cells.chain
    simp only [List.map_cons, List.map_nil, first] at chain
    simp [data, count, first, last, chain]

/-- A thread that has signalled still holds the mutex and owns the node it has to free. -/
theorem Own.signalled {owner : Ptr → Option ι} {me : ι} {shared : Shared ι} {tmp : Option Ptr}
    (own : Own owner me shared (.signal tmp)) {waiters : Finset ι}
    (fewer : waiters ⊆ shared.waiters) :
    Own owner me { shared with waiters := waiters } (.unlock tmp) := by
  have awake := own.not_waiting (by simp)
  have held : shared.mutex = some me := own.holds.mp rfl
  refine ⟨by simp [Pc.holds, held], fun member => absurd (fewer member) awake,
    by simp [Pc.flag], ?_, ?_, by simp⟩
  · cases tmp with
    | none => simp [Pc.node]
    | some p => simpa [Pc.node] using own.owned
  · cases tmp with
    | none => simp [Pc.node]
    | some p => simp [Pc.node]

variable [DecidableEq ι]

/-- The assertions are stable under every step. -/
theorem sound_stable : Threads.Stable step Sound (Own (ι := ι)) := by
  intro owner me shared pc event after moved sound own taken
  cases moves_of_step taken with
  | call call =>
    refine sound_quiet sound rfl rfl rfl rfl (fun _ _ => Iff.rfl) (fun _ _ => id) ?_
    exact ⟨by simpa [Pc.holds] using own.holds,
      fun member => absurd member (own.not_waiting (by simp)), by simp [Pc.flag], by simp [Pc.node],
      by simp [Pc.node], by simp⟩
  | lock call unheld =>
    refine sound_quiet sound rfl rfl rfl rfl
      (fun j other => mutex_other other (.inl unheld) (.inr rfl)) (fun _ _ => id) ?_
    exact ⟨by simp [Pc.holds], fun member => absurd member (own.not_waiting (by simp)),
      by simp [Pc.flag], by simp [Pc.node], by simp [Pc.node], by simp⟩
  | wait call blocked =>
    have held : shared.mutex = some me := own.holds.mp rfl
    refine sound_quiet sound rfl rfl rfl rfl
      (fun j other => mutex_other other (.inr held) (.inl rfl))
      (fun j other member => Finset.mem_of_mem_insert_of_ne member other) ?_
    exact ⟨by simp [Pc.holds, condWait], fun _ => ⟨call, rfl⟩, by simp [Pc.flag],
      by simp [Pc.node], by simp [Pc.node], by simp⟩
  | enter call free =>
    exact sound_quiet sound rfl rfl rfl rfl (fun _ _ => Iff.rfl) (fun _ _ => id) (own.enter free)
  | relock call awake unheld =>
    refine sound_quiet sound rfl rfl rfl rfl
      (fun j other => mutex_other other (.inl unheld) (.inr rfl)) (fun _ _ => id) ?_
    exact ⟨by simp [Pc.holds], fun member => absurd member awake, by simp [Pc.flag],
      by simp [Pc.node], by simp [Pc.node], by simp⟩
  | spurious call =>
    refine sound_quiet sound rfl rfl rfl rfl (fun _ _ => Iff.rfl)
      (fun _ _ member => Finset.mem_of_mem_erase member) ?_
    exact ⟨own.holds, fun _ => ⟨call, rfl⟩, by simp [Pc.flag], by simp [Pc.node],
      by simp [Pc.node], by simp⟩
  | malloc val p unused => exact sound_malloc sound own unused
  | link new val => exact sound_link sound own
  | take => exact sound_take sound own
  | signal tmp waiter member =>
    exact sound_quiet sound rfl rfl rfl rfl (fun _ _ => Iff.rfl)
      (fun _ _ member => Finset.mem_of_mem_erase member)
      (own.signalled (Finset.erase_subset waiter shared.waiters))
  | nobody tmp deserted =>
    exact sound_quiet sound rfl rfl rfl rfl (fun _ _ => Iff.rfl) (fun _ _ => id)
      (own.signalled (Finset.Subset.refl shared.waiters))
  | unlock tmp =>
    have awake := own.not_waiting (by simp)
    have held : shared.mutex = some me := own.holds.mp rfl
    refine sound_quiet sound rfl rfl rfl rfl
      (fun j other => mutex_other other (.inr held) (.inl rfl)) (fun _ _ => id) ?_
    cases tmp with
    | none =>
      exact ⟨by simp [leave, Pc.holds], fun member => absurd member awake,
        by simp [leave, Pc.flag], by simp [leave, Pc.node], by simp [leave, Pc.node],
        by simp [leave]⟩
    | some p =>
      have owned := own.owned
      exact ⟨by simp [leave, Pc.holds], fun member => absurd member awake,
        by simp [leave, Pc.flag], by simpa [leave, Pc.node] using owned,
        by simp [leave, Pc.node], by simp [leave]⟩
  | free tmp => exact sound_free sound own

/-- The assertions hold in every state of every run. -/
theorem Process.sound_run {maxCount : Int} {labels : List (ι × Event ι)} {process : Process ι}
    (run : exec next (.start maxCount) labels = some process) :
    Threads.Holds Sound Own process := by
  apply sound_stable.exec ?_ run
  refine ⟨fun _ => none, ⟨.empty [] rfl (cells_init _ _) rfl, by simp⟩, fun i => ?_⟩
  exact ⟨by simp [start, Pc.holds], by simp [start], by simp [start, Pc.flag],
    by simp [start, Pc.node], by simp [start, Pc.node], by simp [start]⟩

/-- Whatever the capacity, in every run of any number of threads calling `queue_add` and
`queue_get`: while the mutex is free the flag is `OK` exactly when the queue is empty and `NOK`
exactly when its first node is its last and only one; completed adds and gets alternate, starting
with an add, and each get has the value of the add before it; no thread follows or frees a null or
freed pointer; and the queue never holds more than one node. -/
theorem condvar_alternates {maxCount : Int} {labels : List (ι × Event ι)} {process : Process ι}
    (run : exec next (.start maxCount) labels = some process) :
    (process.shared.mutex = none →
      (process.shared.sharedData = .ok ↔
        process.shared.queue.count = 0 ∧ process.shared.queue.first = null) ∧
      (process.shared.sharedData = .nok ↔ process.shared.queue.count = 1 ∧
        process.shared.queue.first = process.shared.queue.last ∧
        Chain process.shared.heap.get Node.next process.shared.queue.first
          [process.shared.queue.first])) ∧
    Alternates process.shared.log ∧
    (∀ i, process.thread i ≠ .fault) ∧
    process.shared.queue.count ≤ 1 ∧
    ∃ nodes, Chain process.shared.heap.get Node.next process.shared.queue.first nodes ∧
      nodes.length ≤ 1 := by
  obtain ⟨owner, sound, threads⟩ := Process.sound_run run
  have alternates : Alternates process.shared.log := by
    cases sound.phase with
    | empty vals data cells log => exact ⟨vals, .inl log⟩
    | full vals p val data cells unowned log => exact ⟨vals, .inr ⟨val, log⟩⟩
  refine ⟨fun _ => sound.phase.flag_iff, alternates, fun i => (threads i).faultless, ?_⟩
  exact sound.phase.at_most_one

/-- Thread `i` adds 7, thread `j` gets it while `i` waits to add 8 at the same address. -/
def handover (i j : ι) : List (ι × Event ι) :=
  [(i, .call (.add 7)), (i, .go), (i, .go), (i, .malloc 5), (i, .go), (i, .signal none), (i, .go),
    (i, .call (.add 8)), (i, .go), (i, .go), (j, .call .get), (j, .go), (j, .go), (j, .go),
    (j, .signal (some i)), (j, .go), (j, .go), (i, .go), (i, .go), (i, .malloc 5), (i, .go),
    (i, .signal none), (i, .go)]

/-- After the hand-over the operations are an add, its get and another add. -/
theorem condvar_alternates_handover :
    ∃ process, exec next (.start 10) (handover (0 : Fin 2) 1) = some process ∧
      process.shared.log = [.add 7, .get 7, .add 8] ∧ process.shared.queue.count ≤ 1 := by
  have outcome : (exec next (.start 10) (handover (0 : Fin 2) 1)).map
      (fun process => process.shared.log) = some [.add 7, .get 7, .add 8] := by
    decide +kernel
  obtain ⟨process, run, log⟩ := Option.map_eq_some_iff.mp outcome
  exact ⟨process, run, log, (condvar_alternates run).2.2.2.1⟩

end NsuOs.Queues.CondVar
