import NsuOs.Base.Fairness
import NsuOs.Queues.Workers

/-!
# Every value added to a locked queue is handed out

A lock that is not refused to anybody for good is enough: in a fair execution every thread reaches
its next locked section after finitely many steps, whatever the queue holds. If one thread keeps
calling `queue_get`, the queue cannot keep a value, and if another keeps calling `queue_add`, it
cannot stay empty. The read of the detached node is one more step of the thread that holds it.
-/
namespace NsuOs.Queues.Locked

open NsuOs.Run NsuOs.Threads

variable {ι κ : Type*}

/-- A program that goes on calling the queue for ever, with calls of one kind, while its state is
one of these. -/
structure Client.Repeats (client : Client κ) (calls : Call → Prop) (states : κ → Prop) : Prop where
  /-- In each of these states it may make a call. -/
  next : ∀ state, states state → ∃ call, client.may state call = true
  /-- Every call it may make there is of the kind. -/
  only : ∀ state call, states state → client.may state call = true → calls call
  /-- The call leads it into such a state again. -/
  again : ∀ state result, states state → states (client.resume state result)

/-- The thread is idle or in a call of this kind. -/
def Pc.Serves (calls : Call → Prop) : Pc → Prop
  | .malloc val | .addLock _ val => calls (.add val)
  | .addFree _ => ∃ val, calls (.add val)
  | .getLock | .getRead _ _ | .getFree _ _ _ => calls .get
  | .idle | .fault | .aborted => True

/-- The thread is about to enter a locked section. -/
def Pc.locks : Pc → Bool
  | .addLock _ _ | .getLock => true
  | .idle | .malloc _ | .addFree _ | .getRead _ _ | .getFree _ _ _ | .fault | .aborted => false

/-- The steps to the next locked section. -/
def Pc.left : Pc → Nat
  | .fault | .aborted | .addLock _ _ | .getLock => 0
  | .malloc _ => 1
  | .idle => 2
  | .addFree _ | .getFree _ _ _ => 3
  | .getRead _ _ => 4

/-- `free` hands out nothing. -/
theorem freeNode_delivered (shared : Shared) (p : Ptr) (outcome : Outcome) :
    (freeNode shared p outcome).1.delivered = shared.delivered := by
  unfold freeNode
  split
  · rfl
  · rfl

/-- A `free` at the end of a call leaves the records alone, and the call returns or the node is
gone. -/
theorem freeNode_returns {shared after : Shared} {p : Ptr} {result : Result} {outcome : Outcome}
    (freed : freeNode shared p (.returned result) = (after, outcome)) :
    after.added = shared.added ∧ after.taken = shared.taken ∧
      after.delivered = shared.delivered ∧ (outcome.pc = .idle ∨ outcome.pc = .fault) := by
  obtain ⟨added, taken, ends⟩ := freeNode_cases shared p (.returned result)
  have delivered := freeNode_delivered shared p (.returned result)
  rw [freed] at added taken delivered ends
  refine ⟨added, taken, delivered, ends.imp ?_ ?_⟩
  · exact congrArg Outcome.pc
  · exact congrArg Outcome.pc

/-- A locked section of `queue_add` hands out nothing. -/
theorem queueAdd_delivered (variant : Variant) (shared : Shared) (new : Ptr) (val : Int32) :
    (queueAdd variant shared new val).1.delivered = shared.delivered := by
  unfold queueAdd
  by_cases sane : shared.queue.count ≤ shared.queue.maxCount
  · by_cases full : shared.queue.count = shared.queue.maxCount
    · cases inside : variant.freesInside with
      | true => simp [full, freeNode_delivered]
      | false => simp [full]
    · simp only [sane, full, not_true_eq_false, if_false]
      split
      · rfl
      · rfl
  · simp [sane]

/-- A locked section of `queue_get` hands out nothing. -/
theorem queueGet_delivered (shared : Shared) :
    (queueGet shared).1.delivered = shared.delivered := by
  unfold queueGet
  by_cases sane : shared.queue.count ≥ 0
  · by_cases empty : shared.queue.count = 0
    · simp [empty]
    · simp only [sane, empty, not_true_eq_false, if_false]
      split
      · rfl
      · rfl
  · simp [sane]

/-- The read of the detached node hands out its value under its number, or the node is gone. -/
theorem readNode_delivered (shared : Shared) (tmp : Ptr) (ticket : Nat) :
    (∃ val, (readNode shared tmp ticket).1.delivered = shared.delivered ++ [(ticket, val)]) ∨
      (readNode shared tmp ticket).1.delivered = shared.delivered ∧
        (readNode shared tmp ticket).2 = .goto .fault := by
  unfold readNode
  split
  · exact .inr ⟨rfl, rfl⟩
  · exact .inl ⟨_, rfl⟩

/-- What a step inside a call adds to the records. -/
theorem Pc.run_grows {variant : Variant} {pc : Pc} {shared after : Shared} {outcome : Outcome}
    (ran : pc.run variant shared = some (after, outcome)) :
    shared.added <+: after.added ∧ shared.taken <+: after.taken ∧
      shared.delivered <+: after.delivered := by
  cases pc with
  | addLock new val =>
    obtain ⟨taken, ends⟩ := queueAdd_cases variant shared new val
    have delivered := queueAdd_delivered variant shared new val
    rw [Option.some.inj ran] at taken ends delivered
    rw [taken, delivered]
    refine ⟨?_, List.prefix_rfl, List.prefix_rfl⟩
    rcases ends with ⟨added, -⟩ | ⟨added, -⟩
    · rw [added]
      exact List.prefix_append _ _
    · rw [added]
  | getLock =>
    obtain ⟨added, ends⟩ := queueGet_cases shared
    have delivered := queueGet_delivered shared
    rw [Option.some.inj ran] at added ends delivered
    rw [added, delivered]
    refine ⟨List.prefix_rfl, ?_, List.prefix_rfl⟩
    rcases ends with ⟨val, tmp, taken, -⟩ | ⟨taken, -⟩
    · rw [taken]
      exact List.prefix_append _ _
    · rw [taken]
  | getRead tmp ticket =>
    obtain ⟨added, taken, -⟩ := readNode_cases shared tmp ticket
    have ends := readNode_delivered shared tmp ticket
    rw [Option.some.inj ran] at added taken ends
    rw [added, taken]
    refine ⟨List.prefix_rfl, List.prefix_rfl, ?_⟩
    rcases ends with ⟨val, delivered⟩ | ⟨delivered, -⟩
    · rw [delivered]
      exact List.prefix_append _ _
    · rw [delivered]
  | addFree | getFree =>
    obtain ⟨added, taken, delivered, -⟩ := freeNode_returns (Option.some.inj ran)
    rw [added, taken, delivered]
    exact ⟨List.prefix_rfl, List.prefix_rfl, List.prefix_rfl⟩
  | idle | malloc | fault | aborted => simp [Pc.run] at ran

/-- What a step adds to the records. -/
theorem Moves.grows {variant : Variant} {client : Client κ} {shared after : Shared} {state : κ}
    {pc : Pc} {event : Event} {moved : Locals κ}
    (move : Moves variant client shared state pc event after moved) :
    shared.added <+: after.added ∧ shared.taken <+: after.taken ∧
      shared.delivered <+: after.delivered := by
  cases move with
  | call | malloc => exact ⟨List.prefix_rfl, List.prefix_rfl, List.prefix_rfl⟩
  | run pc after outcome ran => exact Pc.run_grows ran

/-- A step outside the locked sections brings the next one closer. -/
theorem Moves.nears {variant : Variant} {client : Client κ} {shared after : Shared} {state : κ}
    {pc : Pc} {event : Event} {moved : Locals κ}
    (move : Moves variant client shared state pc event after moved) (outside : pc.locks = false) :
    moved.pc.left < pc.left := by
  cases move with
  | call call => cases call <;> simp [Call.enter, Pc.left]
  | malloc => simp [Pc.left]
  | run pc after outcome ran =>
    rw [client.continue_pc]
    cases pc with
    | getRead tmp ticket =>
      obtain ⟨-, -, ends⟩ := readNode_cases shared tmp ticket
      have same : (readNode shared tmp ticket).2 = outcome :=
        congrArg Prod.snd (Option.some.inj ran)
      rw [same] at ends
      rcases ends with ⟨val, rfl⟩ | rfl
      · simp [Outcome.pc, Pc.left]
      · simp [Outcome.pc, Pc.left]
    | addFree | getFree =>
      obtain ⟨-, -, -, idle | fault⟩ := freeNode_returns (Option.some.inj ran)
      · simp [idle, Pc.left]
      · simp [fault, Pc.left]
    | addLock | getLock => cases outside
    | idle | malloc | fault | aborted => simp [Pc.run] at ran

/-- `queue_get` finds nothing only in an empty queue. -/
theorem queueGet_empty {shared : Shared} (ends : (queueGet shared).2 = .returned .empty) :
    shared.queue.count = 0 := by
  by_contra some'
  unfold queueGet at ends
  by_cases sane : shared.queue.count ≥ 0
  · simp only [sane, some', not_true_eq_false, if_false] at ends
    split at ends
    · cases ends
    · cases ends
  · simp [sane] at ends

/-- `queue_add` refuses a value only when the queue is full. -/
theorem queueAdd_refused {variant : Variant} {shared : Shared} {new : Ptr} {val : Int32}
    (ends : (queueAdd variant shared new val).2 = .returned .full ∨
      (queueAdd variant shared new val).2 = .goto (.addFree new)) :
    shared.queue.count = shared.queue.maxCount := by
  by_contra room
  unfold queueAdd at ends
  by_cases sane : shared.queue.count ≤ shared.queue.maxCount
  · simp only [sane, room, not_true_eq_false, if_false] at ends
    split at ends
    · simp at ends
    · simp at ends
  · simp [sane] at ends

/-- The locked section of `queue_get` takes a value out of a queue that is not empty. -/
theorem Moves.takes {variant : Variant} {client : Client κ} {shared after : Shared} {state : κ}
    {event : Event} {moved : Locals κ}
    (move : Moves variant client shared state .getLock event after moved)
    (faultless : moved.pc ≠ .fault) (asserts : moved.pc ≠ .aborted)
    (some' : shared.queue.count ≠ 0) : after.taken.length = shared.taken.length + 1 := by
  cases move with
  | run _ after outcome ran =>
    obtain ⟨-, ends⟩ := queueGet_cases shared
    have section' : queueGet shared = (after, outcome) := Option.some.inj ran
    rw [client.continue_pc] at faultless asserts
    rcases ends with ⟨val, tmp, taken, -⟩ | ⟨-, empty | fault | aborted⟩
    · rw [section'] at taken
      exact (congrArg List.length taken).trans List.length_append
    · exact absurd (queueGet_empty empty) some'
    · rw [section'] at fault
      exact absurd (congrArg Outcome.pc fault) faultless
    · rw [section'] at aborted
      exact absurd (congrArg Outcome.pc aborted) asserts

/-- The locked section of `queue_add` puts the value into a queue that is not full. -/
theorem Moves.adds {variant : Variant} {client : Client κ} {shared after : Shared} {state : κ}
    {event : Event} {moved : Locals κ} {new : Ptr} {val : Int32}
    (move : Moves variant client shared state (.addLock new val) event after moved)
    (faultless : moved.pc ≠ .fault) (asserts : moved.pc ≠ .aborted)
    (room : shared.queue.count ≠ shared.queue.maxCount) :
    after.added.length = shared.added.length + 1 := by
  cases move with
  | run _ after outcome ran =>
    obtain ⟨-, ends⟩ := queueAdd_cases variant shared new val
    have section' : queueAdd variant shared new val = (after, outcome) := Option.some.inj ran
    rw [client.continue_pc] at faultless asserts
    rcases ends with ⟨added, -⟩ | ⟨-, full | full | fault | aborted⟩
    · rw [section'] at added
      exact (congrArg List.length added).trans List.length_append
    · exact absurd (queueAdd_refused (.inl full)) room
    · exact absurd (queueAdd_refused (.inr full)) room
    · rw [section'] at fault
      exact absurd (congrArg Outcome.pc fault) faultless
    · rw [section'] at aborted
      exact absurd (congrArg Outcome.pc aborted) asserts

/-- A number taken is one taken before, and if the thread was about to read its node the value has
now been handed out, or the thread is about to read its node. -/
theorem Moves.hands {variant : Variant} {client : Client κ} {shared after : Shared} {state : κ}
    {pc : Pc} {event : Event} {moved : Locals κ}
    (move : Moves variant client shared state pc event after moved) (faultless : moved.pc ≠ .fault)
    {k : Nat} (inside : k < after.taken.length) :
    (k < shared.taken.length ∧ ∀ tmp, pc = .getRead tmp k → ∃ val, (k, val) ∈ after.delivered) ∨
      ∃ tmp, moved.pc = .getRead tmp k := by
  cases move with
  | call | malloc => exact .inl ⟨inside, by simp⟩
  | run pc after outcome ran =>
    rw [client.continue_pc] at faultless ⊢
    cases pc with
    | addLock new val =>
      have taken := (queueAdd_cases variant shared new val).1
      rw [Option.some.inj ran] at taken
      exact .inl ⟨taken ▸ inside, by simp⟩
    | getLock =>
      obtain ⟨-, ends⟩ := queueGet_cases shared
      rw [Option.some.inj ran] at ends
      simp only at ends
      rcases ends with ⟨val, tmp, taken, place⟩ | ⟨taken, -⟩
      · simp only [taken, List.length_append, List.length_singleton] at inside
        by_cases last : k = shared.taken.length
        · right
          rw [place, last]
          exact ⟨tmp, rfl⟩
        · exact .inl ⟨by omega, by simp⟩
      · exact .inl ⟨taken ▸ inside, by simp⟩
    | getRead tmp ticket =>
      have taken := (readNode_cases shared tmp ticket).2.1
      have ends := readNode_delivered shared tmp ticket
      rw [Option.some.inj ran] at taken ends
      refine .inl ⟨taken ▸ inside, ?_⟩
      rintro _ ⟨⟩
      rcases ends with ⟨val, delivered⟩ | ⟨-, fault⟩
      · exact ⟨val, delivered ▸ List.mem_append_right _ (List.mem_singleton.mpr rfl)⟩
      · exact absurd (congrArg Outcome.pc fault) faultless
    | addFree | getFree =>
      obtain ⟨-, taken, -⟩ := freeNode_returns (Option.some.inj ran)
      exact .inl ⟨taken ▸ inside, by simp⟩
    | idle | malloc | fault | aborted => simp [Pc.run] at ran

/-- A step of a thread that calls the queue for ever leaves it in calls of its kind. -/
theorem Moves.repeats {variant : Variant} {client : Client κ} {shared after : Shared} {state : κ}
    {pc : Pc} {event : Event} {moved : Locals κ} {calls : Call → Prop} {states : κ → Prop}
    (move : Moves variant client shared state pc event after moved)
    (repeats : client.Repeats calls states) (held : states state) (serves : pc.Serves calls) :
    states moved.client ∧ moved.pc.Serves calls := by
  cases move with
  | call call allowed =>
    have kind := repeats.only state call held allowed
    cases call with
    | add val => exact ⟨held, kind⟩
    | get => exact ⟨held, kind⟩
  | malloc => exact ⟨held, serves⟩
  | run pc after outcome ran =>
    constructor
    · cases outcome with
      | goto => exact held
      | returned result => exact repeats.again state result held
    · rw [client.continue_pc]
      cases pc with
      | addLock new val =>
        obtain ⟨-, ends⟩ := queueAdd_cases variant shared new val
        rw [Option.some.inj ran] at ends
        rcases ends with ⟨-, rfl⟩ | ⟨-, rfl | rfl | rfl | rfl⟩
        · trivial
        · trivial
        · exact ⟨val, serves⟩
        · trivial
        · trivial
      | getLock =>
        obtain ⟨-, ends⟩ := queueGet_cases shared
        rw [Option.some.inj ran] at ends
        rcases ends with ⟨val, tmp, -, rfl⟩ | ⟨-, rfl | rfl | rfl⟩
        · exact serves
        · trivial
        · trivial
        · trivial
      | getRead tmp ticket =>
        obtain ⟨-, -, ends⟩ := readNode_cases shared tmp ticket
        rw [Option.some.inj ran] at ends
        rcases ends with ⟨val, rfl⟩ | rfl
        · exact serves
        · trivial
      | addFree | getFree =>
        obtain ⟨-, -, -, idle | fault⟩ := freeNode_returns (Option.some.inj ran)
        · rw [idle]
          trivial
        · rw [fault]
          trivial
      | idle | malloc | fault | aborted => simp [Pc.run] at ran

variable [DecidableEq ι]

/-- Every value taken has been handed out or is about to be. -/
def Process.Handed (process : Process ι κ) : Prop :=
  ∀ k < process.shared.taken.length, (∃ val, (k, val) ∈ process.shared.delivered) ∨
    ∃ i tmp, (process.thread i).pc = .getRead tmp k

/-- In every state of every run it has been or is about to be. -/
theorem Process.handed_run {variant : Variant} {client : Client κ} {maxCount : Int}
    (capacity : 0 ≤ maxCount) {initial : ι → κ} {labels : List (ι × Event)} {process : Process ι κ}
    (run : exec (next variant client) (.start maxCount initial) labels = some process) :
    process.Handed := by
  refine exec_induct (motive := fun _ process => process.Handed) ?_ ?_ run
  · intro k inside
    simp [start] at inside
  intro labels before label after earlier handed taken k inside
  obtain ⟨own, others⟩ := next_eq_some.mp taken
  have move := moves_of_step own
  have faultless := (fifo_run capacity (exec_snoc.mpr ⟨before, earlier, taken⟩)).faultless
  rcases move.hands (faultless label.1) inside with ⟨old, read⟩ | reading
  · rcases handed k old with ⟨val, given⟩ | ⟨i, tmp, place⟩
    · exact .inl ⟨val, move.grows.2.2.subset given⟩
    · by_cases mine : i = label.1
      · exact .inl (read tmp (mine ▸ place))
      · exact .inr ⟨i, tmp, by rw [others i mine, place]⟩
  · exact .inr ⟨label.1, reading⟩

/-- A thread that calls the queue for ever stays in calls of its kind. -/
theorem Client.Repeats.run {variant : Variant} {client : Client κ} {maxCount : Int}
    {calls : Call → Prop} {states : κ → Prop} (repeats : client.Repeats calls states)
    {initial : ι → κ} {i : ι} (begins : states (initial i)) {labels : List (ι × Event)}
    {process : Process ι κ}
    (run : exec (Locked.next variant client) (.start maxCount initial) labels = some process) :
    states (process.thread i).client ∧ (process.thread i).pc.Serves calls := by
  refine exec_induct (motive := fun _ (process : Process ι κ) =>
    states (process.thread i).client ∧ (process.thread i).pc.Serves calls) ?_ ?_ run
  · exact ⟨begins, trivial⟩
  intro labels before label after _ held taken
  obtain ⟨own, others⟩ := next_eq_some.mp taken
  by_cases mine : i = label.1
  · subst mine
    exact (moves_of_step own).repeats repeats held.1 held.2
  · rw [others i mine]
    exact held

/-- In a list of pairs with different keys a pair is the only one of its key. -/
theorem filter_key_eq {given : List (Nat × Int32)} (once : (given.map Prod.fst).Nodup) {k : Nat}
    {val : Int32} (member : (k, val) ∈ given) : given.filter (·.1 = k) = [(k, val)] := by
  induction given with
  | nil => cases member
  | cons pair rest ih =>
    rw [List.map_cons, List.nodup_cons] at once
    rcases List.mem_cons.mp member with rfl | later
    · have others : rest.filter (·.1 = k) = [] := by
        rw [List.filter_eq_nil_iff]
        intro other inside same
        exact once.1 (List.mem_map.mpr ⟨other, inside, of_decide_eq_true same⟩)
      rw [List.filter_cons_of_pos (by simp), others]
    · have apart : pair.1 ≠ k := by
        rintro rfl
        exact once.1 (List.mem_map.mpr ⟨_, later, rfl⟩)
      rw [List.filter_cons_of_neg (by simpa using apart), ih once.2 later]

section Fair

variable {variant : Variant} {client : Client κ} {maxCount : Int} {initial : ι → κ} {i : ι}
  {calls : Call → Prop} {states : κ → Prop} {n m : Nat}
  {execution : Execution (step variant client) (Process.start maxCount initial)}

/-- A thread that calls the queue for ever can always take a step. -/
theorem Client.Repeats.enabled (repeats : client.Repeats calls states) (capacity : 0 ≤ maxCount)
    (begins : states (initial i)) (n : Nat) :
    Enabled (step variant client) (fun _ _ => True) i (execution.state n) := by
  obtain ⟨labels, run⟩ := execution.reached n
  have fifo := Process.fifo_run capacity run
  have faultless := fifo.faultless i
  have asserts := fifo.asserts i
  have held := (repeats.run begins run).1
  unfold Enabled
  generalize (execution.state n).thread i = mine at faultless asserts held
  obtain ⟨state, pc⟩ := mine
  cases pc with
  | idle =>
    obtain ⟨call, allowed⟩ := repeats.next state held
    exact ⟨.call call, _, trivial, if_pos allowed⟩
  | malloc val =>
    obtain ⟨p, unused⟩ := (execution.state n).shared.heap.exists_unused
    exact ⟨.malloc p, _, trivial, if_pos unused⟩
  | addLock | addFree | getLock | getRead | getFree => exact ⟨.go, _, trivial, rfl⟩
  | fault => exact absurd rfl faultless
  | aborted => exact absurd rfl asserts

/-- After every moment such a thread enters a locked section. -/
theorem Client.Repeats.locks (repeats : client.Repeats calls states) (capacity : 0 ≤ maxCount)
    (begins : states (initial i)) (fair : execution.Fair fun _ _ => True) (n : Nat) :
    ∃ m, n ≤ m ∧ ((execution.state m).thread i).pc.locks = true ∧
      ∃ event, execution.label m = some (i, event) := by
  induction left : ((execution.state n).thread i).pc.left using Nat.strong_induction_on
    generalizing n with
  | _ left ih =>
    obtain ⟨m, later, same, event, moved⟩ := fair.leads i
      (fun process => process.thread i = (execution.state n).thread i) rfl
      (fun m _ _ => repeats.enabled capacity begins m)
      fun m j event _ same other moved => (execution.thread_at moved other.symm).trans same
    cases inside : ((execution.state m).thread i).pc.locks with
    | true => exact ⟨m, later, inside, event, moved⟩
    | false =>
      have nears := (moves_of_step (execution.own_step moved)).nears inside
      rw [same, left] at nears
      obtain ⟨k, after, locked⟩ := ih _ nears (m + 1) rfl
      exact ⟨k, by omega, locked⟩

/-- The records only grow. -/
theorem records_grow
    (execution : Execution (step variant client) (Process.start maxCount initial)) (later : n ≤ m) :
    (execution.state n).shared.added <+: (execution.state m).shared.added ∧
      (execution.state n).shared.taken <+: (execution.state m).shared.taken ∧
      (execution.state n).shared.delivered <+: (execution.state m).shared.delivered := by
  refine execution.kept_from (fun process =>
    (execution.state n).shared.added <+: process.shared.added ∧
      (execution.state n).shared.taken <+: process.shared.taken ∧
      (execution.state n).shared.delivered <+: process.shared.delivered)
    ⟨List.prefix_rfl, List.prefix_rfl, List.prefix_rfl⟩ ?_ later
  intro m j event _ ⟨added, taken, delivered⟩ moved
  obtain ⟨more, further, again⟩ := (moves_of_step (execution.own_step moved)).grows
  exact ⟨added.trans more, taken.trans further, delivered.trans again⟩

/-- If a thread gets for ever, what has been added is taken. -/
theorem taken_again (repeats : client.Repeats (· = .get) states) (capacity : 0 ≤ maxCount)
    (begins : states (initial i)) (fair : execution.Fair fun _ _ => True) {k : Nat}
    (inside : k < (execution.state n).shared.added.length) :
    ∃ m, n ≤ m ∧ k < (execution.state m).shared.taken.length := by
  by_contra never
  have behind : ∀ m, n ≤ m → (execution.state m).shared.taken.length ≤ k := by
    intro m later
    have unseen := not_exists.mp never m
    omega
  obtain ⟨l, later, settled⟩ := settles_nat
    (fun m => k - (execution.state m).shared.taken.length) n fun m _ => by
      have grows := (records_grow execution (Nat.le_add_right m 1)).2.1.length_le
      omega
  obtain ⟨m, after, locked, event, moved⟩ := repeats.locks capacity begins fair l
  obtain ⟨labels, run⟩ := execution.reached m
  obtain ⟨further, run'⟩ := execution.reached (m + 1)
  obtain ⟨ghost, sound, -⟩ := Process.sound_run capacity run
  have serves := (repeats.run begins run).2
  have fifo := Process.fifo_run capacity run'
  have more := (records_grow execution (show n ≤ m by omega)).1.length_le
  have some' : (execution.state m).shared.queue.count ≠ 0 := by
    have balance := (Process.fifo_run capacity run).balance
    have adds := sound.adds
    have gets := sound.gets
    have early := behind m (by omega)
    omega
  have move := moves_of_step (execution.own_step moved)
  have place : ((execution.state m).thread i).pc = .getLock := by
    generalize ((execution.state m).thread i).pc = pc at locked serves
    cases pc with
    | getLock => rfl
    | addLock => cases serves
    | idle | malloc | addFree | getRead | getFree | fault | aborted => cases locked
  rw [place] at move
  have takes := move.takes (fifo.faultless i) (fifo.asserts i) some'
  have now := settled m after
  have next := settled (m + 1) (by omega)
  have here := behind m (by omega)
  have there := behind (m + 1) (by omega)
  omega

/-- A value taken is handed out. -/
theorem delivered_again (capacity : 0 ≤ maxCount) (fair : execution.Fair fun _ _ => True) {k : Nat}
    (inside : k < (execution.state n).shared.taken.length) :
    ∃ m val, n ≤ m ∧ (k, val) ∈ (execution.state m).shared.delivered := by
  obtain ⟨labels, run⟩ := execution.reached n
  rcases Process.handed_run capacity run k inside with ⟨val, given⟩ | ⟨j, tmp, place⟩
  · exact ⟨n, val, Nat.le_refl n, given⟩
  obtain ⟨m, later, here, event, moved⟩ := fair.leads j
    (fun process => (process.thread j).pc = .getRead tmp k) place
    (by
      intro m _ here
      unfold Enabled
      generalize (execution.state m).thread j = mine at here
      obtain ⟨state, pc⟩ := mine
      subst here
      exact ⟨.go, _, trivial, rfl⟩)
    (by
      intro m i event _ here other moved
      rw [execution.thread_at moved other.symm]
      exact here)
  obtain ⟨further, run'⟩ := execution.reached (m + 1)
  have faultless := (Process.fifo_run capacity run').faultless j
  have move := moves_of_step (execution.own_step moved)
  have grows := (records_grow execution (show n ≤ m + 1 by omega)).2.1.length_le
  have still : k < (execution.state (m + 1)).shared.taken.length := by omega
  rcases move.hands faultless still with ⟨-, read⟩ | ⟨other, reading⟩
  · obtain ⟨val, given⟩ := read tmp here
    exact ⟨m + 1, val, by omega, given⟩
  · have nears := move.nears (by rw [here]; rfl)
    rw [reading, here] at nears
    exact absurd nears (Nat.lt_irrefl _)

/-- If one thread adds and another gets for ever, more values are added. -/
theorem added_again {writing reading : κ → Prop} {w r : ι}
    (adds : client.Repeats (· ≠ .get) writing) (gets : client.Repeats (· = .get) reading)
    (positive : 1 ≤ maxCount) (writes : writing (initial w)) (reads : reading (initial r))
    (fair : execution.Fair fun _ _ => True) (n : Nat) :
    ∃ m, n ≤ m ∧
      (execution.state n).shared.added.length < (execution.state m).shared.added.length := by
  have capacity : 0 ≤ maxCount := by omega
  by_contra never
  have still : ∀ m, n ≤ m → (execution.state m).shared.added.length =
      (execution.state n).shared.added.length := by
    intro m later
    have unseen := not_exists.mp never m
    have grows := (records_grow execution later).1.length_le
    omega
  obtain ⟨l, later, emptied⟩ : ∃ l, n ≤ l ∧
      (execution.state n).shared.added.length ≤ (execution.state l).shared.taken.length := by
    by_cases some' : 0 < (execution.state n).shared.added.length
    · obtain ⟨l, later, taken⟩ := taken_again (n := n) gets capacity reads fair
        (Nat.sub_lt some' Nat.zero_lt_one)
      exact ⟨l, later, by omega⟩
    · exact ⟨n, Nat.le_refl n, by omega⟩
  obtain ⟨m, after, locked, event, moved⟩ := adds.locks capacity writes fair l
  obtain ⟨labels, run⟩ := execution.reached m
  obtain ⟨further, run'⟩ := execution.reached (m + 1)
  obtain ⟨ghost, sound, -⟩ := Process.sound_run capacity run
  have serves := (adds.run writes run).2
  have fifo := Process.fifo_run capacity run'
  have room : (execution.state m).shared.queue.count ≠
      (execution.state m).shared.queue.maxCount := by
    have balance := (Process.fifo_run capacity run).balance
    have adds := sound.adds
    have gets := sound.gets
    have limit := sound.capacity
    have same := still m (by omega)
    have grows := (records_grow execution after).2.1.length_le
    omega
  have move := moves_of_step (execution.own_step moved)
  obtain ⟨new, val, place⟩ : ∃ new val, ((execution.state m).thread w).pc = .addLock new val := by
    generalize ((execution.state m).thread w).pc = pc at locked serves
    cases pc with
    | addLock new val => exact ⟨new, val, rfl⟩
    | getLock => exact absurd rfl serves
    | idle | malloc | addFree | getRead | getFree | fault | aborted => cases locked
  rw [place] at move
  have more := move.adds (fifo.faultless w) (fifo.asserts w) room
  have now := still m (by omega)
  have next := still (m + 1) (by omega)
  omega

/-- For each variant, every capacity of at least one, any number of threads and any client: if one
thread keeps calling `queue_add` and one keeps calling `queue_get`, then in every fair execution
and for every number there is a value that is added under this number, and from some moment on it
has been handed out exactly once. -/
theorem values_handed_out {writing reading : κ → Prop} {w r : ι}
    (adds : client.Repeats (· ≠ .get) writing) (gets : client.Repeats (· = .get) reading)
    (positive : 1 ≤ maxCount) (writes : writing (initial w)) (reads : reading (initial r))
    (fair : execution.Fair fun _ _ => True) (k : Nat) :
    ∃ val n, ∀ m, n ≤ m → (execution.state m).shared.added[k]? = some val ∧
      (execution.state m).shared.delivered.filter (·.1 = k) = [(k, val)] := by
  have capacity : 0 ≤ maxCount := by omega
  obtain ⟨n, enough⟩ : ∃ n, k < (execution.state n).shared.added.length := by
    induction k with
    | zero =>
      obtain ⟨m, -, more⟩ := added_again adds gets positive writes reads fair 0
      exact ⟨m, by omega⟩
    | succ k ih =>
      obtain ⟨n, enough⟩ := ih
      obtain ⟨m, -, more⟩ := added_again adds gets positive writes reads fair n
      exact ⟨m, by omega⟩
  obtain ⟨l, -, taken⟩ := taken_again gets capacity reads fair enough
  obtain ⟨m, val, -, given⟩ := delivered_again capacity fair taken
  refine ⟨val, m, fun m' later => ?_⟩
  obtain ⟨labels, run⟩ := execution.reached m'
  have fifo := Process.fifo_run capacity run
  have member := (records_grow execution later).2.2.subset given
  refine ⟨taken_kept fifo.inOrder (fifo.delivered _ member), ?_⟩
  exact filter_key_eq fifo.once member

end Fair

/-- The writer adds for ever. -/
theorem writer_repeats : workers.Repeats (· ≠ .get) (fun state => ∃ i, state = .writer i) where
  next := by
    rintro _ ⟨i, rfl⟩
    exact ⟨.add i, decide_eq_true rfl⟩
  only := by
    rintro _ call ⟨i, rfl⟩ allowed rfl
    cases allowed
  again := by
    rintro _ result ⟨i, rfl⟩
    cases result with
    | added => exact ⟨i + 1, rfl⟩
    | full | got | empty => exact ⟨i, rfl⟩

/-- The reader gets for ever. -/
theorem reader_repeats :
    workers.Repeats (· = .get) fun state => ∃ expected errors, state = .reader expected errors where
  next := by
    rintro _ ⟨expected, errors, rfl⟩
    exact ⟨.get, rfl⟩
  only := by
    rintro _ call ⟨expected, errors, rfl⟩ allowed
    cases call with
    | get => rfl
    | add => cases allowed
  again := by
    rintro _ result ⟨expected, errors, rfl⟩
    cases result with
    | got val => exact ⟨_, _, rfl⟩
    | added | full | empty => exact ⟨expected, errors, rfl⟩

/-- There is a fair execution of the writer and the reader on the mutex queue of capacity one, and
the value added under the number 1000 is handed out once in it. -/
theorem values_handed_out_workers :
    ∃ execution : Execution (step .mutex workers)
        (Process.start 1 fun i : Fin 2 => if i = 0 then Worker.writer 0 else .reader 0 0),
      execution.Fair (fun _ _ => True) ∧
        ∃ val n, ∀ m, n ≤ m → (execution.state m).shared.added[1000]? = some val ∧
          (execution.state m).shared.delivered.filter (·.1 = 1000) = [(1000, val)] := by
  have fair : (Execution.schedule (step .mutex workers) (fun _ _ => True)
      (Process.start 1 fun i : Fin 2 => if i = 0 then Worker.writer 0 else .reader 0 0)).Fair
        fun _ _ => True :=
    Execution.schedule_stronglyFair.fair
  exact ⟨_, fair, values_handed_out (w := (0 : Fin 2)) (r := 1) writer_repeats reader_repeats
    (by decide) ⟨0, rfl⟩ ⟨0, 0, rfl⟩ fair 1000⟩

end NsuOs.Queues.Locked
