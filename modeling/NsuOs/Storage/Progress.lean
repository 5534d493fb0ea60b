import NsuOs.Base.Fairness
import NsuOs.Storage.SwapCounts

/-!
# Passes come to an end

A pass of a search or a walk of `random_swap` goes along the list, so each of its steps leaves fewer
steps to the end. A thread that has to wait for a lock waits for one that is further on. In a fair
execution the passes of all threads together therefore never stop, and from every state the others
can let any chosen thread finish its pass. Which thread gets on is not promised: one that finds a
lock free only now and then may be passed over again and again.
-/
namespace NsuOs.Storage

open NsuOs.Run NsuOs.Threads

variable {ι : Type*} {first : Ptr} {heap : Heap Node} {nodes : List Ptr} {program : Program}

/-- The number of nodes from a node on, it included. -/
def behind (nodes : List Ptr) (p : Ptr) : Nat := nodes.length - nodes.idxOf p

/-- A node is followed by as many nodes as the rest of the list has. -/
theorem Linked.behind_eq (linked : Linked first heap nodes) {p : Ptr} {rest : List Ptr}
    (suffix : p :: rest <:+ nodes) : behind nodes p = rest.length + 1 := by
  have place := idxOf_suffix linked.chain.nodup suffix
  unfold behind
  omega

/-- All nodes are from the first one on. -/
theorem behind_first {second : Ptr} {rest : List Ptr} (whole : nodes = first :: second :: rest) :
    behind nodes first = nodes.length := by
  simp [behind, whole]

/-- A bound for the steps of a search up to the next increment of its counter. -/
def Finder.ahead (nodes : List Ptr) (finder : Finder) : Nat :=
  match finder.pc with
  | .start => 7 * nodes.length + 4
  | .lockNode => 7 * behind nodes finder.node + 3
  | .readNext => 7 * behind nodes finder.node + 2
  | .lockNext => 7 * behind nodes finder.node + 1
  | .compare => 7 * behind nodes finder.node
  | .unlockNext => 7 * behind nodes finder.node + 5
  | .unlockTmp => 7 * behind nodes finder.node + 4
  | .unlockLast => 1
  | .increment | .fault => 0

/-- A bound for the steps of `random_swap` up to the next increment of its counter. -/
def Swapper.ahead (nodes : List Ptr) (swapper : Swapper) : Nat :=
  match swapper.pc with
  | .start => 11 * nodes.length + 11
  | .test => 11 * behind nodes swapper.prev + 10
  | .lockPrev => 11 * behind nodes swapper.prev + 9
  | .checkNext => 11 * behind nodes swapper.prev + 8
  | .lockCurrent => 11 * behind nodes swapper.prev + 7
  | .checkFuture => 11 * behind nodes swapper.prev + 6
  | .lockFuture => 11 * behind nodes swapper.prev + 5
  | .advance => 11 * behind nodes swapper.prev + 4
  | .unlockFuture => 11 * behind nodes swapper.prev + 13
  | .unlockCurrent => 11 * behind nodes swapper.prev + 12
  | .unlockNode => 11 * behind nodes swapper.prev + 11
  | .leaveCurrent => 2
  | .leavePrev => 1
  | .increment | .fault => 0

/-- A bound for the steps of a thread up to the next increment of its counter. -/
def Thread.ahead (nodes : List Ptr) : Thread → Nat
  | .finder _ locals => locals.ahead nodes
  | .swapper locals => locals.ahead nodes

/-- A step of a search brings it closer to the end of its pass. -/
theorem Seek.nears {search : Search} {finder onward : Finder} {effect : Effect}
    (linked : Linked first heap nodes) (seek : Seek program heap nodes search finder effect onward)
    (passing : finder.pc ≠ .increment) : onward.ahead nodes < finder.ahead nodes := by
  cases seek with
  | begins whole =>
    simp only [Finder.ahead, behind_first whole]
    omega
  | compares window =>
    have here := linked.behind_eq window
    have there := linked.behind_eq ((List.suffix_cons _ _).trans window)
    simp only [Finder.ahead, here, there, List.length_cons]
    omega
  | counts => exact absurd rfl passing
  | _ =>
    simp only [Finder.ahead]
    omega

/-- A step of `random_swap` brings it closer to the end of its walk. -/
theorem Move.nears {swapper onward : Swapper} {effect : Effect}
    (linked : Linked first heap nodes) (move : Move nodes swapper effect onward)
    (passing : swapper.pc ≠ .increment) : onward.ahead nodes < swapper.ahead nodes := by
  cases move with
  | begins chosen whole =>
    simp only [Swapper.ahead, behind_first whole]
    omega
  | advances window =>
    have here := linked.behind_eq window
    have there := linked.behind_eq ((List.suffix_cons _ _).trans window)
    simp only [Swapper.ahead, here, there, List.length_cons]
    omega
  | counts => exact absurd rfl passing
  | _ =>
    simp only [Swapper.ahead]
    omega

section Steps

variable [DecidableEq ι] {me : ι} {shared after : Shared ι} {mine moved : Thread} {event : Event}

/-- A step of a thread brings it closer to the end of its pass. -/
theorem step_nears (linked : Linked first heap nodes) (steady : Steady first heap () shared)
    (own : Own nodes () me shared mine) (passing : mine.incrementing = false)
    (taken : step program me shared mine event = some (after, moved)) :
    moved.ahead nodes < mine.ahead nodes := by
  cases mine with
  | finder search finder =>
    cases event with
    | go =>
      obtain ⟨effect, onward, rfl, seek, -⟩ := find_seek linked steady own taken
      exact seek.nears linked (of_decide_eq_false passing)
    | index chosen => cases taken
  | swapper swapper =>
    obtain ⟨effect, onward, rfl, move, -⟩ := randomSwap_move linked steady own taken
    exact move.nears linked (of_decide_eq_false passing)

/-- The thread is at the head of its outer loop. -/
def Thread.resting : Thread → Bool
  | .finder _ locals => locals.pc = .start
  | .swapper locals => locals.pc = .start

/-- A thread that holds a lock is in a pass. -/
theorem Thread.not_resting {p : Ptr} (held : p ∈ mine.held) : mine.resting = false := by
  cases mine with
  | finder search finder =>
    by_contra rests
    have start : finder.pc = .start := by simpa [resting] using rests
    simp [Thread.held, Finder.held, start] at held
  | swapper swapper =>
    by_contra rests
    have start : swapper.pc = .start := by simpa [resting] using rests
    simp [Thread.held, Swapper.held, start] at held

/-- A thread that counts its pass comes back to the head of its outer loop. -/
theorem step_rests (counts : mine.incrementing = true)
    (taken : step program me shared mine event = some (after, moved)) :
    moved.resting = true := by
  cases mine with
  | finder search finder =>
    have place : finder.pc = .increment := of_decide_eq_true counts
    cases event with
    | go =>
      simp only [step, find, place, Option.some.injEq, Prod.mk.injEq] at taken
      obtain ⟨-, rfl⟩ := taken
      rfl
    | index chosen => cases taken
  | swapper swapper =>
    have place : swapper.pc = .increment := of_decide_eq_true counts
    cases event with
    | go =>
      simp only [step, randomSwap, place, Option.some.injEq, Prod.mk.injEq] at taken
      obtain ⟨-, rfl⟩ := taken
      rfl
    | index chosen => simp [step, randomSwap, place] at taken

/-- A lock that is granted lets the thread go on. -/
theorem lock_of_granted {access : Access} {p : Ptr} {onward : Thread}
    (granted : shared.locks.acquire access me p ≠ none) :
    ∃ after, shared.lock access me p onward = some after := by
  obtain ⟨locks, granted⟩ := Option.ne_none_iff_exists'.mp granted
  exact ⟨_, by rw [Shared.lock, granted]; rfl⟩

/-- A search with its pointers in place that is not at a lock refused to it can take a step. -/
theorem find_enabled {search : Search} {finder : Finder} (placed : finder.Placed nodes)
    (granted : ∀ p, finder.wants = some p →
      shared.locks.acquire program.finderAccess me p ≠ none) :
    ∃ after, find program search me shared finder = some after := by
  obtain ⟨pc, node, next, tmp, counter⟩ := finder
  cases pc with
  | fault => exact placed.elim
  | lockNode => exact lock_of_granted (granted node rfl)
  | lockNext => exact lock_of_granted (granted next rfl)
  | unlockNext | unlockTmp | unlockLast | increment => exact ⟨_, rfl⟩
  | start =>
    unfold find
    simp only
    split
    · exact ⟨_, rfl⟩
    · split
      · exact ⟨_, rfl⟩
      · split
        · exact ⟨_, rfl⟩
        · exact ⟨_, rfl⟩
  | readNext | compare =>
    unfold find
    simp only
    split
    · exact ⟨_, rfl⟩
    · exact ⟨_, rfl⟩

/-- So can `random_swap`. -/
theorem randomSwap_enabled {swapper : Swapper} (placed : swapper.Placed nodes)
    (granted : ∀ p, swapper.wants shared.heap = some p →
      shared.locks.acquire .write me p ≠ none) :
    ∃ event after, randomSwap me shared swapper event = some after := by
  obtain ⟨pc, prev, current, future, node, index, i⟩ := swapper
  cases pc with
  | fault => exact placed.elim
  | start =>
    refine ⟨.index 0, ?_⟩
    unfold randomSwap
    simp only
    split
    · exact ⟨_, rfl⟩
    · split
      · exact ⟨_, rfl⟩
      · split
        · exact ⟨_, rfl⟩
        · split
          · exact ⟨_, rfl⟩
          · exact ⟨_, rfl⟩
  | lockPrev => exact ⟨.go, lock_of_granted (granted prev rfl)⟩
  | lockCurrent =>
    refine ⟨.go, ?_⟩
    unfold randomSwap
    simp only
    split
    · exact ⟨_, rfl⟩
    · rename_i next link
      exact lock_of_granted (granted next link)
  | lockFuture =>
    refine ⟨.go, ?_⟩
    unfold randomSwap
    simp only
    split
    · exact ⟨_, rfl⟩
    · rename_i next link
      exact lock_of_granted (granted next link)
  | test | unlockNode | leavePrev | increment => exact ⟨.go, _, rfl⟩
  | checkNext | checkFuture | advance | unlockFuture | unlockCurrent | leaveCurrent =>
    refine ⟨.go, ?_⟩
    unfold randomSwap
    simp only
    split
    · exact ⟨_, rfl⟩
    · exact ⟨_, rfl⟩

end Steps

section Runs

variable [DecidableEq ι] {roles : ι → Role} {labels : List (ι × Event)} {process : Process ι}

/-- A thread that is not blocked can take a step. -/
theorem Process.enabled_of_unblocked {i : ι} (placed : (process.thread i).Placed nodes)
    (unblocked : ¬process.Blocked program i) :
    Enabled (step program) (fun _ _ => True) i process := by
  unfold Blocked at unblocked
  have granted : ∀ p, (process.thread i).wants process.shared.heap = some p →
      process.shared.locks.acquire ((process.thread i).access program) i p ≠ none :=
    fun p asks refused => unblocked ⟨p, asks, refused⟩
  unfold Enabled
  cases thread : process.thread i with
  | finder search finder =>
    rw [thread] at placed granted
    have access : ∀ p, finder.wants = some p →
        process.shared.locks.acquire program.finderAccess i p ≠ none := granted
    obtain ⟨after, taken⟩ := find_enabled placed access
    exact ⟨.go, after, trivial, taken⟩
  | swapper swapper =>
    rw [thread] at placed granted
    obtain ⟨event, after, taken⟩ := randomSwap_enabled placed granted
    exact ⟨event, after, trivial, taken⟩

/-- The passes of all threads that have been counted. -/
def Process.passes [Fintype ι] (process : Process ι) : Nat :=
  ∑ i, process.shared.countIncrement i

/-- A step counts one pass if the thread is at its increment, and none else. -/
theorem Process.passes_next [Fintype ι] {after : Process ι} {label : ι × Event}
    (taken : next program process label = some after) :
    after.passes = process.passes + if (process.thread label.1).incrementing then 1 else 0 := by
  unfold passes
  rw [Finset.sum_congr rfl fun t _ => (next_frame taken).count t, Finset.sum_add_distrib]
  congr 1
  cases (process.thread label.1).incrementing with
  | false => simp
  | true => simp

/-- A bound for the steps of all threads up to their next increments. -/
def Process.ahead [Fintype ι] (nodes : List Ptr) (process : Process ι) : Nat :=
  ∑ i, (process.thread i).ahead nodes

section Fair

variable [Fintype ι] [Nonempty ι]
  {execution : Execution (step program) (Process.start first heap roles)}

/-- In a fair execution a pass is counted after every moment. -/
theorem exists_pass (linked : Linked first heap nodes) (fair : execution.Fair fun _ _ => True)
    (n : Nat) :
    ∃ m, n ≤ m ∧ ∃ i event, execution.label m = some (i, event) ∧
      ((execution.state m).thread i).incrementing = true := by
  by_contra never
  have nears : ∀ m i event, n ≤ m → execution.label m = some (i, event) →
      Process.ahead nodes (execution.state (m + 1)) < Process.ahead nodes (execution.state m) := by
    intro m i event later moved
    have passing : ((execution.state m).thread i).incrementing = false := by
      by_contra counts
      exact never ⟨m, later, i, event, moved, by simpa using counts⟩
    obtain ⟨labels, run⟩ := execution.reached m
    obtain ⟨steady, threads⟩ := Process.own_run linked run
    have taken := execution.taken m i event moved
    have sums := sum_moved taken (Thread.ahead nodes)
    have closer := step_nears linked steady (threads i) passing (next_eq_some.mp taken).1
    unfold Process.ahead
    omega
  obtain ⟨k, later, settled⟩ := execution.settles (Process.ahead nodes) n
    fun m i event later moved => Nat.le_of_lt (nears m i event later moved)
  have quiet : ∀ m i event, k ≤ m → execution.label m ≠ some (i, event) := by
    intro m i event after moved
    have here := settled m after
    have next := settled (m + 1) (by omega)
    have less := nears m i event (by omega) moved
    omega
  have same : ∀ m, k ≤ m → execution.state m = execution.state k := by
    intro m after
    refine execution.kept_from (fun process => process = execution.state k) rfl ?_ after
    intro m i event after _ moved
    exact absurd moved (quiet m i event after)
  -- nobody moves any more, although not all threads are blocked
  obtain ⟨labels, run⟩ := execution.reached k
  obtain ⟨i, unblocked⟩ := not_forall.mp (Process.not_all_blocked linked run)
  have placed := ((Process.own_run linked run).2 i).placed
  obtain ⟨m, after, event, moved⟩ := fair i k fun m after => by
    rw [same m after]
    exact Process.enabled_of_unblocked placed unblocked
  exact quiet m i event after moved

/-- For each program, every list of at least two nodes and any number of threads of both kinds, in
every fair execution the number of passes and walks that were counted exceeds every bound. -/
theorem passes_unbounded (linked : Linked first heap nodes) (fair : execution.Fair fun _ _ => True)
    (bound : Nat) : ∃ n, bound ≤ Process.passes (execution.state n) := by
  induction bound with
  | zero => exact ⟨0, Nat.zero_le _⟩
  | succ bound ih =>
    obtain ⟨n, reached⟩ := ih
    obtain ⟨m, later, i, event, moved, counts⟩ := exists_pass linked fair n
    have grown : bound ≤ Process.passes (execution.state m) := by
      refine execution.kept_from (fun process => bound ≤ Process.passes process) reached ?_ later
      intro m i event _ reached moved
      have passes := Process.passes_next (execution.taken m i event moved)
      omega
    have passes := Process.passes_next (execution.taken m i event moved)
    rw [counts] at passes
    simp only [if_true] at passes
    exact ⟨m + 1, by omega⟩

end Fair

/-- The steps of a thread before another one can finish its pass: none if it is between passes. -/
def Thread.inWay (nodes : List Ptr) (mine : Thread) : Nat :=
  if mine.resting then 0 else mine.ahead nodes + 1

/-- A bound for the steps up to the increment of one thread, the others finishing their passes. -/
def Process.remaining [Fintype ι] (nodes : List Ptr) (i : ι) (process : Process ι) : Nat :=
  (process.thread i).ahead nodes + ∑ j ∈ {i}ᶜ, (process.thread j).inWay nodes

/-- A step of a thread that is in a pass, or of the one that is waited for, brings its increment
closer. -/
theorem Process.remaining_next [Fintype ι] {after : Process ι} {i j : ι} {event : Event}
    (linked : Linked first heap nodes) (steady : Steady first heap () process.shared)
    (own : Own nodes () j process.shared (process.thread j))
    (taken : next program process (j, event) = some after)
    (busy : j = i ∨ (process.thread j).resting = false)
    (passing : (process.thread i).incrementing = false) :
    after.remaining nodes i < process.remaining nodes i := by
  obtain ⟨mine, others⟩ := next_eq_some.mp taken
  unfold remaining
  by_cases same : j = i
  · subst same
    have closer := step_nears linked steady own passing mine
    have rest : ∑ k ∈ {j}ᶜ, (after.thread k).inWay nodes =
        ∑ k ∈ {j}ᶜ, (process.thread k).inWay nodes := by
      apply Finset.sum_congr rfl
      intro k outside
      rw [others k (by simpa using outside)]
    omega
  · have still := others i (Ne.symm same)
    have moving := busy.resolve_left same
    have closer : (after.thread j).inWay nodes < (process.thread j).inWay nodes := by
      unfold Thread.inWay
      rw [moving, if_neg Bool.false_ne_true]
      split
      · exact Nat.succ_pos _
      · rename_i goes
        cases counts : (process.thread j).incrementing with
        | true => exact absurd (step_rests counts mine) goes
        | false =>
          have nears := step_nears linked steady own counts mine
          omega
    have less : ∑ k ∈ {i}ᶜ, (after.thread k).inWay nodes <
        ∑ k ∈ {i}ᶜ, (process.thread k).inWay nodes := by
      apply Finset.sum_lt_sum
      · intro k outside
        by_cases moved : k = j
        · exact moved ▸ Nat.le_of_lt closer
        · rw [others k moved]
      · exact ⟨j, by simpa using same, closer⟩
    rw [still]
    omega

/-- Some thread that is in a pass, or the one that is waited for, is not blocked. -/
theorem Process.exists_busy (program : Program) (linked : Linked first heap nodes)
    (steady : Steady first heap () process.shared)
    (threads : ∀ j, Own nodes () j process.shared (process.thread j)) (i : ι) :
    ∃ j, (j = i ∨ (process.thread j).resting = false) ∧ ¬process.Blocked program j := by
  have bounded : ∀ key, nodes.idxOf key ≤ nodes.length := fun key => List.idxOf_le_length
  apply LockTable.exists_unblocked nodes.idxOf bounded
  · intro j p holds
    exact .inr (Thread.not_resting (((threads j).holds p).mp holds))
  · intro j held key holds asks
    rw [steady.heap] at asks
    have member := ((threads j).holds held).mp holds
    exact idxOf_lt linked.chain.nodup ((threads j).placed.wants linked asks) member
  · exact ⟨i, .inl rfl⟩

/-- While the assertions hold, the others can let a thread finish its pass. -/
theorem Process.finish_pass [Fintype ι] (linked : Linked first heap nodes) (i : ι)
    (holds : Holds (Steady first heap) (Own nodes) process) :
    ∃ more after, exec (next program) process more = some after ∧
      after.shared.countIncrement i = process.shared.countIncrement i + 1 := by
  induction bound : process.remaining nodes i using Nat.strong_induction_on
    generalizing process with
  | _ bound ih =>
    obtain ⟨_, steady, threads⟩ := holds
    cases counts : (process.thread i).incrementing with
    | true =>
      have unblocked : ¬process.Blocked program i := by
        rintro ⟨p, asks, -⟩
        cases thread : process.thread i with
        | finder search finder =>
          rw [thread] at counts asks
          have place : finder.pc = .increment := of_decide_eq_true counts
          simp [Thread.wants, Finder.wants, place] at asks
        | swapper swapper =>
          rw [thread] at counts asks
          have place : swapper.pc = .increment := of_decide_eq_true counts
          simp [Thread.wants, Swapper.wants, place] at asks
      obtain ⟨event, moved, -, taken⟩ := enabled_of_unblocked (threads i).placed unblocked
      have step : ∃ after, next program process (i, event) = some after :=
        ⟨_, by rw [next, Threads.next, taken]; rfl⟩
      obtain ⟨after, step⟩ := step
      refine ⟨[(i, event)], after, by rw [exec, step]; rfl, ?_⟩
      rw [(next_frame step).count i, counts]
      simp
    | false =>
      obtain ⟨j, busy, unblocked⟩ := exists_busy program linked steady threads i
      obtain ⟨event, moved, -, taken⟩ := enabled_of_unblocked (threads j).placed unblocked
      have step : ∃ after, next program process (j, event) = some after :=
        ⟨_, by rw [next, Threads.next, taken]; rfl⟩
      obtain ⟨after, step⟩ := step
      have nearer := remaining_next linked steady (threads j) step busy counts
      have kept := (own_stable linked).next ⟨(), steady, threads⟩ step
      obtain ⟨more, finish, run, count⟩ := ih (after.remaining nodes i) (bound ▸ nearer) kept rfl
      refine ⟨(j, event) :: more, finish, by rw [exec, step]; exact run, ?_⟩
      rw [count, (next_frame step).count i]
      by_cases same : j = i
      · subst same
        simp [counts]
      · simp [same]

/-- For each program, every list of at least two nodes, any number of threads of both kinds and
every state of every run: for each thread there is a continuation of the run after which that thread
has counted one more pass or walk. -/
theorem pass_possible [Fintype ι] (linked : Linked first heap nodes)
    (run : exec (next program) (.start first heap roles) labels = some process) (i : ι) :
    ∃ more after, exec (next program) process more = some after ∧
      after.shared.countIncrement i = process.shared.countIncrement i + 1 := by
  obtain ⟨steady, threads⟩ := Process.own_run linked run
  exact Process.finish_pass linked i ⟨(), steady, threads⟩

end Runs

/-- Where the search has reached the second node and `random_swap` waits for it, `random_swap` can
still finish its walk. -/
theorem pass_possible_crossing :
    ∃ process, exec (next .rwlock) (.start 1 threeNodes
        fun i : Fin 2 => if i = 0 then Role.find .increasing else .randomSwap) (crossing 0 1) =
          some process ∧
      process.Blocked .rwlock 1 ∧
      ∃ more after, exec (next .rwlock) process more = some after ∧
        after.shared.countIncrement 1 = process.shared.countIncrement 1 + 1 := by
  have outcome : (exec (next .rwlock) (.start 1 threeNodes
      fun i : Fin 2 => if i = 0 then Role.find .increasing else .randomSwap) (crossing 0 1)).map
        (fun process => decide ((process.thread 1).wants process.shared.heap = some 2 ∧
          (process.shared.locks.acquire ((process.thread 1).access .rwlock) 1 2).isNone = true)) =
        some true := by
    decide +kernel
  obtain ⟨process, run, stands⟩ := Option.map_eq_some_iff.mp outcome
  obtain ⟨wants, refused⟩ := of_decide_eq_true stands
  exact ⟨process, run, ⟨2, wants, Option.isNone_iff_eq_none.mp refused⟩,
    pass_possible linked_threeNodes run 1⟩

/-- There is a fair execution of a search and `random_swap` on three nodes, and it comes to a
hundred passes. -/
theorem passes_unbounded_pair :
    ∃ execution : Execution (step .rwlock) (Process.start 1 threeNodes
        fun i : Fin 2 => if i = 0 then Role.find .increasing else .randomSwap),
      execution.Fair (fun _ _ => True) ∧ ∃ n, 100 ≤ Process.passes (execution.state n) := by
  have fair : (Execution.schedule (step .rwlock) (fun _ _ => True) (Process.start 1 threeNodes
      fun i : Fin 2 => if i = 0 then Role.find .increasing else .randomSwap)).Fair
        fun _ _ => True := Execution.schedule_stronglyFair.fair
  exact ⟨_, fair, passes_unbounded linked_threeNodes fair 100⟩

end NsuOs.Storage
