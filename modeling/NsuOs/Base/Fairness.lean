import NsuOs.Base.Threads

/-!
# Fair executions of threads

An execution goes on forever: at every moment one thread takes a step, or none does. It is fair if
no thread that could take a step all the time from some moment on is passed over for good, and
strongly fair if this holds even for a thread that could take one only again and again. Steps that
the environment need not ever allow, such as a wake-up without a cause, are not owed to a thread.
`Fair.leads` follows one thread through a condition that only its own step can end, and
`Execution.settles` says that a measure which no step increases is constant from some moment on.
Strongly fair executions exist for finitely many threads: it is enough that the thread that has not
moved for the longest time goes first.
-/
namespace NsuOs.Threads

open NsuOs.Run

variable {ι σ τ ε : Type*} [DecidableEq ι]

/-- An infinite execution of threads from a state. -/
structure Execution (step : ι → σ → τ → ε → Option (σ × τ)) (start : State ι σ τ) where
  /-- The state before each step. -/
  state : Nat → State ι σ τ
  /-- The thread and the event of each step; `none` where nothing happens. -/
  label : Nat → Option (ι × ε)
  /-- The execution begins in the start state. -/
  initial : state 0 = start
  /-- Where nothing happens the state stays. -/
  idle : ∀ n, label n = none → state (n + 1) = state n
  /-- Everywhere else the thread takes its step. -/
  taken : ∀ n i event, label n = some (i, event) →
    next step (state n) (i, event) = some (state (n + 1))

/-- Thread `i` can take one of the steps it is owed. -/
def Enabled (step : ι → σ → τ → ε → Option (σ × τ)) (owed : ι → ε → Prop) (i : ι)
    (state : State ι σ τ) : Prop :=
  ∃ event after, owed i event ∧ step i state.shared (state.thread i) event = some after

/-- What falls from some moment on is constant from a later one on. -/
theorem settles_nat (measure : Nat → Nat) (n : Nat)
    (falls : ∀ m, n ≤ m → measure (m + 1) ≤ measure m) :
    ∃ k, n ≤ k ∧ ∀ m, k ≤ m → measure m = measure k := by
  have antitone : Antitone fun m => measure (n + m) :=
    antitone_nat_of_succ_le fun m => falls (n + m) (Nat.le_add_right n m)
  let chain : Nat →o Natᵒᵈ := ⟨fun m => OrderDual.toDual (measure (n + m)), antitone⟩
  obtain ⟨k, settled⟩ := WellFoundedGT.monotone_chain_condition chain
  refine ⟨n + k, Nat.le_add_right n k, fun m later => ?_⟩
  have same : measure (n + k) = measure (n + (m - n)) := settled (m - n) (by omega)
  have moment : n + (m - n) = m := by omega
  rw [same, moment]

namespace Execution

variable {step : ι → σ → τ → ε → Option (σ × τ)} {start : State ι σ τ} {owed : ι → ε → Prop}

/-- A thread that can take a step it is owed from some moment on takes a step. -/
def Fair (owed : ι → ε → Prop) (execution : Execution step start) : Prop :=
  ∀ i n, (∀ m, n ≤ m → Enabled step owed i (execution.state m)) →
    ∃ m, n ≤ m ∧ ∃ event, execution.label m = some (i, event)

/-- A thread that can take a step it is owed again and again takes one of them. -/
def StronglyFair (owed : ι → ε → Prop) (execution : Execution step start) : Prop :=
  ∀ i n, (∀ m, n ≤ m → ∃ k, m ≤ k ∧ Enabled step owed i (execution.state k)) →
    ∃ m, n ≤ m ∧ ∃ event, owed i event ∧ execution.label m = some (i, event)

/-- Every state of an execution is reached by a run. -/
theorem reached (execution : Execution step start) (n : Nat) :
    ∃ labels, exec (next step) start labels = some (execution.state n) := by
  induction n with
  | zero => exact ⟨[], by rw [execution.initial]; rfl⟩
  | succ n ih =>
    obtain ⟨labels, run⟩ := ih
    cases moved : execution.label n with
    | none =>
      rw [execution.idle n moved]
      exact ⟨labels, run⟩
    | some label =>
      obtain ⟨i, event⟩ := label
      exact ⟨labels ++ [(i, event)],
        exec_snoc.mpr ⟨execution.state n, run, execution.taken n i event moved⟩⟩

/-- What the thread that moves does. -/
theorem own_step (execution : Execution step start) {n : Nat} {i : ι} {event : ε}
    (moved : execution.label n = some (i, event)) :
    step i (execution.state n).shared ((execution.state n).thread i) event =
      some ((execution.state (n + 1)).shared, (execution.state (n + 1)).thread i) :=
  (next_eq_some.mp (execution.taken n i event moved)).1

/-- A thread that does not move stays where it is. -/
theorem thread_at (execution : Execution step start) {n : Nat} {i j : ι} {event : ε}
    (moved : execution.label n = some (i, event)) (other : j ≠ i) :
    (execution.state (n + 1)).thread j = (execution.state n).thread j :=
  (next_eq_some.mp (execution.taken n i event moved)).2 j other

/-- A condition that every step keeps from some moment on holds from then on. -/
theorem kept_from (execution : Execution step start) (condition : State ι σ τ → Prop) {n : Nat}
    (here : condition (execution.state n))
    (kept : ∀ m i event, n ≤ m → condition (execution.state m) →
      execution.label m = some (i, event) → condition (execution.state (m + 1)))
    {m : Nat} (later : n ≤ m) : condition (execution.state m) := by
  induction m, later using Nat.le_induction with
  | base => exact here
  | succ m later ih =>
    cases moved : execution.label m with
    | none =>
      rw [execution.idle m moved]
      exact ih
    | some label => exact kept m label.1 label.2 later ih moved

/-- A thread that can move as long as a condition holds, which only its own steps can end, takes a
step while the condition holds. -/
theorem Fair.leads {execution : Execution step start} (fair : execution.Fair owed) (i : ι)
    (condition : State ι σ τ → Prop) {n : Nat} (here : condition (execution.state n))
    (enabled : ∀ m, n ≤ m → condition (execution.state m) →
      Enabled step owed i (execution.state m))
    (kept : ∀ m j event, n ≤ m → condition (execution.state m) → j ≠ i →
      execution.label m = some (j, event) → condition (execution.state (m + 1))) :
    ∃ m, n ≤ m ∧ condition (execution.state m) ∧
      ∃ event, execution.label m = some (i, event) := by
  by_contra never
  have always : ∀ m, n ≤ m → condition (execution.state m) := by
    intro m later
    refine execution.kept_from condition here ?_ later
    intro m j event later holds moved
    have other : j ≠ i := by
      rintro rfl
      exact never ⟨m, later, holds, event, moved⟩
    exact kept m j event later holds other moved
  obtain ⟨m, later, moves⟩ := fair i n fun m later => enabled m later (always m later)
  exact never ⟨m, later, always m later, moves⟩

/-- A measure that no step increases from some moment on is constant from a later one on. -/
theorem settles (execution : Execution step start) (measure : State ι σ τ → Nat) (n : Nat)
    (falls : ∀ m i event, n ≤ m → execution.label m = some (i, event) →
      measure (execution.state (m + 1)) ≤ measure (execution.state m)) :
    ∃ k, n ≤ k ∧ ∀ m, k ≤ m → measure (execution.state m) = measure (execution.state k) := by
  apply settles_nat (fun m => measure (execution.state m)) n
  intro m later
  cases moved : execution.label m with
  | none => rw [execution.idle m moved]
  | some label => exact falls m label.1 label.2 later moved

/-- The first labels of a run lead to a state from which the others lead to its end. -/
theorem exec_take {labels : List (ι × ε)} {finish : State ι σ τ}
    (run : exec (next step) start labels = some finish) (n : Nat) :
    ∃ middle, exec (next step) start (labels.take n) = some middle ∧
      exec (next step) middle (labels.drop n) = some finish := by
  rw [← List.take_append_drop n labels, exec_append] at run
  exact Option.bind_eq_some_iff.mp run

/-- The execution that follows a run and then stops. -/
def ofRun {labels : List (ι × ε)} {finish : State ι σ τ}
    (run : exec (next step) start labels = some finish) : Execution step start where
  state n := (exec (next step) start (labels.take n)).getD finish
  label n := labels[n]?
  initial := rfl
  idle n past := by
    have beyond : labels.length ≤ n := List.getElem?_eq_none_iff.mp past
    rw [List.take_of_length_le beyond, List.take_of_length_le (by omega)]
  taken n i event moved := by
    obtain ⟨middle, before, -⟩ := exec_take run n
    obtain ⟨later, after, -⟩ := exec_take run (n + 1)
    obtain ⟨inside, here⟩ := List.getElem?_eq_some_iff.mp moved
    have split : labels.take (n + 1) = labels.take n ++ [(i, event)] := by
      rw [List.take_succ_eq_append_getElem inside, here]
    rw [before, after]
    rw [split, exec_append, before, Option.bind_some] at after
    simpa [exec, Option.bind_eq_some_iff] using after

/-- It is fair if no thread can move where the run ends. -/
theorem fair_ofRun {labels : List (ι × ε)} {finish : State ι σ τ}
    (run : exec (next step) start labels = some finish)
    (ended : ∀ i, ¬Enabled step owed i finish) : (ofRun run).Fair owed := by
  intro i n always
  have enabled := always (max n labels.length) (Nat.le_max_left _ _)
  have last : (ofRun run).state (max n labels.length) = finish := by
    simp [ofRun, List.take_of_length_le (Nat.le_max_right n labels.length), run]
  rw [last] at enabled
  exact absurd enabled (ended i)

section Schedule

variable {state : State ι σ τ} {stamp : ι → Nat}

/-- A step that is owed, of a thread that has not moved for the longest time among those that
can move; the stamps tell when each has moved last. -/
def Due (step : ι → σ → τ → ε → Option (σ × τ)) (owed : ι → ε → Prop) (state : State ι σ τ)
    (stamp : ι → Nat) (label : ι × ε) : Prop :=
  owed label.1 label.2 ∧ (∃ after, next step state label = some after) ∧
    ∀ j, Enabled step owed j state → stamp label.1 ≤ stamp j

/-- If a thread can move, a step is due. -/
theorem exists_due (stamp : ι → Nat) {i : ι} (enabled : Enabled step owed i state) :
    ∃ label, Due step owed state stamp label := by
  obtain ⟨first, ⟨event, after, due, taken⟩, earliest⟩ :=
    (measure stamp).wf.has_min {j | Enabled step owed j state} ⟨i, enabled⟩
  refine ⟨(first, event), due, ⟨_, by rw [next, taken]; rfl⟩, fun j other => ?_⟩
  exact Nat.le_of_not_lt (earliest j other)

open Classical in
/-- The step that is taken next. -/
noncomputable def pick (step : ι → σ → τ → ε → Option (σ × τ)) (owed : ι → ε → Prop)
    (state : State ι σ τ) (stamp : ι → Nat) : Option (ι × ε) :=
  if due : ∃ label, Due step owed state stamp label then some due.choose else none

/-- It is one that is due. -/
theorem due_of_pick {label : ι × ε} (picked : pick step owed state stamp = some label) :
    Due step owed state stamp label := by
  unfold pick at picked
  split at picked
  · rename_i due
    rw [← Option.some.inj picked]
    exact due.choose_spec
  · cases picked

/-- The states and the stamps of the schedule. -/
noncomputable def served (step : ι → σ → τ → ε → Option (σ × τ)) (owed : ι → ε → Prop)
    (start : State ι σ τ) : Nat → State ι σ τ × (ι → Nat)
  | 0 => (start, fun _ => 0)
  | n + 1 =>
    let before := served step owed start n
    match pick step owed before.1 before.2 with
    | none => before
    | some label => ((next step before.1 label).getD before.1,
        Function.update before.2 label.1 (n + 1))

/-- The execution in which the thread that has not moved for the longest time goes first. -/
noncomputable def schedule (step : ι → σ → τ → ε → Option (σ × τ)) (owed : ι → ε → Prop)
    (start : State ι σ τ) : Execution step start where
  state n := (served step owed start n).1
  label n := pick step owed (served step owed start n).1 (served step owed start n).2
  initial := rfl
  idle n none := by simp only [served, none]
  taken n i event moved := by
    obtain ⟨-, ⟨after, taken⟩, -⟩ := due_of_pick moved
    simp only [served, moved, taken, Option.getD_some]

/-- Only steps that are owed are taken. -/
theorem schedule_owed {n : Nat} {i : ι} {event : ε}
    (moved : (schedule step owed start).label n = some (i, event)) : owed i event :=
  (due_of_pick moved).1

/-- The stamp of a thread that moves is the moment after it. -/
theorem stamp_moved {n : Nat} {i : ι} {event : ε}
    (moved : (schedule step owed start).label n = some (i, event)) :
    (served step owed start (n + 1)).2 i = n + 1 := by
  have picked : pick step owed (served step owed start n).1 (served step owed start n).2 =
      some (i, event) := moved
  simp [served, picked]

/-- The stamp of a thread that does not move stays. -/
theorem stamp_stays {n : Nat} {i : ι}
    (silent : ∀ event, (schedule step owed start).label n ≠ some (i, event)) :
    (served step owed start (n + 1)).2 i = (served step owed start n).2 i := by
  simp only [served]
  cases picked : pick step owed (served step owed start n).1 (served step owed start n).2 with
  | none => rfl
  | some label =>
    have other : i ≠ label.1 := by
      rintro rfl
      exact silent label.2 picked
    simp only [Function.update_of_ne other]

/-- Stamps are not ahead of time. -/
theorem stamp_le (n : Nat) (i : ι) : (served step owed start n).2 i ≤ n := by
  induction n with
  | zero => exact Nat.le_refl 0
  | succ n ih =>
    by_cases moves : ∃ event, (schedule step owed start).label n = some (i, event)
    · obtain ⟨event, moved⟩ := moves
      rw [stamp_moved moved]
    · rw [stamp_stays (not_exists.mp moves)]
      omega

/-- The schedule of finitely many threads is strongly fair. -/
theorem schedule_stronglyFair [Fintype ι] : (schedule step owed start).StronglyFair owed := by
  intro i n often
  by_contra never
  have silent : ∀ m, n ≤ m → ∀ event, (schedule step owed start).label m ≠ some (i, event) := by
    intro m later event moved
    exact never ⟨m, later, event, schedule_owed moved, moved⟩
  have still : ∀ m, n ≤ m → (served step owed start m).2 i = (served step owed start n).2 i := by
    intro m later
    induction m, later using Nat.le_induction with
    | base => rfl
    | succ m later ih => rw [stamp_stays (silent m later), ih]
  -- the threads that moved no later than `i` did can only become fewer
  have bound : (served step owed start n).2 i ≤ n := stamp_le n i
  let early (m : Nat) : Finset ι :=
    Finset.univ.filter fun j => (served step owed start m).2 j ≤ (served step owed start n).2 i
  have fewer : ∀ m, n ≤ m → early (m + 1) ⊆ early m := by
    intro m later j member
    have small := (Finset.mem_filter.mp member).2
    by_cases moves : ∃ event, (schedule step owed start).label m = some (j, event)
    · obtain ⟨event, moved⟩ := moves
      rw [stamp_moved moved] at small
      omega
    · rw [stamp_stays (not_exists.mp moves)] at small
      exact Finset.mem_filter.mpr ⟨Finset.mem_univ j, small⟩
  obtain ⟨k, later, settled⟩ := settles_nat (fun m => (early m).card) n
    fun m later => Finset.card_le_card (fewer m later)
  obtain ⟨m, after, enabled⟩ := often k later
  obtain ⟨⟨j, event⟩, picked⟩ : ∃ label, (schedule step owed start).label m = some label := by
    have due := exists_due (served step owed start m).2 enabled
    exact ⟨_, dif_pos due⟩
  have first := (due_of_pick picked).2.2 i enabled
  rw [still m (by omega)] at first
  have inside : j ∈ early m := Finset.mem_filter.mpr ⟨Finset.mem_univ j, first⟩
  have outside : j ∉ early (m + 1) := by
    intro member
    have small := (Finset.mem_filter.mp member).2
    rw [stamp_moved picked] at small
    omega
  have less : (early (m + 1)).card < (early m).card :=
    Finset.card_lt_card ⟨fewer m (by omega), fun all => outside (all inside)⟩
  have here := settled m after
  have next := settled (m + 1) (by omega)
  omega

/-- A strongly fair execution is fair. -/
theorem StronglyFair.fair {execution : Execution step start}
    (strong : execution.StronglyFair owed) : execution.Fair owed := by
  intro i n always
  obtain ⟨m, later, event, -, moved⟩ := strong i n fun m later => ⟨m, Nat.le_refl m, always m later⟩
  exact ⟨m, later, event, moved⟩

end Schedule

end Execution

end NsuOs.Threads
