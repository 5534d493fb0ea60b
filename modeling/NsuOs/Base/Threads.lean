import NsuOs.Base.Run

/-!
# Threads over shared memory

A program is the step function of one thread: given the shared memory, the thread's own locals
and an event it returns both anew, or refuses the event. Any number of threads, indexed by any
type, take such steps in any order. An annotated program has one assertion on the shared memory
and one for each thread; the assertions may mention an auxiliary value that the program does not
hold. They stay true along every run when the moving thread restores its own assertion and does
not interfere with those of the others.
-/
namespace NsuOs.Threads

open NsuOs.Run

variable {ι σ τ ε γ : Type*}

/-- The shared memory and the locals of every thread. -/
structure State (ι σ τ : Type*) where
  /-- The memory that all threads use. -/
  shared : σ
  /-- The locals of each thread. -/
  thread : ι → τ

variable [DecidableEq ι]

/-- One thread takes one step; the locals of the others stand. -/
def next (step : ι → σ → τ → ε → Option (σ × τ)) (state : State ι σ τ) (label : ι × ε) :
    Option (State ι σ τ) :=
  (step label.1 state.shared (state.thread label.1) label.2).map fun after =>
    ⟨after.1, Function.update state.thread label.1 after.2⟩

/-- What a step of the system is: one thread's step, with the others left alone. -/
theorem next_eq_some {step : ι → σ → τ → ε → Option (σ × τ)} {state after : State ι σ τ} {i : ι}
    {event : ε} :
    next step state (i, event) = some after ↔
      step i state.shared (state.thread i) event = some (after.shared, after.thread i) ∧
        ∀ j, j ≠ i → after.thread j = state.thread j := by
  unfold next
  constructor
  · intro taken
    obtain ⟨⟨shared, mine⟩, own, rfl⟩ := Option.map_eq_some_iff.mp taken
    refine ⟨by simpa using own, fun j other => ?_⟩
    exact Function.update_of_ne other _ _
  · rintro ⟨own, others⟩
    rw [own, Option.map_some]
    obtain ⟨shared, thread⟩ := after
    congr 2
    funext j
    by_cases same : j = i
    · subst same
      exact Function.update_self j _ _
    · rw [Function.update_of_ne same]
      exact (others j same).symm

/-- A sum over all threads changes by what the moving thread's summand changes. -/
theorem sum_moved [Fintype ι] {step : ι → σ → τ → ε → Option (σ × τ)} {state after : State ι σ τ}
    {i : ι} {event : ε} (taken : next step state (i, event) = some after) (count : τ → Nat) :
    ∑ j, count (after.thread j) + count (state.thread i) =
      ∑ j, count (state.thread j) + count (after.thread i) := by
  have others := (next_eq_some.mp taken).2
  have same : ∑ j ∈ {i}ᶜ, count (after.thread j) = ∑ j ∈ {i}ᶜ, count (state.thread j) := by
    apply Finset.sum_congr rfl
    intro j outside
    rw [others j (by simpa using outside)]
  rw [Fintype.sum_eq_add_sum_compl i, Fintype.sum_eq_add_sum_compl i, same]
  omega

/-- For some auxiliary value the shared memory and every thread meet their assertions. -/
def Holds (global : γ → σ → Prop) (own : γ → ι → σ → τ → Prop) (state : State ι σ τ) : Prop :=
  ∃ ghost, global ghost state.shared ∧ ∀ i, own ghost i state.shared (state.thread i)

/-- A step of any thread restores its own assertion and the shared one and does not interfere
with the assertions of the others. -/
def Stable (step : ι → σ → τ → ε → Option (σ × τ)) (global : γ → σ → Prop)
    (own : γ → ι → σ → τ → Prop) : Prop :=
  ∀ ⦃ghost i shared mine event after moved⦄, global ghost shared → own ghost i shared mine →
    step i shared mine event = some (after, moved) →
      ∃ later, global later after ∧ own later i after moved ∧
        ∀ j theirs, j ≠ i → own ghost j shared theirs → own later j after theirs

variable {step : ι → σ → τ → ε → Option (σ × τ)} {global : γ → σ → Prop}
  {own : γ → ι → σ → τ → Prop}

/-- Stable assertions survive a step of the system. -/
theorem Stable.next (stable : Stable step global own) {state after : State ι σ τ}
    {label : ι × ε} (holds : Holds global own state)
    (taken : Threads.next step state label = some after) : Holds global own after := by
  obtain ⟨i, event⟩ := label
  obtain ⟨ghost, shared, threads⟩ := holds
  obtain ⟨mine, others⟩ := next_eq_some.mp taken
  obtain ⟨later, kept, restored, free⟩ := stable shared (threads i) mine
  refine ⟨later, kept, fun j => ?_⟩
  by_cases same : j = i
  · exact same ▸ restored
  · rw [others j same]
    exact free j _ same (threads j)

/-- Stable assertions hold at the end of every run that starts with them. -/
theorem Stable.exec (stable : Stable step global own) {start finish : State ι σ τ}
    {labels : List (ι × ε)} (initial : Holds global own start)
    (run : Run.exec (Threads.next step) start labels = some finish) : Holds global own finish :=
  exec_invariant (fun _ _ _ => stable.next) initial run

end NsuOs.Threads
