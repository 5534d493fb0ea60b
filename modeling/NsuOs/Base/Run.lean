import Mathlib

/-!
# Executions of a partial step function

A system is a step function `next : State → Label → Option State`; the label carries every
choice the environment makes, and a refused step is `none`. `exec` follows a list of labels.
The rules below are the only inductions over runs: `exec_induct` for facts about the labels
taken so far together with the state they lead to, and `exec_induct_meets` for runs in which
every step meets a condition on the state before it.
-/
namespace NsuOs.Run

variable {State Label : Type*}

/-- Follow a list of labels from a state; `none` as soon as one step is refused. -/
def exec (next : State → Label → Option State) : State → List Label → Option State
  | state, [] => some state
  | state, label :: rest => (next state label).bind fun after => exec next after rest

/-- A run over a concatenation is the second run started where the first one ended. -/
theorem exec_append (next : State → Label → Option State) (state : State)
    (first second : List Label) :
    exec next state (first ++ second) =
      (exec next state first).bind fun middle => exec next middle second := by
  induction first generalizing state with
  | nil => rfl
  | cons label rest ih =>
    simp only [List.cons_append, exec, Option.bind_assoc]
    congr 1
    funext after
    exact ih after

/-- The last step of a run is a step from the state its other labels lead to. -/
theorem exec_snoc {next : State → Label → Option State} {start finish : State}
    {trace : List Label} {label : Label} :
    exec next start (trace ++ [label]) = some finish ↔
      ∃ middle, exec next start trace = some middle ∧ next middle label = some finish := by
  rw [exec_append]
  simp [Option.bind_eq_some_iff, exec]

/-- Every step of a run is a step from the state the labels before it lead to. -/
theorem exec_step {next : State → Label → Option State} {start finish before : State}
    {earlier later : List Label} {label : Label}
    (run : exec next start (earlier ++ label :: later) = some finish)
    (reached : exec next start earlier = some before) :
    ∃ after, next before label = some after ∧ exec next after later = some finish := by
  rw [exec_append, reached, Option.bind_some] at run
  exact Option.bind_eq_some_iff.mp run

/-- Every label of a run was taken from some state on the way. -/
theorem exec_member {next : State → Label → Option State} {start finish : State}
    {trace : List Label} {label : Label} (run : exec next start trace = some finish)
    (member : label ∈ trace) :
    ∃ earlier later before after, trace = earlier ++ label :: later ∧
      exec next start earlier = some before ∧ next before label = some after := by
  obtain ⟨earlier, later, split⟩ := List.append_of_mem member
  have steps := run
  rw [split, exec_append] at steps
  obtain ⟨before, reached, -⟩ := Option.bind_eq_some_iff.mp steps
  obtain ⟨after, step, -⟩ := exec_step (split ▸ run) reached
  exact ⟨earlier, later, before, after, split, reached, step⟩

/-- A fact about labels and the state reached holds of every run when it holds of the empty run
and each step carries it on. -/
theorem exec_induct {next : State → Label → Option State} {start : State}
    {motive : List Label → State → Prop} (nil : motive [] start)
    (snoc : ∀ trace middle label finish, exec next start trace = some middle →
      motive trace middle → next middle label = some finish → motive (trace ++ [label]) finish)
    {trace : List Label} {finish : State} (run : exec next start trace = some finish) :
    motive trace finish := by
  induction trace using List.reverseRecOn generalizing finish with
  | nil =>
    obtain rfl := Option.some.inj run
    exact nil
  | append_singleton trace label ih =>
    obtain ⟨middle, earlier, step⟩ := exec_snoc.mp run
    exact snoc trace middle label finish earlier (ih earlier) step

/-- A property of states kept by every step holds at the end of every run. -/
theorem exec_invariant {next : State → Label → Option State} {invariant : State → Prop}
    (kept : ∀ state label after, invariant state → next state label = some after →
      invariant after)
    {start finish : State} {trace : List Label} (initial : invariant start)
    (run : exec next start trace = some finish) : invariant finish :=
  exec_induct (motive := fun _ state => invariant state) initial
    (fun _ middle label after _ held step => kept middle label after held step) run

/-- Every step of the run along these labels meets a condition on the state before it. -/
def Meets (next : State → Label → Option State) (guard : State → Label → Prop) :
    State → List Label → Prop
  | _, [] => True
  | state, label :: rest => guard state label ∧
      match next state label with
      | some after => Meets next guard after rest
      | none => True

/-- Whether a given run meets a condition can be computed when the condition can. -/
instance Meets.decidable (next : State → Label → Option State) (guard : State → Label → Prop)
    [∀ state label, Decidable (guard state label)] :
    ∀ state labels, Decidable (Meets next guard state labels)
  | _, [] => .isTrue trivial
  | state, label :: rest =>
    have : Decidable (match next state label with
        | some after => Meets next guard after rest
        | none => True) :=
      match next state label with
      | some after => Meets.decidable next guard after rest
      | none => .isTrue trivial
    inferInstanceAs (Decidable (_ ∧ _))

/-- A run meets a condition exactly when its other steps do and its last step does. -/
theorem meets_snoc {next : State → Label → Option State} {guard : State → Label → Prop}
    {start middle : State} {trace : List Label} {label : Label}
    (run : exec next start trace = some middle) :
    Meets next guard start (trace ++ [label]) ↔
      Meets next guard start trace ∧ guard middle label := by
  induction trace generalizing start with
  | nil =>
    obtain rfl := Option.some.inj run
    simp only [List.nil_append, Meets, true_and]
    cases next start label <;> simp
  | cons first rest ih =>
    obtain ⟨after, step, later⟩ := Option.bind_eq_some_iff.mp run
    simp only [List.cons_append, Meets, step, ih later, and_assoc]

/-- The first part of a run that meets a condition meets it. -/
theorem meets_left {next : State → Label → Option State} {guard : State → Label → Prop}
    {start : State} {earlier later : List Label}
    (meets : Meets next guard start (earlier ++ later)) : Meets next guard start earlier := by
  induction earlier generalizing start with
  | nil => trivial
  | cons first rest ih =>
    refine ⟨meets.1, ?_⟩
    have onward := meets.2
    cases step : next start first with
    | none => trivial
    | some after =>
      rw [step] at onward
      exact ih onward

/-- In a run that meets a condition, each step meets it in the state it is taken from. -/
theorem meets_at {next : State → Label → Option State} {guard : State → Label → Prop}
    {start before : State} {earlier later : List Label} {label : Label}
    (meets : Meets next guard start (earlier ++ label :: later))
    (run : exec next start earlier = some before) : guard before label := by
  induction earlier generalizing start with
  | nil =>
    obtain rfl := Option.some.inj run
    exact meets.1
  | cons first rest ih =>
    obtain ⟨after, step, onward⟩ := Option.bind_eq_some_iff.mp run
    simp only [List.cons_append, Meets, step] at meets
    exact ih meets.2 onward

/-- The induction rule for runs whose steps all meet a condition. -/
theorem exec_induct_meets {next : State → Label → Option State} {guard : State → Label → Prop}
    {start : State} {motive : List Label → State → Prop} (nil : motive [] start)
    (snoc : ∀ trace middle label finish, exec next start trace = some middle →
      motive trace middle → guard middle label → next middle label = some finish →
        motive (trace ++ [label]) finish)
    {trace : List Label} {finish : State} (run : exec next start trace = some finish)
    (meets : Meets next guard start trace) : motive trace finish := by
  revert meets
  refine exec_induct (motive := fun labels state => Meets next guard start labels →
    motive labels state) (fun _ => nil) ?_ run
  intro labels middle label after earlier ih step meets
  obtain ⟨before, here⟩ := (meets_snoc earlier).mp meets
  exact snoc labels middle label after earlier (ih before) here step

end NsuOs.Run
