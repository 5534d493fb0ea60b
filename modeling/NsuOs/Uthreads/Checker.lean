import NsuOs.Uthreads.Scheduler

/-!
# The scheduler and the checker

`main` and `schedule` read `uthread_count` and `uthreads` while the checker clears them. A body that
has set `is_finish` keeps the OS thread until the checker stops, so the checker meets at most one
finished uthread and never stops: as long as only assigned flags read as true, nothing is cleared
that `schedule` could still use. But `is_finish` is never initialised, and if its fill reads as true
the checker clears entries before the first call of `schedule`.
-/
namespace NsuOs.Uthreads

open NsuOs.Run

/-- The checker has cleared nothing and is not about to. -/
def Check.Idle : Check → Prop
  | .test killed | .loop killed _ | .entry killed _ | .flag killed _ => killed = 0
  | .clear _ _ | .zero | .stop | .done => False

/-- The checker clears one uthread at most, if it is there. -/
def Check.Hunting (i : Nat) (present : Bool) : Check → Prop
  | .test killed | .loop killed _ | .entry killed _ => killed = if present then 0 else 1
  | .flag killed j => killed = (if present then 0 else 1) ∧ (present = false → j ≠ i)
  | .clear killed j => killed = 0 ∧ j = i ∧ present = true
  | .zero | .stop | .done => False

/-- A checker that has cleared nothing may clear one uthread. -/
theorem Check.Idle.hunting {check : Check} (idle : check.Idle) (i : Nat) :
    check.Hunting i true := by
  cases check with
  | test | loop | entry => exact idle
  | flag => exact ⟨idle, by intro gone; cases gone⟩
  | clear | zero | stop | done => exact idle.elim

namespace State

variable {setup : Setup} {state after : State}

/-- No body has finished: every uthread is there, and no step was undefined. -/
structure Calm (setup : Setup) (state : State) : Prop where
  /-- No flag was set. -/
  finish : ∀ i, state.finish i = .fill
  /-- Every entry is there. -/
  present : ∀ i < setup.threads, state.present i = true
  /-- The checker has cleared nothing. -/
  check : state.check.Idle
  /-- No undefined step was made. -/
  sound : state.pc.faulted = false

/-- A body has finished and keeps the OS thread. -/
structure Waiting (state : State) (stack i : Nat) : Prop where
  /-- It waits for the checker. -/
  pc : state.pc = .wait stack i
  /-- No other flag was set. -/
  finish : ∀ j, j ≠ i → state.finish j = .fill
  /-- The checker clears this uthread at most. -/
  check : state.check.Hunting i (state.present i)

/-- No uthread is cleared while `schedule` can still use it. -/
structure Guarded (setup : Setup) (state : State) : Prop where
  /-- All uthreads are counted. -/
  count : state.count = setup.threads
  /-- The checker has not stopped. -/
  stop : state.stop = false
  /-- No body has finished, or one has and waits. -/
  phase : state.Calm setup ∨ ∃ stack i, state.Waiting stack i

/-- A swap changes the program point, the contexts and the log. -/
theorem swapcontext_frame (state : State) (caller : Caller) (cur next : Nat) :
    (state.swapcontext caller cur next).count = state.count ∧
      (state.swapcontext caller cur next).stop = state.stop ∧
      (state.swapcontext caller cur next).finish = state.finish ∧
      (state.swapcontext caller cur next).present = state.present ∧
      (state.swapcontext caller cur next).check = state.check ∧
      (state.swapcontext caller cur next).pc.faulted = false := by
  unfold swapcontext resume
  dsimp only
  split
  · exact ⟨rfl, rfl, rfl, rfl, rfl, rfl⟩
  · rename_i other _
    refine ⟨rfl, rfl, rfl, rfl, rfl, ?_⟩
    cases other <;> rfl

/-- Before a body has finished, the OS thread meets no null entry. -/
theorem Calm.main (calm : state.Calm setup) (placed : state.Placed setup)
    (count : state.count = setup.threads) (stop : state.stop = false)
    (step : MainStep setup state after) : after.Guarded setup := by
  have there := placed.pc
  have elsewhere : ∀ pc : Pc, pc.faulted = false → (state.goto pc).Guarded setup :=
    fun pc sound => ⟨count, stop, .inl ⟨calm.finish, calm.present, calm.check, sound⟩⟩
  cases step with
  | mainOn | mainEnd | join | startOn | startEnd | flagged | skipped | load | bodyEnd | bodyCall
  | released | waits | slot | target => exact elsewhere _ rfl
  | set | enter | advance =>
    exact ⟨count, stop, .inl ⟨calm.finish, calm.present, calm.check, rfl⟩⟩
  | @finish stack i here live =>
    refine ⟨count, stop, .inr ⟨stack, i, rfl, ?_, ?_⟩⟩
    · intro j apart
      show Function.update state.finish i .set j = .fill
      rw [Function.update_of_ne apart]
      exact calm.finish j
    · have idle := calm.check
      show state.check.Hunting i (state.present i)
      rw [live]
      exact idle.hunting i
  | @swap caller cur next here =>
    obtain ⟨count', stop', finish', present', check', sound⟩ :=
      swapcontext_frame state caller cur next
    refine ⟨count'.trans count, stop'.trans stop, .inl ⟨?_, ?_, ?_, sound⟩⟩
    · rw [finish']
      exact calm.finish
    · rw [present']
      exact calm.present
    · rw [check']
      exact calm.check
  | @startNull stack i here gone =>
    have inside : i < setup.threads := by
      rcases here with here | here | here | here <;> rw [here] at there <;> exact there.2.2
    rw [calm.present i inside] at gone
    cases gone
  | @finishNull stack i here gone =>
    rw [here] at there
    rw [calm.present i there.2.2] at gone
    cases gone
  | scheduleNull here gone =>
    rw [calm.present state.cur placed.cur] at gone
    cases gone
  | divide here none =>
    have inside := placed.cur
    omega

/-- A body that waits goes on waiting. -/
theorem Waiting.main {stack i : Nat} (waiting : state.Waiting stack i) (stop : state.stop = false)
    (step : MainStep setup state after) : after = state.goto (.wait stack i) := by
  have pc := waiting.pc
  cases step with
  | released here stopped =>
    rw [stop] at stopped
    cases stopped
  | waits here going =>
    cases here.symm.trans pc
    rfl
  | startNull here gone => rcases here with here | here | here | here <;> cases here.symm.trans pc
  | scheduleNull here gone =>
    obtain ⟨caller, here | ⟨cur, here⟩⟩ := here
    · cases here.symm.trans pc
    · cases here.symm.trans pc
  | mainOn here | mainEnd here | join here | startOn here | startEnd here | flagged here
  | skipped here | set here | load here | enter here | bodyEnd here | bodyCall here | finish here
  | slot here | advance here | target here | swap here | finishNull here | divide here =>
    cases here.symm.trans pc

/-- A flag that was not set does not read as true. -/
theorem finished_fill (unset : setup.finishTrue = false) {i : Nat} (fill : state.finish i = .fill) :
    state.finished setup i = false := by
  unfold finished
  rw [fill]
  exact unset

/-- Before a body has finished, the checker clears nothing. -/
theorem Calm.checker (calm : state.Calm setup) (unset : setup.finishTrue = false)
    (some_ : 0 < setup.threads) (count : state.count = setup.threads) (stop : state.stop = false)
    (step : state.checkStep setup = some after) : after.Guarded setup := by
  have idle := calm.check
  have elsewhere : ∀ check : Check, check.Idle → { state with check := check }.Guarded setup :=
    fun check idle => ⟨count, stop, .inl ⟨calm.finish, calm.present, idle, calm.sound⟩⟩
  unfold checkStep at step
  split at step
  case h_1 killed here =>
    rw [here] at idle
    obtain rfl : killed = 0 := idle
    rw [if_pos (by omega)] at step
    exact Option.some.inj step ▸ elsewhere _ rfl
  case h_2 killed i here =>
    rw [here] at idle
    obtain rfl := Option.some.inj step
    split <;> exact elsewhere _ idle
  case h_3 killed i here =>
    rw [here] at idle
    obtain rfl := Option.some.inj step
    split <;> exact elsewhere _ idle
  case h_4 killed i here =>
    rw [here] at idle
    rw [finished_fill unset (calm.finish i)] at step
    exact Option.some.inj step ▸ elsewhere _ idle
  all_goals
    rename_i here
    rw [here] at idle
    exact idle.elim

/-- While a body waits, the checker clears its uthread at most. -/
theorem Waiting.checker {stack i : Nat} (waiting : state.Waiting stack i)
    (unset : setup.finishTrue = false) (two : 1 < setup.threads)
    (count : state.count = setup.threads) (stop : state.stop = false)
    (step : state.checkStep setup = some after) : after.Guarded setup := by
  have hunting := waiting.check
  have elsewhere : ∀ check : Check, check.Hunting i (state.present i) →
      { state with check := check }.Guarded setup :=
    fun check hunting => ⟨count, stop, .inr ⟨stack, i, waiting.pc, waiting.finish, hunting⟩⟩
  unfold checkStep at step
  split at step
  case h_1 killed here =>
    rw [here] at hunting
    have few : killed ≤ 1 := by
      rw [show killed = _ from hunting]
      split <;> omega
    rw [if_pos (by omega)] at step
    exact Option.some.inj step ▸ elsewhere _ hunting
  case h_2 killed j here =>
    rw [here] at hunting
    obtain rfl := Option.some.inj step
    split <;> exact elsewhere _ hunting
  case h_3 killed j here =>
    rw [here] at hunting
    obtain rfl := Option.some.inj step
    split
    · rename_i live
      refine elsewhere _ ⟨hunting, ?_⟩
      rintro gone rfl
      rw [gone] at live
      cases live
    · exact elsewhere _ hunting
  case h_4 killed j here =>
    rw [here] at hunting
    obtain ⟨killed_, other⟩ := hunting
    obtain rfl := Option.some.inj step
    by_cases same : j = i
    · have live : state.present i = true := by
        by_contra gone
        exact other (by simpa using gone) same
      split
      · refine elsewhere _ ⟨?_, same, live⟩
        rw [killed_, live]
        rfl
      · exact elsewhere _ killed_
    · rw [finished_fill unset (waiting.finish j same)]
      exact elsewhere _ killed_
  case h_5 killed j here =>
    rw [here] at hunting
    obtain ⟨rfl, rfl, live⟩ := hunting
    obtain rfl := Option.some.inj step
    refine ⟨count, stop, .inr ⟨stack, j, waiting.pc, waiting.finish, ?_⟩⟩
    show 0 + 1 = if Function.update state.present j false j then 0 else 1
    rw [Function.update_self]
    rfl
  all_goals
    rename_i here
    rw [here] at hunting
    exact hunting.elim

/-- A step of either thread keeps the guard. -/
theorem Guarded.next {who : Who} (guarded : state.Guarded setup) (placed : state.Placed setup)
    (unset : setup.finishTrue = false) (step : state.next setup who = some after) :
    after.Guarded setup := by
  have inside := placed.cur
  rcases next_cases step with ⟨-, moved⟩ | ⟨-, checked⟩
  · rcases guarded.phase with calm | ⟨stack, i, waiting⟩
    · exact calm.main placed guarded.count guarded.stop moved
    · rw [waiting.main guarded.stop moved]
      exact ⟨guarded.count, guarded.stop, .inr ⟨stack, i, rfl, waiting.finish, waiting.check⟩⟩
  · rcases guarded.phase with calm | ⟨stack, i, waiting⟩
    · exact calm.checker unset (by omega) guarded.count guarded.stop checked
    · have there := placed.pc
      rw [waiting.pc] at there
      obtain ⟨positive, below, -⟩ := there
      exact waiting.checker unset (by omega) guarded.count guarded.stop checked

/-- Every state reached is guarded when the fill does not read as true. -/
theorem guarded_run (some_ : 0 < setup.threads) (unset : setup.finishTrue = false)
    {trace : List Who} (run : exec (next setup) (start setup) trace = some state) :
    state.Guarded setup := by
  refine exec_induct (motive := fun _ state => state.Guarded setup) ?_ ?_ run
  · rw [start, created_eq]
    refine ⟨rfl, rfl, .inl ⟨fun _ => rfl, ?_, rfl, rfl⟩⟩
    intro i inside
    exact decide_eq_true inside
  · intro labels middle who finish earlier guarded step
    exact guarded.next (placed_run some_ earlier) unset step

/-- Without uthreads `main` never calls `schedule`. -/
theorem idle_run (none : setup.threads = 0) {trace : List Who}
    (run : exec (next setup) (start setup) trace = some state) :
    state.count = 0 ∧ (state.pc = .mainTest ∨ state.pc = .mainJoin ∨ state.pc = .exited) := by
  refine exec_induct (motive := fun _ state => state.count = 0 ∧
    (state.pc = .mainTest ∨ state.pc = .mainJoin ∨ state.pc = .exited)) ?_ ?_ run
  · rw [start, created_eq]
    exact ⟨none, .inl rfl⟩
  · rintro labels middle who finish - ⟨count, pc⟩ step
    rcases next_cases step with ⟨-, moved⟩ | ⟨-, checked⟩
    · cases moved with
      | mainOn here some_ => omega
      | mainEnd here _ => exact ⟨count, .inr (.inl rfl)⟩
      | join here done => exact ⟨count, .inr (.inr rfl)⟩
      | startNull here gone => rcases here with here | here | here | here <;> simp [here] at pc
      | scheduleNull here gone =>
        obtain ⟨caller, here | ⟨cur, here⟩⟩ := here
        · simp [here] at pc
        · simp [here] at pc
      | startOn here | startEnd here | flagged here | skipped here | set here | load here
      | enter here | bodyEnd here | bodyCall here | finish here | released here | waits here
      | slot here | advance here | target here | swap here | finishNull here | divide here =>
        simp [here] at pc
    · obtain ⟨same, -⟩ := checkStep_frame checked
      have fewer := checkStep_count checked
      rw [same]
      exact ⟨by omega, pc⟩

/-- `main` finds a uthread, and the checker clears its entry before `schedule` uses it. -/
def clearedFirst : List Who :=
  [.main, .checker, .checker, .checker, .checker, .checker, .main]

/-- A fill that reads as true lets the checker clear an entry before `schedule` uses it. -/
theorem clearedFirst_run (some_ : 0 < setup.threads) (reads : setup.finishTrue = true) :
    ∃ state, exec (next setup) (start setup) clearedFirst = some state ∧
      state.pc = .fault .scheduleNull := by
  rw [start, created_eq]
  simp only [clearedFirst, exec, next, mainStep, checkStep, goto, through, finished, boot, reads,
    if_pos some_, Option.bind_some, decide_eq_true_eq, if_true]
  exact ⟨_, rfl, rfl⟩

/-- `schedule` never divides by zero and never uses a null entry, nor does a body. -/
def Safe (setup : Setup) : Prop :=
  ∀ trace state, exec (next setup) (start setup) trace = some state →
    state.pc ≠ .fault .divide ∧ state.pc ≠ .fault .scheduleNull ∧ state.pc ≠ .fault .finishNull

/-- The scheduler is safe against the checker if and only if there is no uthread or the fill of
`is_finish` does not read as true. -/
theorem schedule_safe_iff (setup : Setup) :
    Safe setup ↔ setup.threads = 0 ∨ setup.finishTrue = false := by
  constructor
  · intro safe
    by_contra both
    rw [not_or, Bool.not_eq_false] at both
    obtain ⟨state, run, fault⟩ := clearedFirst_run (Nat.pos_of_ne_zero both.1) both.2
    exact (safe clearedFirst state run).2.1 fault
  · intro condition trace state run
    have sound : state.pc.faulted = false := by
      rcases Nat.eq_zero_or_pos setup.threads with none | some_
      · obtain ⟨-, here | here | here⟩ := idle_run none run <;> rw [here] <;> rfl
      · have unset : setup.finishTrue = false := condition.resolve_left (by omega)
        rcases (guarded_run some_ unset run).phase with calm | ⟨stack, i, waiting⟩
        · exact calm.sound
        · rw [waiting.pc]
          rfl
    have never : ∀ kind, state.pc ≠ .fault kind := by
      intro kind here
      rw [here] at sound
      cases sound
    exact ⟨never _, never _, never _⟩

/-- In the program of the source `schedule` can meet a null entry. -/
theorem schedule_meets_null : ¬∀ setup : Setup, Safe setup := by
  intro claim
  have some_ : 0 < sourceSetup.threads := by decide
  obtain ⟨state, run, fault⟩ := clearedFirst_run some_ rfl
  exact (claim sourceSetup clearedFirst state run).2.1 fault

end State

end NsuOs.Uthreads
