import NsuOs.Base.Run

/-!
# User-level threads

One OS thread runs `main`, `start_thread` and the bodies of all uthreads; `schedule` passes it on
with `swapcontext`. A second OS thread runs `checker_finish_thread`. Both move by single reads and
writes of `uthread_count`, `uthreads[i]`, the flags and `stop_work_checker`, in any order.

`main` is not a uthread, yet `schedule` saves it in the slot of uthread 0. From then on the context
that was to start uthread 0 is gone.
-/
namespace NsuOs.Uthreads

open NsuOs.Run

/-- `MAX_THREAD`. -/
def maxThread : Nat := 200

/-- A program: how many uthreads `main` creates, how often each body calls `schedule`, and how the
flags read before they are assigned. `create_stack` fills them with `0x7f`, which is no `bool`. -/
structure Setup where
  /-- The number of calls of `uthread_create`. -/
  threads : Nat
  /-- The calls of `schedule` in the body of a uthread. -/
  calls : Nat → Nat
  /-- Whether `is_running == false` holds of the fill. -/
  runningFalse : Bool
  /-- Whether `is_finish == true` holds of the fill. -/
  finishTrue : Bool

/-- A flag of a uthread. -/
inductive Flag where
  /-- The byte of `memset`. -/
  | fill
  /-- `true`. -/
  | set
  deriving DecidableEq

/-- Who called `schedule`, with its variables. -/
inductive Caller where
  /-- `main`. -/
  | main
  /-- The body of uthread `i`, called by the `start_thread` on a stack, with calls left to make. -/
  | body (stack i left : Nat)
  deriving DecidableEq

/-- What a `uctx` holds. -/
inductive Ctx where
  /-- The start of `start_thread` on its stack, as `makecontext` left it. -/
  | initial
  /-- The return from a call of `schedule`. -/
  | saved (caller : Caller)
  deriving DecidableEq

/-- A saved context is not an initial one. -/
theorem Ctx.saved_ne_initial (caller : Caller) : Ctx.saved caller ≠ .initial := by
  intro same
  cases same

/-- An undefined step. -/
inductive Fault where
  /-- `schedule` uses a null entry of `uthreads`. -/
  | scheduleNull
  /-- `schedule` divides by `uthread_count` zero. -/
  | divide
  /-- A body uses a null entry to set `is_finish`. -/
  | finishNull
  /-- `start_thread` uses a null entry. -/
  | startNull
  deriving DecidableEq

/-- Where the OS thread of `main` is. -/
inductive Pc where
  /-- About to test `uthread_count > 0`. -/
  | mainTest
  /-- About to join the checker. -/
  | mainJoin
  /-- `start_thread`, about to test `i < uthread_count`. -/
  | startTest (stack i : Nat)
  /-- About to test `uthreads[i]->is_running`. -/
  | startFlag (stack i : Nat)
  /-- About to set it. -/
  | startSet (stack i : Nat)
  /-- About to load `uthreads[i]->thread_func`. -/
  | startFunc (stack i : Nat)
  /-- About to load `uthreads[i]->arg` and make the call. -/
  | startCall (stack i : Nat)
  /-- In the loop of a body. -/
  | body (stack i left : Nat)
  /-- About to set `is_finish`. -/
  | finish (stack i : Nat)
  /-- About to test `stop_work_checker`. -/
  | wait (stack i : Nat)
  /-- `schedule`, about to load `uthreads[uthread_cur]`. -/
  | schedCur (caller : Caller)
  /-- About to set `uthread_cur`. -/
  | schedCount (caller : Caller) (cur : Nat)
  /-- About to load `uthreads[uthread_cur]` again. -/
  | schedNext (caller : Caller) (cur : Nat)
  /-- About to call `swapcontext`. -/
  | swap (caller : Caller) (cur next : Nat)
  /-- The process has ended. -/
  | exited
  /-- An undefined step was made. -/
  | fault (kind : Fault)
  deriving DecidableEq

/-- The program point is that of an undefined step. -/
def Pc.faulted : Pc → Bool
  | .fault _ => true
  | _ => false

/-- Where the checker is; `killed` is `count_kill_threads`. -/
inductive Check where
  /-- About to test `count_kill_threads < uthread_count`. -/
  | test (killed : Nat)
  /-- About to test `i < uthread_count`. -/
  | loop (killed i : Nat)
  /-- About to test `uthreads[i] != NULL`. -/
  | entry (killed i : Nat)
  /-- About to test `uthreads[i]->is_finish`. -/
  | flag (killed i : Nat)
  /-- About to clear `uthreads[i]`. -/
  | clear (killed i : Nat)
  /-- About to set `uthread_count` to zero. -/
  | zero
  /-- About to set `stop_work_checker`. -/
  | stop
  /-- Returned. -/
  | done
  deriving DecidableEq

/-- What happens to contexts and bodies. -/
inductive Event where
  /-- The running continuation is saved in `uthreads[slot]->uctx`. -/
  | saved (slot : Nat)
  /-- The initial context of a uthread is resumed. -/
  | started (slot : Nat)
  /-- The body of uthread `i` is entered on a stack. -/
  | entered (i stack : Nat)
  /-- The body of uthread `i` has reached its end. -/
  | finished (i : Nat)
  deriving DecidableEq

/-- The body of uthread `i` is entered. -/
def Event.enters (i : Nat) : Event → Bool
  | .entered j _ => j == i
  | _ => false

/-- The process. An entry of `uthreads` is null or points to the uthread created with its index. -/
structure State where
  /-- The OS thread of `main`. -/
  pc : Pc
  /-- The checker. -/
  check : Check
  /-- `uthread_count`. -/
  count : Nat
  /-- `uthread_cur`. -/
  cur : Nat
  /-- Whether `uthreads[i]` is not null. -/
  present : Nat → Bool
  /-- `is_running`. -/
  running : Nat → Flag
  /-- `is_finish`. -/
  finish : Nat → Flag
  /-- `uctx`. -/
  ctx : Nat → Ctx
  /-- `stop_work_checker`. -/
  stop : Bool
  /-- What happened so far. -/
  log : List Event

/-- The OS thread or the checker. -/
inductive Who where
  /-- The OS thread of `main` and the uthreads. -/
  | main
  /-- The checker. -/
  | checker
  deriving DecidableEq

/-- Where a caller of `schedule` goes on. -/
def Caller.resume : Caller → Pc
  | .main => .mainTest
  | .body stack i left => .body stack i left

namespace State

/-- The state before the first `uthread_create`. -/
def boot : State where
  pc := .mainTest
  check := .test 0
  count := 0
  cur := 0
  present _ := false
  running _ := .fill
  finish _ := .fill
  ctx _ := .initial
  stop := false
  log := []

/-- `uthread_create`. -/
def uthreadCreate (state : State) : State :=
  { state with
    running := Function.update state.running state.count .fill
    finish := Function.update state.finish state.count .fill
    present := Function.update state.present state.count true
    ctx := Function.update state.ctx state.count .initial
    count := state.count + 1 }

/-- The state after so many calls of `uthread_create`. -/
def created : Nat → State
  | 0 => boot
  | count + 1 => (created count).uthreadCreate

/-- The state behind `pthread_create`. -/
def start (setup : Setup) : State := created setup.threads

/-- The OS thread goes on elsewhere. -/
def goto (state : State) (pc : Pc) : State := { state with pc := pc }

/-- `uthreads[i]` is used, if it is not null. -/
def through (state : State) (i : Nat) (kind : Fault) (after : State) : State :=
  if state.present i then after else state.goto (.fault kind)

/-- `uthreads[i]->is_running == false`. -/
def notRunning (setup : Setup) (state : State) (i : Nat) : Bool :=
  match state.running i with
  | .fill => setup.runningFalse
  | .set => false

/-- `uthreads[i]->is_finish == true`. -/
def finished (setup : Setup) (state : State) (i : Nat) : Bool :=
  match state.finish i with
  | .fill => setup.finishTrue
  | .set => true

/-- The second half of `swapcontext`: a context is resumed. -/
def resume (state : State) (slot : Nat) : State :=
  match state.ctx slot with
  | .initial => { state with pc := .startTest slot 0, log := state.log ++ [.started slot] }
  | .saved caller => state.goto caller.resume

/-- `swapcontext`: the caller is saved in one slot and another one is resumed. -/
def swapcontext (state : State) (caller : Caller) (cur next : Nat) : State :=
  let saved : State := { state with
    ctx := Function.update state.ctx cur (.saved caller)
    log := state.log ++ [.saved cur] }
  saved.resume next

/-- One step of the OS thread of `main`. -/
def mainStep (setup : Setup) (state : State) : Option State :=
  match state.pc with
  | .mainTest => some (state.goto (if 0 < state.count then .schedCur .main else .mainJoin))
  | .mainJoin => if state.check = .done then some (state.goto .exited) else none
  | .startTest stack i =>
    some (state.goto (if i < state.count then .startFlag stack i else .exited))
  | .startFlag stack i => some (state.through i .startNull
      (state.goto
        (if state.notRunning setup i then .startSet stack i else .startTest stack (i + 1))))
  | .startSet stack i => some (state.through i .startNull
      { state with pc := .startFunc stack i, running := Function.update state.running i .set })
  | .startFunc stack i => some (state.through i .startNull (state.goto (.startCall stack i)))
  | .startCall stack i => some (state.through i .startNull
      { state with pc := .body stack i (setup.calls i), log := state.log ++ [.entered i stack] })
  | .body stack i 0 => some (state.goto (.finish stack i))
  | .body stack i (left + 1) => some (state.goto (.schedCur (.body stack i left)))
  | .finish stack i => some (state.through i .finishNull
      { state with
        pc := .wait stack i
        finish := Function.update state.finish i .set
        log := state.log ++ [.finished i] })
  | .wait stack i =>
    some (state.goto (if state.stop then .startTest stack (i + 1) else .wait stack i))
  | .schedCur caller =>
    some (state.through state.cur .scheduleNull (state.goto (.schedCount caller state.cur)))
  | .schedCount caller cur =>
    some (if state.count = 0 then state.goto (.fault .divide)
      else { state with pc := .schedNext caller cur, cur := (state.cur + 1) % state.count })
  | .schedNext caller cur =>
    some (state.through state.cur .scheduleNull (state.goto (.swap caller cur state.cur)))
  | .swap caller cur next => some (state.swapcontext caller cur next)
  | .exited | .fault _ => none

/-- One step of `checker_finish_thread`. -/
def checkStep (setup : Setup) (state : State) : Option State :=
  match state.check with
  | .test killed =>
    some { state with check := if killed < state.count then .loop killed 0 else .zero }
  | .loop killed i =>
    some { state with check := if i < state.count then .entry killed i else .test killed }
  | .entry killed i =>
    some { state with check := if state.present i then .flag killed i else .loop killed (i + 1) }
  | .flag killed i =>
    some { state with
      check := if state.finished setup i then .clear killed i else .loop killed (i + 1) }
  | .clear killed i => some { state with
      check := .loop (killed + 1) (i + 1)
      present := Function.update state.present i false }
  | .zero => some { state with check := .stop, count := 0 }
  | .stop => some { state with check := .done, stop := true }
  | .done => none

/-- One step of the process, until it has ended. -/
def next (setup : Setup) (state : State) (who : Who) : Option State :=
  match state.pc, who with
  | .exited, _ | .fault _, _ => none
  | _, .main => state.mainStep setup
  | _, .checker => state.checkStep setup

/-- Every step of the OS thread of `main`, one constructor for each outcome. -/
inductive MainStep (setup : Setup) (state : State) : State → Prop
  /-- The loop of `main` goes on. -/
  | mainOn (here : state.pc = .mainTest) (some : 0 < state.count) :
    MainStep setup state (state.goto (.schedCur .main))
  /-- The loop of `main` ends. -/
  | mainEnd (here : state.pc = .mainTest) (none : state.count = 0) :
    MainStep setup state (state.goto .mainJoin)
  /-- `main` joins the checker and returns. -/
  | join (here : state.pc = .mainJoin) (done : state.check = .done) :
    MainStep setup state (state.goto .exited)
  /-- The loop of `start_thread` goes on. -/
  | startOn {stack i : Nat} (here : state.pc = .startTest stack i) (more : i < state.count) :
    MainStep setup state (state.goto (.startFlag stack i))
  /-- `start_thread` returns, and `uc_link` is null. -/
  | startEnd {stack i : Nat} (here : state.pc = .startTest stack i) (all : state.count ≤ i) :
    MainStep setup state (state.goto .exited)
  /-- A uthread is not running. -/
  | flagged {stack i : Nat} (here : state.pc = .startFlag stack i) (live : state.present i = true)
    (reads : state.notRunning setup i = true) :
    MainStep setup state (state.goto (.startSet stack i))
  /-- A uthread is running. -/
  | skipped {stack i : Nat} (here : state.pc = .startFlag stack i) (live : state.present i = true)
    (reads : state.notRunning setup i = false) :
    MainStep setup state (state.goto (.startTest stack (i + 1)))
  /-- `is_running` is set. -/
  | set {stack i : Nat} (here : state.pc = .startSet stack i) (live : state.present i = true) :
    MainStep setup state
      { state with pc := .startFunc stack i, running := Function.update state.running i .set }
  /-- `thread_func` is loaded. -/
  | load {stack i : Nat} (here : state.pc = .startFunc stack i) (live : state.present i = true) :
    MainStep setup state (state.goto (.startCall stack i))
  /-- The body is entered. -/
  | enter {stack i : Nat} (here : state.pc = .startCall stack i) (live : state.present i = true) :
    MainStep setup state
      { state with pc := .body stack i (setup.calls i), log := state.log ++ [.entered i stack] }
  /-- The loop of a body ends. -/
  | bodyEnd {stack i : Nat} (here : state.pc = .body stack i 0) :
    MainStep setup state (state.goto (.finish stack i))
  /-- A body calls `schedule`. -/
  | bodyCall {stack i left : Nat} (here : state.pc = .body stack i (left + 1)) :
    MainStep setup state (state.goto (.schedCur (.body stack i left)))
  /-- `is_finish` is set. -/
  | finish {stack i : Nat} (here : state.pc = .finish stack i) (live : state.present i = true) :
    MainStep setup state
      { state with
        pc := .wait stack i
        finish := Function.update state.finish i .set
        log := state.log ++ [.finished i] }
  /-- The checker has stopped, and the body returns. -/
  | released {stack i : Nat} (here : state.pc = .wait stack i) (stopped : state.stop = true) :
    MainStep setup state (state.goto (.startTest stack (i + 1)))
  /-- The body waits on. -/
  | waits {stack i : Nat} (here : state.pc = .wait stack i) (going : state.stop = false) :
    MainStep setup state (state.goto (.wait stack i))
  /-- `schedule` takes the slot to save in. -/
  | slot {caller : Caller} (here : state.pc = .schedCur caller)
    (live : state.present state.cur = true) :
    MainStep setup state (state.goto (.schedCount caller state.cur))
  /-- `schedule` goes to the next uthread. -/
  | advance {caller : Caller} {cur : Nat} (here : state.pc = .schedCount caller cur)
    (some : state.count ≠ 0) : MainStep setup state
      { state with pc := .schedNext caller cur, cur := (state.cur + 1) % state.count }
  /-- `schedule` takes the slot to resume. -/
  | target {caller : Caller} {cur : Nat} (here : state.pc = .schedNext caller cur)
    (live : state.present state.cur = true) :
    MainStep setup state (state.goto (.swap caller cur state.cur))
  /-- The contexts are swapped. -/
  | swap {caller : Caller} {cur next : Nat} (here : state.pc = .swap caller cur next) :
    MainStep setup state (state.swapcontext caller cur next)
  /-- `start_thread` meets a null entry. -/
  | startNull {stack i : Nat} (here : state.pc = .startFlag stack i ∨ state.pc = .startSet stack i ∨
      state.pc = .startFunc stack i ∨ state.pc = .startCall stack i)
    (gone : state.present i = false) : MainStep setup state (state.goto (.fault .startNull))
  /-- A body meets a null entry. -/
  | finishNull {stack i : Nat} (here : state.pc = .finish stack i)
    (gone : state.present i = false) :
    MainStep setup state (state.goto (.fault .finishNull))
  /-- `schedule` meets a null entry. -/
  | scheduleNull
    (here : ∃ caller, state.pc = .schedCur caller ∨ ∃ cur, state.pc = .schedNext caller cur)
    (gone : state.present state.cur = false) :
    MainStep setup state (state.goto (.fault .scheduleNull))
  /-- `schedule` divides by zero. -/
  | divide {caller : Caller} {cur : Nat} (here : state.pc = .schedCount caller cur)
    (none : state.count = 0) : MainStep setup state (state.goto (.fault .divide))

/-- What holds after the use of an entry that is there and after that of a null entry holds after
the use of any. -/
theorem through_of {property : State → Prop} {state after : State} {i : Nat} {kind : Fault}
    (there : state.present i = true → property after)
    (null : state.present i = false → property (state.goto (.fault kind))) :
    property (state.through i kind after) := by
  unfold through
  cases present : state.present i with
  | true => exact there present
  | false => exact null present

/-- The OS thread makes no step but these. -/
theorem mainStep_cases {setup : Setup} {state after : State}
    (step : state.mainStep setup = some after) : MainStep setup state after := by
  unfold mainStep at step
  split at step
  case h_1 here =>
    obtain rfl := Option.some.inj step
    split
    · exact .mainOn here ‹_›
    · exact .mainEnd here (by omega)
  case h_2 here =>
    rw [Option.ite_none_right_eq_some] at step
    exact Option.some.inj step.2 ▸ .join here step.1
  case h_3 stack i here =>
    obtain rfl := Option.some.inj step
    split
    · exact .startOn here ‹_›
    · exact .startEnd here (by omega)
  case h_4 stack i here =>
    obtain rfl := Option.some.inj step
    apply through_of
    · intro live
      cases reads : state.notRunning setup i with
      | true => exact .flagged here live reads
      | false => exact .skipped here live reads
    · exact .startNull (.inl here)
  case h_5 stack i here =>
    obtain rfl := Option.some.inj step
    apply through_of
    · exact .set here
    · exact .startNull (.inr (.inl here))
  case h_6 stack i here =>
    obtain rfl := Option.some.inj step
    apply through_of
    · exact .load here
    · exact .startNull (.inr (.inr (.inl here)))
  case h_7 stack i here =>
    obtain rfl := Option.some.inj step
    apply through_of
    · exact .enter here
    · exact .startNull (.inr (.inr (.inr here)))
  case h_8 stack i here => exact Option.some.inj step ▸ .bodyEnd here
  case h_9 stack i left here => exact Option.some.inj step ▸ .bodyCall here
  case h_10 stack i here =>
    obtain rfl := Option.some.inj step
    apply through_of
    · exact .finish here
    · exact .finishNull here
  case h_11 stack i here =>
    obtain rfl := Option.some.inj step
    cases stopped : state.stop with
    | true => exact .released here stopped
    | false => exact .waits here stopped
  case h_12 caller here =>
    obtain rfl := Option.some.inj step
    apply through_of
    · exact .slot here
    · exact .scheduleNull ⟨caller, .inl here⟩
  case h_13 caller cur here =>
    obtain rfl := Option.some.inj step
    split
    · exact .divide here ‹_›
    · exact .advance here ‹_›
  case h_14 caller cur here =>
    obtain rfl := Option.some.inj step
    apply through_of
    · exact .target here
    · exact .scheduleNull ⟨caller, .inr ⟨cur, here⟩⟩
  case h_15 caller cur next here => exact Option.some.inj step ▸ .swap here
  case h_16 => cases step
  case h_17 => cases step

/-- A step of the process is one of the OS thread or one of the checker. -/
theorem next_cases {setup : Setup} {state after : State} {who : Who}
    (step : state.next setup who = some after) :
    (who = .main ∧ MainStep setup state after) ∨
      (who = .checker ∧ state.checkStep setup = some after) := by
  unfold next at step
  split at step
  · cases step
  · cases step
  · exact .inl ⟨rfl, mainStep_cases step⟩
  · exact .inr ⟨rfl, step⟩

/-- The checker leaves the OS thread, the contexts and the flags alone. -/
theorem checkStep_frame {setup : Setup} {state after : State}
    (step : state.checkStep setup = some after) :
    after.pc = state.pc ∧ after.cur = state.cur ∧ after.finish = state.finish ∧
      after.ctx = state.ctx ∧ after.log = state.log := by
  unfold checkStep at step
  split at step
  case h_8 => cases step
  all_goals exact Option.some.inj step ▸ ⟨rfl, rfl, rfl, rfl, rfl⟩

/-- The state after some calls of `uthread_create`. -/
theorem created_eq (count : Nat) :
    created count = { boot with count := count, present := fun i => decide (i < count) } := by
  induction count with
  | zero => rfl
  | succ count ih =>
    rw [created, ih]
    unfold uthreadCreate
    have flags : ∀ flag : Flag, Function.update (fun _ : Nat => flag) count flag = fun _ => flag :=
      fun flag => Function.update_eq_self (f := fun _ => flag) count
    have contexts :
        Function.update (fun _ : Nat => Ctx.initial) count .initial = fun _ => .initial :=
      Function.update_eq_self (f := fun _ => Ctx.initial) count
    have entries : Function.update (fun i => decide (i < count)) count true =
        fun i => decide (i < count + 1) := by
      funext i
      by_cases last : i = count
      · simp [last]
      · have same : i < count ↔ i < count + 1 := by omega
        simp [last, same]
    simp only [boot, flags, contexts, entries]

/-- `swapcontext` saves its caller. -/
theorem ctx_swapcontext (state : State) (caller : Caller) (cur next : Nat) :
    (state.swapcontext caller cur next).ctx = Function.update state.ctx cur (.saved caller) := by
  unfold swapcontext resume
  dsimp only
  split <;> rfl

/-- `swapcontext` leaves a trace of the slot it saved in. -/
theorem log_swapcontext (state : State) (caller : Caller) (cur next : Nat) :
    ∃ more, (state.swapcontext caller cur next).log = state.log ++ .saved cur :: more := by
  unfold swapcontext resume
  dsimp only
  split
  · exact ⟨[.started next], List.append_assoc _ _ _⟩
  · exact ⟨[], rfl⟩

end State

/-- `main` is on its way to its first swap, which saves it in slot 0. -/
def Pc.First (cur : Nat) : Pc → Prop
  | .mainTest | .schedCur .main => cur = 0
  | .schedCount .main slot | .schedNext .main slot | .swap .main slot _ => slot = 0
  | .mainJoin | .exited | .fault _ => True
  | _ => False

namespace State

variable {setup : Setup} {state after : State}

/-- Nothing was swapped yet, or the first swap has overwritten the context of uthread 0. -/
def Opening (state : State) : Prop :=
  (state.log = [] ∧ state.pc.First state.cur) ∨
    ((∃ rest, state.log = .saved 0 :: rest) ∧ state.ctx 0 ≠ .initial)

/-- A step of the OS thread only adds to the log, and saves callers only. -/
theorem MainStep.grows (step : MainStep setup state after) :
    (∃ more, after.log = state.log ++ more) ∧
      (state.ctx 0 ≠ .initial → after.ctx 0 ≠ .initial) := by
  cases step with
  | enter here live => exact ⟨⟨_, rfl⟩, fun old => old⟩
  | finish here live => exact ⟨⟨_, rfl⟩, fun old => old⟩
  | @swap caller cur next here =>
    obtain ⟨more, log⟩ := log_swapcontext state caller cur next
    refine ⟨⟨_, log⟩, ?_⟩
    intro old
    rw [ctx_swapcontext]
    by_cases first : 0 = cur
    · subst first
      rw [Function.update_self]
      exact Ctx.saved_ne_initial caller
    · rw [Function.update_of_ne first]
      exact old
  | _ => exact ⟨⟨[], (List.append_nil _).symm⟩, fun old => old⟩

/-- Before the first swap the OS thread stays on the way to it. -/
theorem MainStep.first (step : MainStep setup state after) (none : state.log = [])
    (first : state.pc.First state.cur) : after.Opening := by
  cases step with
  | mainOn here some =>
    rw [here] at first
    exact .inl ⟨none, first⟩
  | mainEnd | join | startEnd | startNull | finishNull | scheduleNull | divide =>
    exact .inl ⟨none, trivial⟩
  | @slot caller here live =>
    rw [here] at first
    cases caller with
    | main => exact .inl ⟨none, first⟩
    | body stack i left => exact first.elim
  | @advance caller cur here some =>
    rw [here] at first
    cases caller with
    | main => exact .inl ⟨none, first⟩
    | body stack i left => exact first.elim
  | @target caller cur here live =>
    rw [here] at first
    cases caller with
    | main => exact .inl ⟨none, first⟩
    | body stack i left => exact first.elim
  | @swap caller cur next here =>
    rw [here] at first
    cases caller with
    | main =>
      obtain rfl : cur = 0 := first
      obtain ⟨more, log⟩ := log_swapcontext state .main 0 next
      refine .inr ⟨⟨more, by rw [log, none]; rfl⟩, ?_⟩
      rw [ctx_swapcontext, Function.update_self]
      exact Ctx.saved_ne_initial .main
    | body stack i left => exact first.elim
  | startOn here | flagged here | skipped here | set here | load here | enter here | bodyEnd here
  | bodyCall here | finish here | released here | waits here =>
    rw [here] at first
    exact first.elim

/-- A step keeps the opening. -/
theorem Opening.next {who : Who} (opening : state.Opening)
    (step : state.next setup who = some after) : after.Opening := by
  rcases next_cases step with ⟨-, moved⟩ | ⟨-, checked⟩
  · rcases opening with ⟨none, first⟩ | ⟨⟨rest, log⟩, overwritten⟩
    · exact moved.first none first
    · obtain ⟨⟨more, grown⟩, kept⟩ := moved.grows
      exact .inr ⟨⟨rest ++ more, by rw [grown, log]; rfl⟩, kept overwritten⟩
  · obtain ⟨pc, cur, -, ctx, log⟩ := checkStep_frame checked
    unfold Opening
    rw [pc, cur, ctx, log]
    exact opening

/-- Every state reached is in the opening or behind it. -/
theorem opening_run {trace : List Who} (run : exec (next setup) (start setup) trace = some state) :
    state.Opening := by
  refine exec_invariant (fun _ _ _ opening step => Opening.next opening step) ?_ run
  rw [start, created_eq]
  exact .inl ⟨rfl, rfl⟩

/-- The checker never raises the count. -/
theorem checkStep_count (step : state.checkStep setup = some after) :
    after.count ≤ state.count := by
  unfold checkStep at step
  split at step
  case h_8 => cases step
  case h_6 => exact Option.some.inj step ▸ Nat.zero_le _
  all_goals exact Option.some.inj step ▸ Nat.le_refl _

end State

/-- A caller of `schedule` is `main`, or runs on the stack of a uthread other than the first. -/
def Caller.Placed (threads : Nat) : Caller → Prop
  | .main => True
  | .body stack i _ => 0 < stack ∧ stack < threads ∧ i < threads

/-- No program point is on the stack of uthread 0. -/
def Pc.Placed (threads : Nat) : Pc → Prop
  | .startTest stack _ => 0 < stack ∧ stack < threads
  | .startFlag stack i | .startSet stack i | .startFunc stack i | .startCall stack i
  | .body stack i _ | .finish stack i | .wait stack i => 0 < stack ∧ stack < threads ∧ i < threads
  | .schedCur caller | .schedCount caller _ | .schedNext caller _ => caller.Placed threads
  | .swap caller _ next => caller.Placed threads ∧ next < threads
  | .mainTest | .mainJoin | .exited | .fault _ => True

/-- Where a placed caller goes on is placed. -/
theorem Caller.Placed.resume {threads : Nat} {caller : Caller} (placed : caller.Placed threads) :
    caller.resume.Placed threads := by
  cases caller with
  | main => trivial
  | body stack i left => exact placed

namespace State

variable {setup : Setup} {state after : State}

/-- Nothing runs on the stack of uthread 0 or will be resumed there. -/
structure Placed (setup : Setup) (state : State) : Prop where
  /-- The count is that of the uthreads created, or smaller. -/
  count : state.count ≤ setup.threads
  /-- The current uthread is one of them. -/
  cur : state.cur < setup.threads
  /-- The OS thread is elsewhere. -/
  pc : state.pc.Placed setup.threads
  /-- The callers saved are elsewhere. -/
  ctx : ∀ slot caller, state.ctx slot = .saved caller → caller.Placed setup.threads
  /-- No body was entered there. -/
  entered : ∀ i stack, .entered i stack ∈ state.log → 0 < stack

/-- Going on at a placed program point. -/
theorem Placed.goto (placed : state.Placed setup) {pc : Pc} (there : pc.Placed setup.threads) :
    (state.goto pc).Placed setup :=
  ⟨placed.count, placed.cur, there, placed.ctx, placed.entered⟩

/-- The slot resumed as its uthread was created is not the first. -/
theorem Opening.next_ne_zero (opening : state.Opening) {caller : Caller} {cur next : Nat}
    (here : state.pc = .swap caller cur next)
    (fresh : Function.update state.ctx cur (.saved caller) next = .initial) : next ≠ 0 := by
  rintro rfl
  by_cases same : 0 = cur
  · subst same
    rw [Function.update_self] at fresh
    cases fresh
  · rw [Function.update_of_ne same] at fresh
    rcases opening with ⟨-, first⟩ | ⟨-, overwritten⟩
    · rw [here] at first
      cases caller with
      | main => exact same first.symm
      | body stack i left => exact first
    · exact overwritten fresh

/-- A swap resumes no stack of uthread 0. -/
theorem Placed.swapcontext (placed : state.Placed setup) (opening : state.Opening) {caller : Caller}
    {cur next : Nat} (here : state.pc = .swap caller cur next) :
    (state.swapcontext caller cur next).Placed setup := by
  obtain ⟨saving, inside⟩ : caller.Placed setup.threads ∧ next < setup.threads := by
    have there := placed.pc
    rw [here] at there
    exact there
  have contexts : ∀ slot other, Function.update state.ctx cur (.saved caller) slot = .saved other →
      other.Placed setup.threads := by
    intro slot other holds
    by_cases same : slot = cur
    · subst same
      rw [Function.update_self] at holds
      cases holds
      exact saving
    · rw [Function.update_of_ne same] at holds
      exact placed.ctx slot other holds
  have quiet : ∀ i stack more, .entered i stack ∈ state.log ++ more →
      (∀ j other, .entered j other ∉ more) → 0 < stack := by
    intro i stack more member nothing
    rcases List.mem_append.mp member with old | new
    · exact placed.entered i stack old
    · exact absurd new (nothing i stack)
  unfold State.swapcontext State.resume
  dsimp only
  split
  · rename_i fresh
    have positive : 0 < next := Nat.pos_of_ne_zero (opening.next_ne_zero here fresh)
    refine ⟨placed.count, placed.cur, ⟨positive, inside⟩, contexts, ?_⟩
    intro i stack member
    rw [List.append_assoc] at member
    exact quiet i stack _ member (by simp)
  · rename_i other resumed
    refine ⟨placed.count, placed.cur, (contexts next other resumed).resume, contexts, ?_⟩
    intro i stack member
    exact quiet i stack _ member (by simp)

/-- A step of the OS thread keeps to the other stacks. -/
theorem MainStep.placed (step : MainStep setup state after) (placed : state.Placed setup)
    (opening : state.Opening) : after.Placed setup := by
  have there := placed.pc
  have count := placed.count
  cases step with
  | mainOn | mainEnd | join | startEnd | startNull | finishNull | scheduleNull | divide =>
    exact placed.goto trivial
  | startOn here more =>
    rw [here] at there
    exact placed.goto ⟨there.1, there.2, by omega⟩
  | skipped here live reads | released here stopped =>
    rw [here] at there
    exact placed.goto ⟨there.1, there.2.1⟩
  | flagged here | load here | bodyEnd here | bodyCall here | waits here | slot here =>
    rw [here] at there
    exact placed.goto there
  | set here live =>
    rw [here] at there
    exact ⟨placed.count, placed.cur, there, placed.ctx, placed.entered⟩
  | @enter stack i here live =>
    rw [here] at there
    refine ⟨placed.count, placed.cur, there, placed.ctx, ?_⟩
    intro j other member
    rcases List.mem_append.mp member with old | new
    · exact placed.entered j other old
    · cases List.mem_singleton.mp new
      exact there.1
  | finish here live =>
    rw [here] at there
    refine ⟨placed.count, placed.cur, there, placed.ctx, ?_⟩
    intro j other member
    rcases List.mem_append.mp member with old | new
    · exact placed.entered j other old
    · cases List.mem_singleton.mp new
  | advance here some_ =>
    rw [here] at there
    have inside := Nat.mod_lt (state.cur + 1) (Nat.pos_of_ne_zero some_)
    exact ⟨placed.count, Nat.lt_of_lt_of_le inside count, there, placed.ctx, placed.entered⟩
  | target here live =>
    rw [here] at there
    exact placed.goto ⟨there, placed.cur⟩
  | swap here => exact placed.swapcontext opening here

/-- Every state reached keeps to the other stacks. -/
theorem placed_run (some_ : 0 < setup.threads) {trace : List Who}
    (run : exec (next setup) (start setup) trace = some state) : state.Placed setup := by
  refine exec_induct (motive := fun _ state => state.Placed setup) ?_ ?_ run
  · rw [start, created_eq]
    refine ⟨Nat.le_refl _, some_, trivial, ?_, ?_⟩
    · intro slot caller holds
      cases holds
    · intro i stack member
      cases member
  · intro labels middle who finish earlier placed step
    rcases next_cases step with ⟨-, moved⟩ | ⟨-, checked⟩
    · exact moved.placed placed (opening_run earlier)
    · obtain ⟨pc, cur, -, ctx, log⟩ := checkStep_frame checked
      refine ⟨Nat.le_trans (checkStep_count checked) placed.count, ?_, ?_, ?_, ?_⟩
      · rw [cur]
        exact placed.cur
      · rw [pc]
        exact placed.pc
      · rw [ctx]
        exact placed.ctx
      · rw [log]
        exact placed.entered

/-- No body is ever entered on the context of uthread 0. -/
theorem never_on_first {trace : List Who} (some_ : 0 < setup.threads)
    (run : exec (next setup) (start setup) trace = some state) (i : Nat) :
    .entered i 0 ∉ state.log := by
  intro member
  exact Nat.lt_irrefl 0 ((placed_run some_ run).entered i 0 member)

/-- Each uthread runs once and on its own context. -/
structure OwnContext (setup : Setup) (state : State) : Prop where
  /-- A body is entered on the stack of its uthread. -/
  own : ∀ i stack, .entered i stack ∈ state.log → stack = i
  /-- A body is entered once at most. -/
  once : ∀ i, state.log.countP (Event.enters i) ≤ 1
  /-- Every body has been entered when the process ends. -/
  all : state.pc = .exited → ∀ i < setup.threads, state.log.countP (Event.enters i) = 1
  /-- A context is overwritten only after it was started. -/
  kept : ∀ before later slot, state.log = before ++ .saved slot :: later → .started slot ∈ before
  /-- `is_finish` reads true only after the body has reached its end. -/
  flagged : ∀ i < setup.threads, state.finished setup i = true → .finished i ∈ state.log

/-- The first call of `schedule`. -/
def firstCall : List Who := [.main, .main, .main, .main, .main]

/-- The first call of `schedule` can be made. -/
theorem firstCall_run (some_ : 1 ≤ setup.threads) :
    ∃ state, exec (next setup) (start setup) firstCall = some state ∧ .saved 0 ∈ state.log := by
  have positive : 0 < setup.threads := some_
  have nonzero : setup.threads ≠ 0 := by omega
  have inside : (0 + 1) % setup.threads < setup.threads := Nat.mod_lt _ positive
  rw [start, created_eq]
  simp only [firstCall, exec, next, mainStep, goto, through, boot, if_pos positive, if_neg nonzero,
    Option.bind_some, decide_eq_true_eq, inside, if_true]
  refine ⟨_, rfl, ?_⟩
  obtain ⟨more, log⟩ := log_swapcontext _ .main 0 _
  rw [log]
  exact List.mem_append_right _ List.mem_cons_self

/-- A run in which a context was swapped has overwritten the one that was to start uthread 0. -/
theorem overwritten {trace : List Who} (run : exec (next setup) (start setup) trace = some state)
    {slot : Nat} (saved : .saved slot ∈ state.log) : ¬state.OwnContext setup := by
  intro own
  rcases opening_run run with ⟨none, -⟩ | ⟨⟨rest, log⟩, -⟩
  · rw [none] at saved
    cases saved
  · have started : .started 0 ∈ ([] : List Event) := own.kept [] rest 0 log
    cases started

/-- In no program does each uthread run on its own context: every run in which a context was swapped
has overwritten the one that was to start uthread 0, there are such runs, and in none is a body
entered on that context. -/
theorem own_context_lost (setup : Setup) (some_ : 1 ≤ setup.threads) :
    (∃ trace state, exec (next setup) (start setup) trace = some state ∧
      ∃ slot, .saved slot ∈ state.log) ∧
    ∀ trace state, exec (next setup) (start setup) trace = some state →
      ((∃ slot, .saved slot ∈ state.log) → ¬state.OwnContext setup) ∧
        ∀ i, .entered i 0 ∉ state.log := by
  constructor
  · obtain ⟨state, run, saved⟩ := firstCall_run some_
    exact ⟨firstCall, state, run, 0, saved⟩
  · intro trace state run
    refine ⟨?_, never_on_first some_ run⟩
    rintro ⟨slot, saved⟩
    exact overwritten run saved

/-- The program of the source: three uthreads that call `schedule` five times; a fill that is not
zero passes both tests. -/
def sourceSetup : Setup := ⟨3, fun _ => 5, true, true⟩

/-- The program of the source loses a context. -/
theorem own_context_lost_source :
    1 ≤ sourceSetup.threads ∧
      (∃ trace state, exec (next sourceSetup) (start sourceSetup) trace = some state ∧
        ∃ slot, .saved slot ∈ state.log) ∧
      ∀ trace state, exec (next sourceSetup) (start sourceSetup) trace = some state →
        ((∃ slot, .saved slot ∈ state.log) → ¬state.OwnContext sourceSetup) ∧
          ∀ i, .entered i 0 ∉ state.log :=
  ⟨by decide, own_context_lost sourceSetup (by decide)⟩

/-- Not every run of every program keeps the contexts. -/
theorem main_takes_slot :
    ¬∀ setup : Setup, 1 ≤ setup.threads → setup.threads ≤ maxThread →
      ∀ trace state, exec (next setup) (start setup) trace = some state →
        state.OwnContext setup := by
  intro claim
  have first : 1 ≤ sourceSetup.threads := by decide
  obtain ⟨state, run, saved⟩ := firstCall_run first
  exact overwritten run saved (claim sourceSetup first (by decide) firstCall state run)

end State

end NsuOs.Uthreads
