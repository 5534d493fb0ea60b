import NsuOs.Uthreads.Checker

/-!
# How a program with uthreads ends

While no body has finished, `schedule` passes the OS thread round the slots: `main` runs in slot 0,
and what is saved in a slot goes on in it. Each call of `schedule` by a body uses up one of its
calls and each body is entered once, so the OS thread makes a bounded number of steps until a body
finishes or `start_thread` runs off its end. A body that has finished keeps the OS thread, and the
checker, which waits for all of them, never stops: with flags that read as false the program hangs.
-/
namespace NsuOs.Uthreads

open NsuOs.Run

/-- The slot a caller of `schedule` runs in. -/
def Caller.home : Caller → Nat
  | .main => 0
  | .body stack _ _ => stack

/-- The calls of `schedule` a caller has left. -/
def Caller.left : Caller → Nat
  | .main => 0
  | .body _ _ left => left

/-- The calls left to what a context goes on with. -/
def Ctx.left : Ctx → Nat
  | .initial => 0
  | .saved caller => caller.left

/-- The slot the OS thread runs in. -/
def Pc.home : Pc → Nat
  | .startTest stack _ | .startFlag stack _ | .startSet stack _ | .startFunc stack _
  | .startCall stack _ | .body stack _ _ | .finish stack _ | .wait stack _ => stack
  | .schedCur caller | .schedCount caller _ | .schedNext caller _ | .swap caller _ _ => caller.home
  | .mainTest | .mainJoin | .exited | .fault _ => 0

/-- The calls the running body has left. -/
def Pc.left (setup : Setup) : Pc → Nat
  | .startFunc _ i | .startCall _ i => setup.calls i
  | .body _ _ left => left
  | .schedCur caller | .schedCount caller _ | .schedNext caller _ | .swap caller _ _ => caller.left
  | _ => 0

/-- The steps to the next call of `schedule` by a body or to the next body, at most. -/
def Pc.rank (threads : Nat) : Pc → Nat
  | .schedCur (.body _ _ _) => 2 * threads + 15
  | .schedCount (.body _ _ _) _ => 2 * threads + 14
  | .schedNext (.body _ _ _) _ => 2 * threads + 13
  | .swap (.body _ _ _) _ _ => 2 * threads + 12
  | .mainTest => 2 * threads + 11
  | .schedCur .main => 2 * threads + 10
  | .schedCount .main _ => 2 * threads + 9
  | .schedNext .main _ => 2 * threads + 8
  | .swap .main _ _ => 2 * threads + 7
  | .startTest _ i => 2 * (threads - i) + 6
  | .startFlag _ i => 2 * (threads - i) + 5
  | .startSet _ _ => 5
  | .startFunc _ _ => 4
  | .startCall _ _ => 3
  | .body _ _ _ => 2
  | .finish _ _ => 1
  | .wait _ _ | .mainJoin | .exited | .fault _ => 0

/-- The OS thread runs in the slot `uthread_cur`, or is on its way from it to the next one. -/
def Pc.At (threads cur : Nat) : Pc → Prop
  | .mainTest => cur = 0
  | .startTest stack _ | .startFlag stack _ | .startSet stack _ | .startFunc stack _
  | .startCall stack _ | .body stack _ _ | .finish stack _ | .wait stack _ => cur = stack
  | .schedCur caller => cur = caller.home
  | .schedCount caller slot => slot = caller.home ∧ cur = slot
  | .schedNext caller slot => slot = caller.home ∧ cur = (slot + 1) % threads
  | .swap caller slot next => slot = caller.home ∧ next = (slot + 1) % threads ∧ cur = next
  | .mainJoin => False
  | .exited | .fault _ => True

/-- Where a caller goes on when its slot is the current one. -/
theorem Caller.resume_at {threads cur : Nat} {caller : Caller} (home : caller.home = cur) :
    caller.resume.At threads cur := by
  cases caller with
  | main => exact home.symm
  | body stack i left => exact home.symm

/-- A caller goes on in its slot, with the calls it has left, and sets no flag there. -/
theorem Caller.resume_eq (setup : Setup) (caller : Caller) :
    caller.resume.home = caller.home ∧ caller.resume.left setup = caller.left ∧
      ∀ stack i, caller.resume ≠ .startSet stack i := by
  cases caller with
  | main => exact ⟨rfl, rfl, by intro stack i same; cases same⟩
  | body stack i left => exact ⟨rfl, rfl, by intro stack i same; cases same⟩

namespace State

variable {setup : Setup} {state after : State}

/-- Everything runs in its own slot. -/
structure Homed (setup : Setup) (state : State) : Prop where
  /-- The OS thread is in the current slot. -/
  pc : state.pc.At setup.threads state.cur
  /-- What is saved in a slot goes on there. -/
  ctx : ∀ slot caller, state.ctx slot = .saved caller → caller.home = slot
  /-- A flag about to be set is not set. -/
  unset : ∀ stack i, state.pc = .startSet stack i → state.running i = .fill

/-- What a swap saves goes on in its slot. -/
theorem Homed.saved (homed : state.Homed setup) {caller : Caller} {cur : Nat}
    (own : cur = caller.home) (slot : Nat) (other : Caller)
    (holds : Function.update state.ctx cur (.saved caller) slot = .saved other) :
    other.home = slot := by
  by_cases same : slot = cur
  · subst same
    rw [Function.update_self] at holds
    cases holds
    exact own.symm
  · rw [Function.update_of_ne same] at holds
    exact homed.ctx slot other holds

/-- What `schedule` knows when it swaps. -/
theorem Homed.swap_at (homed : state.Homed setup) {caller : Caller} {cur next : Nat}
    (here : state.pc = .swap caller cur next) :
    cur = caller.home ∧ next = (cur + 1) % setup.threads ∧ state.cur = next := by
  have pc := homed.pc
  rw [here] at pc
  exact pc

/-- A swap goes on in the next slot. -/
theorem Homed.swapcontext (homed : state.Homed setup) {caller : Caller} {cur next : Nat}
    (here : state.pc = .swap caller cur next) :
    (state.swapcontext caller cur next).Homed setup := by
  obtain ⟨own, -, there⟩ := homed.swap_at here
  have contexts := homed.saved own
  unfold State.swapcontext State.resume
  dsimp only
  split
  · refine ⟨there, contexts, ?_⟩
    intro stack i same
    cases same
  · rename_i other resumed
    refine ⟨Caller.resume_at ((contexts next other resumed).trans there.symm), contexts, ?_⟩
    intro stack i same
    exact absurd same ((other.resume_eq setup).2.2 stack i)

/-- A step of the OS thread keeps everything in its slot. -/
theorem MainStep.homed (step : MainStep setup state after) (homed : state.Homed setup)
    (some_ : 0 < setup.threads) (count : state.count = setup.threads) : after.Homed setup := by
  have there := homed.pc
  cases step with
  | mainOn here | startOn here | skipped here | set here | load here | enter here | bodyEnd here
  | bodyCall here | finish here | released here | waits here =>
    rw [here] at there
    exact ⟨there, homed.ctx, by intro stack i same; cases same⟩
  | @flagged stack i here live reads =>
    rw [here] at there
    refine ⟨there, homed.ctx, ?_⟩
    intro other j same
    cases same
    unfold notRunning at reads
    split at reads
    · assumption
    · cases reads
  | mainEnd here none => omega
  | join here =>
    rw [here] at there
    exact there.elim
  | startEnd | startNull | finishNull | scheduleNull | divide =>
    exact ⟨trivial, homed.ctx, by intro stack i same; cases same⟩
  | slot here =>
    rw [here] at there
    exact ⟨⟨there, rfl⟩, homed.ctx, by intro stack i same; cases same⟩
  | advance here =>
    rw [here] at there
    refine ⟨⟨there.1, ?_⟩, homed.ctx, by intro stack i same; cases same⟩
    dsimp only
    rw [there.2, count]
  | target here =>
    rw [here] at there
    exact ⟨⟨there.1, there.2, rfl⟩, homed.ctx, by intro stack i same; cases same⟩
  | swap here => exact homed.swapcontext here

/-- The checker sets no `is_running`. -/
theorem checkStep_running (step : state.checkStep setup = some after) :
    after.running = state.running := by
  unfold checkStep at step
  split at step
  case h_8 => cases step
  all_goals exact Option.some.inj step ▸ rfl

/-- In every state reached everything is in its slot. -/
theorem homed_run (some_ : 0 < setup.threads) (unset : setup.finishTrue = false)
    {trace : List Who} (run : exec (next setup) (start setup) trace = some state) :
    state.Homed setup := by
  refine exec_induct (motive := fun _ state => state.Homed setup) ?_ ?_ run
  · rw [start, created_eq]
    refine ⟨rfl, ?_, ?_⟩
    · intro slot caller holds
      cases holds
    · intro stack i same
      cases same
  · intro labels middle who finish earlier homed step
    rcases next_cases step with ⟨-, moved⟩ | ⟨-, checked⟩
    · exact moved.homed homed some_ (guarded_run some_ unset earlier).count
    · obtain ⟨pc, cur, -, ctx, -⟩ := checkStep_frame checked
      refine ⟨?_, ?_, ?_⟩
      · rw [pc, cur]
        exact homed.pc
      · rw [ctx]
        exact homed.ctx
      · rw [pc, checkStep_running checked]
        exact homed.unset

/-- The calls of `schedule` left to the bodies that were entered. -/
def load (setup : Setup) (state : State) : Nat :=
  state.pc.left setup + ∑ slot ∈ (Finset.range setup.threads).erase state.pc.home,
    (state.ctx slot).left

/-- What the bodies that were not entered may still do. -/
def unstarted (setup : Setup) (state : State) : Nat :=
  ∑ i ∈ Finset.range setup.threads, if state.running i = .set then 0 else setup.calls i + 1

/-- A bound on the steps of the OS thread until a body waits or the process exits. -/
def potential (setup : Setup) (state : State) : Nat :=
  (2 * setup.threads + 16) * (state.load setup + state.unstarted setup) +
    state.pc.rank setup.threads

/-- The running body goes on elsewhere in its slot. -/
theorem load_goto (setup : Setup) (state : State) {pc : Pc} (home : pc.home = state.pc.home) :
    (state.goto pc).load setup + state.pc.left setup = state.load setup + pc.left setup := by
  unfold load goto
  dsimp only
  rw [home]
  omega

/-- Setting a flag that was not set starts a body. -/
theorem unstarted_set (state : State) {i : Nat} (inside : i < setup.threads)
    (unset : state.running i ≠ .set) (pc : Pc) :
    unstarted setup { state with pc := pc, running := Function.update state.running i .set } +
      (setup.calls i + 1) = state.unstarted setup := by
  have member : i ∈ Finset.range setup.threads := Finset.mem_range.mpr inside
  unfold unstarted
  rw [← Finset.add_sum_erase _ _ member, ← Finset.add_sum_erase (Finset.range setup.threads)
    (fun i => if state.running i = .set then 0 else setup.calls i + 1) member]
  have others : ∀ j ∈ (Finset.range setup.threads).erase i,
      (if Function.update state.running i .set j = .set then 0 else setup.calls j + 1) =
        if state.running j = .set then 0 else setup.calls j + 1 := by
    intro j other
    rw [Function.update_of_ne (Finset.ne_of_mem_erase other)]
  rw [Finset.sum_congr rfl others]
  simp [unset]
  omega

/-- A swap leaves every body the calls it has left. -/
theorem load_swapcontext (homed : state.Homed setup) (placed : state.Placed setup)
    {caller : Caller} {cur next : Nat} (here : state.pc = .swap caller cur next)
    (inside : cur < setup.threads) :
    (state.swapcontext caller cur next).load setup = state.load setup := by
  obtain ⟨own, -, there⟩ := homed.swap_at here
  have below : next ∈ Finset.range setup.threads := by
    rw [← there]
    exact Finset.mem_range.mpr placed.cur
  have member : cur ∈ Finset.range setup.threads := Finset.mem_range.mpr inside
  have before : state.load setup = ∑ slot ∈ Finset.range setup.threads,
      (Function.update state.ctx cur (.saved caller) slot).left := by
    rw [← Finset.add_sum_erase _ _ member, Function.update_self]
    have others : ∀ slot ∈ (Finset.range setup.threads).erase cur,
        (Function.update state.ctx cur (.saved caller) slot).left = (state.ctx slot).left := by
      intro slot other
      rw [Function.update_of_ne (Finset.ne_of_mem_erase other)]
    rw [Finset.sum_congr rfl others, own]
    unfold load
    rw [here]
    rfl
  have behind : ∀ pc : Pc, pc.home = next →
      pc.left setup = (Function.update state.ctx cur (.saved caller) next).left →
      pc.left setup + ∑ slot ∈ (Finset.range setup.threads).erase pc.home,
        (Function.update state.ctx cur (.saved caller) slot).left = state.load setup := by
    intro pc home left
    rw [home, left, before]
    exact Finset.add_sum_erase _
      (fun slot => (Function.update state.ctx cur (.saved caller) slot).left) below
  unfold State.swapcontext State.resume
  dsimp only
  split
  · rename_i fresh
    apply behind
    · rfl
    · rw [fresh]
      rfl
  · rename_i other resumed
    obtain ⟨home, left, -⟩ := other.resume_eq setup
    apply behind
    · exact home.trans (homed.saved own next other resumed)
    · rw [resumed]
      exact left

/-- The rank of the point where a swap goes on is lower than its own. -/
theorem rank_swapcontext (homed : state.Homed setup) (two : 2 ≤ setup.threads) {caller : Caller}
    {cur next : Nat} (here : state.pc = .swap caller cur next) :
    (state.swapcontext caller cur next).pc.rank setup.threads <
      state.pc.rank setup.threads := by
  obtain ⟨own, round, -⟩ := homed.swap_at here
  have contexts := homed.saved own next
  rw [here]
  unfold State.swapcontext State.resume
  dsimp only
  split
  · cases caller with
    | main =>
      change 2 * (setup.threads - 0) + 6 < 2 * setup.threads + 7
      omega
    | body stack i left =>
      change 2 * (setup.threads - 0) + 6 < 2 * setup.threads + 12
      omega
  · rename_i other resumed
    have home := contexts other resumed
    cases other with
    | main =>
      cases caller with
      | main =>
        -- `main` is in slot 0 and the next slot is another one.
        have first : next = 1 := by
          rw [round, own]
          exact Nat.mod_eq_of_lt two
        rw [first] at home
        cases home
      | body stack i left =>
        change 2 * setup.threads + 11 < 2 * setup.threads + 12
        omega
    | body stack i left =>
      cases caller with
      | main =>
        change 2 < 2 * setup.threads + 7
        omega
      | body stack' i' left' =>
        change 2 < 2 * setup.threads + 12
        omega

/-- A swap sets no flag. -/
theorem running_swapcontext (state : State) (caller : Caller) (cur next : Nat) :
    (state.swapcontext caller cur next).running = state.running := by
  unfold swapcontext resume
  dsimp only
  split <;> rfl

/-- Going on in the same slot with the same calls left lowers the potential with the rank. -/
theorem potential_goto {before pc : Pc} (here : state.pc = before) (home : pc.home = before.home)
    (left : pc.left setup = before.left setup)
    (rank : pc.rank setup.threads < before.rank setup.threads) :
    (state.goto pc).potential setup < state.potential setup := by
  subst here
  have same := load_goto setup state home
  have load : (state.goto pc).load setup = state.load setup := by omega
  have flags : (state.goto pc).unstarted setup = state.unstarted setup := rfl
  have there : (state.goto pc).pc = pc := rfl
  unfold potential
  rw [load, flags, there]
  omega

/-- A call of `schedule` by a body uses up more than the way to the next one. -/
theorem potential_call {stack i left : Nat} (here : state.pc = .body stack i (left + 1)) :
    (state.goto (.schedCur (.body stack i left))).potential setup < state.potential setup := by
  have home : (Pc.schedCur (.body stack i left)).home = state.pc.home := by
    rw [here]
    rfl
  have same := load_goto setup state home
  have lefts : state.pc.left setup = left + 1 := by rw [here]; rfl
  have load : (state.goto (.schedCur (.body stack i left))).load setup + 1 =
      state.load setup := by
    change _ + state.pc.left setup = _ + left at same
    omega
  have flags : (state.goto (.schedCur (.body stack i left))).unstarted setup =
      state.unstarted setup := rfl
  have rank : state.pc.rank setup.threads = 2 := by rw [here]; rfl
  have there : (state.goto (.schedCur (.body stack i left))).pc.rank setup.threads =
      2 * setup.threads + 15 := rfl
  unfold potential
  rw [flags, there, rank, ← load]
  ring_nf
  omega

/-- Entering a body adds less than its flag counted for. -/
theorem potential_set {stack i : Nat}
    (load : (state.goto (.startFunc stack i)).load setup = state.load setup + setup.calls i)
    (started : unstarted setup { state with
      pc := .startFunc stack i
      running := Function.update state.running i .set } + (setup.calls i + 1) =
        state.unstarted setup)
    (rank : state.pc.rank setup.threads = 5) :
    potential setup { state with
      pc := .startFunc stack i
      running := Function.update state.running i .set } < state.potential setup := by
  have whole : State.load setup { state with
      pc := .startFunc stack i
      running := Function.update state.running i .set } +
      unstarted setup { state with
        pc := .startFunc stack i
        running := Function.update state.running i .set } + 1 =
        state.load setup + state.unstarted setup := by
    change (state.goto (.startFunc stack i)).load setup + _ + 1 = _
    omega
  unfold potential
  rw [← whole, rank]
  change _ + 4 < _
  ring_nf
  omega

/-- Before a body waits, each step of the OS thread lowers the potential or ends the process. -/
theorem MainStep.potential_lt (step : MainStep setup state after) (homed : state.Homed setup)
    (placed : state.Placed setup) (two : 2 ≤ setup.threads) (sound : after.pc.faulted = false)
    (count : state.count = setup.threads) (awake : ∀ stack i, state.pc ≠ .wait stack i) :
    after.pc = .exited ∨ after.potential setup < state.potential setup := by
  have there := placed.pc
  cases step with
  | mainOn here => exact .inr (potential_goto here rfl rfl (Nat.lt_succ_self _))
  | mainEnd here none => omega
  | join here | startEnd here => exact .inl rfl
  | startOn here more => exact .inr (potential_goto here rfl rfl (Nat.lt_succ_self _))
  | @flagged stack i here live reads =>
    rw [here] at there
    refine .inr (potential_goto here rfl rfl ?_)
    change 5 < 2 * (setup.threads - i) + 5
    have inside := there.2.2
    omega
  | @skipped stack i here live reads =>
    rw [here] at there
    refine .inr (potential_goto here rfl rfl ?_)
    change 2 * (setup.threads - (i + 1)) + 6 < 2 * (setup.threads - i) + 5
    have inside := there.2.2
    omega
  | @set stack i here live =>
    rw [here] at there
    right
    have flag := homed.unset stack i here
    have started := unstarted_set state there.2.2 (by rw [flag]; decide) (.startFunc stack i)
    have home : (Pc.startFunc stack i).home = state.pc.home := by
      rw [here]
      rfl
    have same := load_goto setup state home
    have none : state.pc.left setup = 0 := by
      rw [here]
      rfl
    have rank : state.pc.rank setup.threads = 5 := by
      rw [here]
      rfl
    exact potential_set (by change _ + state.pc.left setup = _ + setup.calls i at same; omega)
      started rank
  | load here => exact .inr (potential_goto here rfl rfl (Nat.lt_succ_self _))
  | enter here => exact .inr (potential_goto here rfl rfl (Nat.lt_succ_self _))
  | bodyEnd here => exact .inr (potential_goto here rfl rfl (Nat.lt_succ_self _))
  | bodyCall here => exact .inr (potential_call here)
  | finish here => exact .inr (potential_goto here rfl rfl (Nat.lt_succ_self _))
  | released here | waits here => exact absurd here (awake _ _)
  | @slot caller here live =>
    cases caller <;> exact .inr (potential_goto here rfl rfl (Nat.lt_succ_self _))
  | @advance caller cur here some_ =>
    cases caller <;> exact .inr (potential_goto here rfl rfl (Nat.lt_succ_self _))
  | @target caller cur here live =>
    cases caller <;> exact .inr (potential_goto here rfl rfl (Nat.lt_succ_self _))
  | @swap caller cur next here =>
    right
    rw [here] at there
    have own := (homed.swap_at here).1
    have inside : cur < setup.threads := by
      rw [own]
      cases caller with
      | main => exact Nat.lt_of_lt_of_le Nat.two_pos two
      | body stack i left => exact there.1.2.1
    have load := load_swapcontext homed placed here inside
    have rank := rank_swapcontext homed two here
    have flags : (state.swapcontext caller cur next).unstarted setup =
        state.unstarted setup := by
      unfold unstarted
      rw [running_swapcontext]
    unfold potential
    rw [load, flags]
    omega
  | startNull | finishNull | scheduleNull | divide => cases sound

/-- A state reached is not one of an undefined step. -/
theorem Guarded.sound (guarded : state.Guarded setup) : state.pc.faulted = false := by
  rcases guarded.phase with calm | ⟨stack, i, waiting⟩
  · exact calm.sound
  · rw [waiting.pc]
    rfl

/-- A body that waits goes on waiting while the checker has not stopped. -/
theorem wait_next {who : Who} {stack i : Nat} (here : state.pc = .wait stack i)
    (stop : state.stop = false) (step : state.next setup who = some after) :
    after.pc = .wait stack i ∧ after.log = state.log := by
  rcases next_cases step with ⟨-, moved⟩ | ⟨-, checked⟩
  · cases moved with
    | waits there => exact ⟨there.symm.trans here, rfl⟩
    | released there stopped =>
      rw [stop] at stopped
      cases stopped
    | startNull there =>
      rcases there with there | there | there | there <;> cases there.symm.trans here
    | scheduleNull there =>
      obtain ⟨caller, there | ⟨cur, there⟩⟩ := there
      · cases there.symm.trans here
      · cases there.symm.trans here
    | mainOn there | mainEnd there | join there | startOn there | startEnd there | flagged there
    | skipped there | set there | load there | enter there | bodyEnd there | bodyCall there
    | finish there | slot there | advance there | target there | swap there | finishNull there
    | divide there => cases there.symm.trans here
  · obtain ⟨pc, -, -, -, log⟩ := checkStep_frame checked
    exact ⟨pc.trans here, log⟩

/-- The steps of the OS thread until a body waits or the process exits, at most. -/
def patience (setup : Setup) : Nat :=
  (2 * setup.threads + 16) * (∑ i ∈ Finset.range setup.threads, (setup.calls i + 1)) +
    (2 * setup.threads + 11)

/-- The bound is the potential of the start. -/
theorem potential_start (setup : Setup) : (start setup).potential setup = patience setup := by
  rw [start, created_eq]
  simp [potential, patience, load, unstarted, boot, Pc.left, Pc.rank, Ctx.left]

/-- Until a body waits, the steps of the OS thread are paid for by the potential. -/
theorem potential_run (two : 2 ≤ setup.threads) (unset : setup.finishTrue = false)
    {trace : List Who} (run : exec (next setup) (start setup) trace = some state) :
    (state.pc = .exited ∧ trace.count .main ≤ patience setup + 1) ∨
      (∃ stack i, state.pc = .wait stack i) ∨
      trace.count .main + state.potential setup ≤ patience setup := by
  have some_ : 0 < setup.threads := by omega
  refine exec_induct (motive := fun trace state =>
    (state.pc = .exited ∧ trace.count .main ≤ patience setup + 1) ∨
      (∃ stack i, state.pc = .wait stack i) ∨
      trace.count .main + state.potential setup ≤ patience setup) ?_ ?_ run
  · right
    right
    rw [potential_start]
    exact Nat.le_of_eq (Nat.zero_add _)
  · intro labels middle who finish earlier ih step
    have guarded := guarded_run some_ unset earlier
    rcases ih with ⟨ended, -⟩ | ⟨stack, i, here⟩ | bound
    · simp [next, ended] at step
    · exact .inr (.inl ⟨stack, i, (wait_next here guarded.stop step).1⟩)
    · have later := (guarded_run some_ unset (exec_snoc.mpr ⟨middle, earlier, step⟩)).sound
      rcases next_cases step with ⟨rfl, moved⟩ | ⟨rfl, checked⟩
      · by_cases awake : ∀ stack i, middle.pc ≠ .wait stack i
        · have steps : (labels ++ [Who.main]).count .main = labels.count .main + 1 := by simp
          rcases moved.potential_lt (homed_run some_ unset earlier) (placed_run some_ earlier) two
            later guarded.count awake with ended | less
          · refine .inl ⟨ended, ?_⟩
            omega
          · refine .inr (.inr ?_)
            omega
        · simp only [not_forall, not_not] at awake
          obtain ⟨stack, i, here⟩ := awake
          exact .inr (.inl ⟨stack, i, (wait_next here guarded.stop step).1⟩)
      · obtain ⟨pc, -, -, ctx, -⟩ := checkStep_frame checked
        have same : finish.potential setup = middle.potential setup := by
          unfold potential load unstarted
          rw [pc, ctx, checkStep_running checked]
        have steps : (labels ++ [Who.checker]).count .main = labels.count .main := by simp
        refine .inr (.inr ?_)
        omega

end State

/-- `entered` bodies were entered and the bodies on the first `swapped` slots behind slot 0 have
called `schedule`: `main` runs, or a body on one of these slots, or one that runs for the first
time. -/
def Caller.Turn (entered swapped : Nat) : Caller → Prop
  | .main => entered = swapped
  | .body stack _ _ => (entered = swapped ∧ stack ≤ swapped) ∨
      (entered = swapped + 1 ∧ stack = swapped + 1)

/-- The slots are started one after the other, and each starts the next body. -/
def Pc.Turn (entered swapped : Nat) : Pc → Prop
  | .mainTest => Caller.main.Turn entered swapped
  | .startTest stack i | .startFlag stack i =>
    entered = swapped ∧ stack = swapped + 1 ∧ i ≤ entered
  | .startSet stack i => entered = swapped ∧ stack = swapped + 1 ∧ i = entered
  | .startFunc stack _ | .startCall stack _ => entered = swapped + 1 ∧ stack = swapped + 1
  | .body stack i _ | .finish stack i | .wait stack i =>
    (Caller.body stack i 0).Turn entered swapped
  | .schedCur caller | .schedCount caller _ | .schedNext caller _ | .swap caller _ _ =>
    caller.Turn entered swapped
  | .mainJoin | .exited | .fault _ => False

/-- Where a caller goes on it is still its turn. -/
theorem Caller.Turn.resume {entered swapped : Nat} {caller : Caller}
    (turn : caller.Turn entered swapped) : caller.resume.Turn entered swapped := by
  cases caller with
  | main => exact turn
  | body stack i left => exact turn

namespace State

variable {setup : Setup} {state after : State}

/-- The bodies entered and the slots that were swapped are the first ones. -/
structure Turn (setup : Setup) (state : State) (entered swapped : Nat) : Prop where
  /-- The flags set are the first ones. -/
  flags : ∀ j, state.running j = .set ↔ j < entered
  /-- Behind slot 0, the contexts saved are the first ones. -/
  ctx : ∀ slot, 0 < slot → slot < setup.threads → (state.ctx slot = .initial ↔ swapped < slot)
  /-- The OS thread is where it should be. -/
  pc : state.pc.Turn entered swapped

variable {entered swapped : Nat}

/-- Going on elsewhere. -/
theorem Turn.goto (turn : state.Turn setup entered swapped) {pc : Pc}
    (there : pc.Turn entered swapped) : (state.goto pc).Turn setup entered swapped :=
  ⟨turn.flags, turn.ctx, there⟩

/-- A swap saves in the slot its caller runs in, which is the last one saved then, if it was saved
for the first time. -/
theorem Turn.saved (turn : state.Turn setup entered swapped) {caller : Caller} {cur next : Nat}
    (here : state.pc = .swap caller cur next) (own : cur = caller.home) :
    ∃ swapped, entered = swapped ∧ cur ≤ swapped ∧ ∀ slot, 0 < slot → slot < setup.threads →
      (Function.update state.ctx cur (.saved caller) slot = .initial ↔ swapped < slot) := by
  have there := turn.pc
  rw [here] at there
  subst own
  -- A slot whose context is saved is behind none of the slots saved.
  have kept : caller.home ≤ swapped → ∀ slot, 0 < slot → slot < setup.threads →
      (Function.update state.ctx caller.home (.saved caller) slot = .initial ↔ swapped < slot) := by
    intro below slot positive inside
    by_cases same : slot = caller.home
    · subst same
      rw [Function.update_self]
      refine ⟨fun wrong => absurd wrong (Ctx.saved_ne_initial caller), ?_⟩
      omega
    · rw [Function.update_of_ne same]
      exact turn.ctx slot positive inside
  cases caller with
  | main => exact ⟨swapped, there, Nat.zero_le _, kept (Nat.zero_le _)⟩
  | body stack i left =>
    rcases there with ⟨same, below⟩ | ⟨more, last⟩
    · exact ⟨swapped, same, below, kept below⟩
    · refine ⟨swapped + 1, more, Nat.le_of_eq last, ?_⟩
      intro slot positive inside
      change Function.update state.ctx stack _ slot = .initial ↔ _
      by_cases same : slot = stack
      · subst same
        rw [Function.update_self]
        refine ⟨fun wrong => absurd wrong (Ctx.saved_ne_initial _), ?_⟩
        omega
      · rw [Function.update_of_ne same, turn.ctx slot positive inside]
        omega

/-- A swap passes the turn on. -/
theorem Turn.swapcontext (turn : state.Turn setup entered swapped) (homed : state.Homed setup)
    (placed : state.Placed setup) (opening : state.Opening) {caller : Caller} {cur next : Nat}
    (here : state.pc = .swap caller cur next) :
    ∃ swapped, (state.swapcontext caller cur next).Turn setup entered swapped := by
  obtain ⟨own, round, there⟩ := homed.swap_at here
  obtain ⟨swapped, same, below, contexts⟩ := turn.saved here own
  have inside : next < setup.threads := there ▸ placed.cur
  have later : next ≤ cur + 1 := by
    rw [round]
    exact Nat.mod_le _ _
  refine ⟨swapped, ?_⟩
  unfold State.swapcontext State.resume
  dsimp only
  split
  · rename_i fresh
    have positive : 0 < next := Nat.pos_of_ne_zero (opening.next_ne_zero here fresh)
    have first := (contexts next positive inside).mp fresh
    exact ⟨turn.flags, contexts, same, by omega, Nat.zero_le _⟩
  · rename_i other resumed
    refine ⟨turn.flags, contexts, Caller.Turn.resume ?_⟩
    have home := homed.saved own next other resumed
    cases other with
    | main => exact same
    | body stack i left =>
      have positive : 0 < stack := by
        have positions := (placed.swapcontext opening here).ctx next (.body stack i left)
        rw [ctx_swapcontext] at positions
        exact (positions resumed).1
      refine .inl ⟨same, ?_⟩
      by_contra beyond
      change stack = next at home
      have fresh := (contexts stack positive (by omega)).mpr (by omega)
      rw [home, resumed] at fresh
      exact Ctx.saved_ne_initial _ fresh

/-- Where the fill reads as not running, the OS thread never runs off the end of `start_thread`. -/
theorem MainStep.turn (step : MainStep setup state after)
    (turn : state.Turn setup entered swapped) (reads : setup.runningFalse = true)
    (homed : state.Homed setup) (placed : state.Placed setup) (opening : state.Opening)
    (count : state.count = setup.threads) (stop : state.stop = false)
    (some_ : 0 < setup.threads) (sound : after.pc.faulted = false) :
    ∃ entered swapped, after.Turn setup entered swapped := by
  have there := turn.pc
  have position := placed.pc
  cases step with
  | mainEnd here none => omega
  | join here =>
    rw [here] at there
    exact there.elim
  | startEnd here all =>
    rw [here] at there position
    obtain ⟨same, last, bound⟩ := there
    have inside := position.2
    omega
  | @flagged stack i here live unset =>
    rw [here] at there
    obtain ⟨same, last, bound⟩ := there
    have free : ¬i < entered := by
      intro less
      have set := (turn.flags i).mpr less
      simp [notRunning, set] at unset
    exact ⟨entered, swapped, turn.goto ⟨same, last, by omega⟩⟩
  | @skipped stack i here live set =>
    rw [here] at there
    obtain ⟨same, last, bound⟩ := there
    have taken : i < entered := by
      apply (turn.flags i).mp
      cases flag : state.running i with
      | set => rfl
      | fill => simp [notRunning, flag, reads] at set
    exact ⟨entered, swapped, turn.goto ⟨same, last, taken⟩⟩
  | @set stack i here live =>
    rw [here] at there
    obtain ⟨same, last, rfl⟩ := there
    refine ⟨i + 1, swapped, ?_, turn.ctx, by omega, last⟩
    intro j
    by_cases here : j = i
    · subst here
      simp
    · dsimp only
      rw [Function.update_of_ne here, turn.flags j]
      omega
  | enter here live =>
    rw [here] at there
    exact ⟨entered, swapped, turn.flags, turn.ctx, .inr there⟩
  | swap here => exact ⟨entered, turn.swapcontext homed placed opening here⟩
  | released here stopped =>
    rw [stop] at stopped
    cases stopped
  | startNull | finishNull | scheduleNull | divide => cases sound
  | mainOn here | startOn here | load here | bodyEnd here | bodyCall here | waits here | slot here
  | target here =>
    rw [here] at there
    exact ⟨entered, swapped, turn.goto there⟩
  | finish here | advance here =>
    rw [here] at there
    exact ⟨entered, swapped, turn.flags, turn.ctx, there⟩

/-- In every state reached the slots have been started one after the other. -/
theorem turn_run (some_ : 0 < setup.threads) (unset : setup.finishTrue = false)
    (reads : setup.runningFalse = true) {trace : List Who}
    (run : exec (next setup) (start setup) trace = some state) :
    ∃ entered swapped, state.Turn setup entered swapped := by
  refine exec_induct (motive := fun _ state => ∃ entered swapped,
    state.Turn setup entered swapped) ?_ ?_ run
  · rw [start, created_eq]
    refine ⟨0, 0, ?_, ?_, rfl⟩
    · intro j
      simp [boot]
    · intro slot positive _
      simp [boot, positive]
  · rintro labels middle who finish earlier ⟨entered, swapped, turn⟩ step
    have guarded := guarded_run some_ unset earlier
    have later := (guarded_run some_ unset (exec_snoc.mpr ⟨middle, earlier, step⟩)).sound
    rcases next_cases step with ⟨-, moved⟩ | ⟨-, checked⟩
    · exact moved.turn turn reads (homed_run some_ unset earlier) (placed_run some_ earlier)
        (opening_run earlier) guarded.count guarded.stop some_ later
    · obtain ⟨pc, -, -, ctx, -⟩ := checkStep_frame checked
      refine ⟨entered, swapped, ?_, ?_, ?_⟩
      · rw [checkStep_running checked]
        exact turn.flags
      · rw [ctx]
        exact turn.ctx
      · rw [pc]
        exact turn.pc

end State

/-- No body was entered: `main` calls `schedule`, or `start_thread` looks for a uthread. -/
def Pc.Barred : Pc → Prop
  | .mainTest | .schedCur .main | .schedCount .main _ | .schedNext .main _ | .swap .main _ _
  | .startTest _ _ | .startFlag _ _ | .exited => True
  | _ => False

namespace State

variable {setup : Setup} {state after : State}

/-- Nothing but `main` ever ran. -/
structure Barred (state : State) : Prop where
  /-- The OS thread is in `main` or looks for a uthread. -/
  pc : state.pc.Barred
  /-- Only `main` was saved. -/
  ctx : ∀ slot caller, state.ctx slot = .saved caller → caller = .main
  /-- No body was entered. -/
  log : ∀ i stack, .entered i stack ∉ state.log

/-- A swap of `main` resumes `main` or a slot that was never started. -/
theorem Barred.swapcontext (barred : state.Barred) {cur next : Nat} :
    (state.swapcontext .main cur next).Barred := by
  have contexts : ∀ slot caller,
      Function.update state.ctx cur (.saved .main) slot = .saved caller → caller = .main := by
    intro slot caller holds
    by_cases same : slot = cur
    · subst same
      rw [Function.update_self] at holds
      cases holds
      rfl
    · rw [Function.update_of_ne same] at holds
      exact barred.ctx slot caller holds
  unfold State.swapcontext State.resume
  dsimp only
  split
  · refine ⟨trivial, contexts, ?_⟩
    intro i stack member
    simp only [List.append_assoc, List.mem_append] at member
    rcases member with old | new
    · exact barred.log i stack old
    · simp at new
  · rename_i other resumed
    obtain rfl := contexts next other resumed
    refine ⟨trivial, contexts, ?_⟩
    intro i stack member
    rcases List.mem_append.mp member with old | new
    · exact barred.log i stack old
    · simp at new

/-- Where the fill reads as running, no body is ever entered. -/
theorem MainStep.barred (step : MainStep setup state after) (barred : state.Barred)
    (reads : setup.runningFalse = false) (count : state.count ≠ 0)
    (sound : after.pc.faulted = false) : after.Barred := by
  have there := barred.pc
  cases step with
  | mainOn | startOn | skipped | startEnd => exact ⟨trivial, barred.ctx, barred.log⟩
  | mainEnd here none => exact absurd none count
  | @flagged stack i here live unset =>
    unfold notRunning at unset
    split at unset
    · rw [reads] at unset
      cases unset
    · cases unset
  | @slot caller here | @advance caller cur here | @target caller cur here =>
    rw [here] at there
    cases caller with
    | main => exact ⟨trivial, barred.ctx, barred.log⟩
    | body => exact there.elim
  | @swap caller cur next here =>
    rw [here] at there
    cases caller with
    | main => exact barred.swapcontext
    | body => exact there.elim
  | join here | set here | load here | enter here | bodyEnd here | bodyCall here | finish here
  | released here | waits here =>
    rw [here] at there
    exact there.elim
  | startNull | finishNull | scheduleNull | divide => cases sound

/-- In every state reached nothing but `main` ever ran. -/
theorem barred_run (some_ : 0 < setup.threads) (unset : setup.finishTrue = false)
    (reads : setup.runningFalse = false) {trace : List Who}
    (run : exec (next setup) (start setup) trace = some state) : state.Barred := by
  refine exec_induct (motive := fun _ state => state.Barred) ?_ ?_ run
  · rw [start, created_eq]
    refine ⟨trivial, ?_, ?_⟩
    · intro slot caller holds
      cases holds
    · intro i stack member
      cases member
  · intro labels middle who finish earlier barred step
    have guarded := guarded_run some_ unset earlier
    have later := (guarded_run some_ unset (exec_snoc.mpr ⟨middle, earlier, step⟩)).sound
    rcases next_cases step with ⟨-, moved⟩ | ⟨-, checked⟩
    · apply moved.barred barred reads ?_ later
      rw [guarded.count]
      omega
    · obtain ⟨pc, -, -, ctx, log⟩ := checkStep_frame checked
      refine ⟨?_, ?_, ?_⟩
      · rw [pc]
        exact barred.pc
      · rw [ctx]
        exact barred.ctx
      · rw [log]
        exact barred.log

/-- A body that has finished keeps the OS thread: whatever follows, it waits and nothing else
happens. -/
def Hung (setup : Setup) (state : State) : Prop :=
  ∃ stack i, state.pc = .wait stack i ∧ ∀ later after,
    exec (next setup) state later = some after →
      after.pc = .wait stack i ∧ after.log = state.log ∧ after.stop = false

/-- Where a body waits, the process hangs. -/
theorem hung_of_wait (some_ : 0 < setup.threads) (unset : setup.finishTrue = false)
    {trace : List Who} (run : exec (next setup) (start setup) trace = some state) {stack i : Nat}
    (here : state.pc = .wait stack i) : state.Hung setup := by
  refine ⟨stack, i, here, ?_⟩
  intro later after onward
  have reached : ∀ labels finish, exec (next setup) state labels = some finish →
      finish.Guarded setup := by
    intro labels finish more
    have whole : exec (next setup) (start setup) (trace ++ labels) = some finish := by
      rw [exec_append, run]
      exact more
    exact guarded_run some_ unset whole
  refine exec_induct (motive := fun _ finish =>
    finish.pc = .wait stack i ∧ finish.log = state.log ∧ finish.stop = false)
    ⟨here, rfl, (guarded_run some_ unset run).stop⟩ ?_ onward
  rintro labels middle who finish earlier ⟨waiting, log, stop⟩ step
  obtain ⟨stays, same⟩ := wait_next waiting stop step
  exact ⟨stays, same.trans log, (reached _ finish (exec_snoc.mpr ⟨middle, earlier, step⟩)).stop⟩

/-- Until the process has exited its OS thread can go on. -/
theorem next_main (homed : state.Homed setup) (sound : state.pc.faulted = false) :
    state.pc = .exited ∨ ∃ after, state.next setup .main = some after := by
  have there := homed.pc
  unfold next mainStep
  cases pc : state.pc with
  | exited => exact .inl rfl
  | fault kind =>
    rw [pc] at sound
    cases sound
  | mainJoin =>
    rw [pc] at there
    exact there.elim
  | body stack i left => cases left <;> exact .inr ⟨_, rfl⟩
  | _ => exact .inr ⟨_, rfl⟩

/-- With at least two uthreads and a fill of `is_finish` that does not read as true, the OS thread
can always go on until the process exits. Where the fill of `is_running` reads as false, the process
never exits: after a bounded number of steps a body has finished and the process hangs. Where it
does not, the process exits after a bounded number of steps and no body is ever entered. -/
theorem uthreads_outcome (two : 2 ≤ setup.threads) (unset : setup.finishTrue = false)
    {trace : List Who} (run : exec (next setup) (start setup) trace = some state) :
    (state.pc = .exited ∨ ∃ after, state.next setup .main = some after) ∧
      (setup.runningFalse = true → state.pc ≠ .exited ∧
        (patience setup < trace.count .main → state.Hung setup)) ∧
      (setup.runningFalse = false → trace.count .main ≤ patience setup + 1 ∧
        ∀ i stack, .entered i stack ∉ state.log) := by
  have some_ : 0 < setup.threads := by omega
  have spent := potential_run two unset run
  refine ⟨next_main (homed_run some_ unset run) (guarded_run some_ unset run).sound, ?_, ?_⟩
  · intro reads
    obtain ⟨entered, swapped, turn⟩ := turn_run some_ unset reads run
    have runs : state.pc ≠ .exited := by
      intro ended
      have there := turn.pc
      rw [ended] at there
      exact there
    refine ⟨runs, ?_⟩
    intro long
    rcases spent with ⟨ended, -⟩ | ⟨stack, i, here⟩ | bound
    · exact absurd ended runs
    · exact hung_of_wait some_ unset run here
    · omega
  · intro reads
    have barred := barred_run some_ unset reads run
    refine ⟨?_, barred.log⟩
    rcases spent with ⟨-, bound⟩ | ⟨stack, i, here⟩ | bound
    · exact bound
    · have there := barred.pc
      rw [here] at there
      exact there.elim
    · omega

/-- Three uthreads whose flags read as false hang before each of them has finished. -/
theorem uthreads_outcome_hangs :
    ∃ state, exec (next ⟨3, fun _ => 1, true, false⟩) (start ⟨3, fun _ => 1, true, false⟩)
        (List.replicate 150 .main) = some state ∧
      state.Hung ⟨3, fun _ => 1, true, false⟩ ∧ state.log.count (.finished 1) = 0 := by
  have outcome : (exec (next ⟨3, fun _ => 1, true, false⟩) (start ⟨3, fun _ => 1, true, false⟩)
      (List.replicate 150 .main)).map (fun state => state.log.count (.finished 1)) = some 0 := by
    decide +kernel
  obtain ⟨state, run, others⟩ := Option.map_eq_some_iff.mp outcome
  obtain ⟨-, hangs, -⟩ := uthreads_outcome (by decide) rfl run
  exact ⟨state, run, (hangs rfl).2 (by decide +kernel), others⟩

end State

end NsuOs.Uthreads
