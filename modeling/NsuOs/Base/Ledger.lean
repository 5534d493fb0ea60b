import Mathlib

/-!
# A ledger of blocks

A ledger follows the allocations and frees of some code: the blocks that are live, and the frees of
blocks that were not. It is balanced when nothing is live and nothing was freed wrongly; then every
block was freed as often as it was allocated.
-/
namespace NsuOs

/-- An allocation or a free. -/
inductive Booking (α : Type*)
  /-- A block is allocated or handed over. -/
  | take (block : α)
  /-- A block is freed or given away. -/
  | give (block : α)
  deriving DecidableEq

/-- The live blocks, and the frees of blocks that were not live. -/
@[ext] structure Ledger (α : Type*) where
  /-- The live blocks, the latest first. -/
  live : List α
  /-- The blocks freed while they were not live. -/
  wrong : List α

namespace Ledger

variable {α : Type*}

/-- Nothing is live and nothing was freed. -/
def empty : Ledger α := ⟨[], []⟩

/-- Every block was freed while it was live. -/
def Balanced (ledger : Ledger α) : Prop := ledger.live = [] ∧ ledger.wrong = []

/-- A ledger with a live block is not balanced. -/
theorem not_balanced {ledger : Ledger α} {block : α} (live : block ∈ ledger.live) :
    ¬ledger.Balanced := by
  rintro ⟨nothing, -⟩
  rw [nothing] at live
  cases live

variable [DecidableEq α]

/-- One booking. -/
def book (ledger : Ledger α) : Booking α → Ledger α
  | .take block => { ledger with live := block :: ledger.live }
  | .give block =>
    if block ∈ ledger.live then { ledger with live := ledger.live.erase block }
    else { ledger with wrong := block :: ledger.wrong }

/-- Bookings in order. -/
def bookAll (ledger : Ledger α) (bookings : List (Booking α)) : Ledger α :=
  bookings.foldl book ledger

@[simp] theorem bookAll_nil (ledger : Ledger α) : ledger.bookAll [] = ledger := rfl

@[simp] theorem bookAll_cons (ledger : Ledger α) (booking : Booking α) (rest : List (Booking α)) :
    ledger.bookAll (booking :: rest) = (ledger.book booking).bookAll rest := rfl

/-- Bookings in two parts. -/
theorem bookAll_append (ledger : Ledger α) (first second : List (Booking α)) :
    ledger.bookAll (first ++ second) = (ledger.bookAll first).bookAll second :=
  List.foldl_append

/-- A block stays live while it is not freed. -/
theorem mem_live_bookAll {ledger : Ledger α} {block : α} (live : block ∈ ledger.live)
    {bookings : List (Booking α)} (kept : .give block ∉ bookings) :
    block ∈ (ledger.bookAll bookings).live := by
  induction bookings generalizing ledger with
  | nil => exact live
  | cons booking rest ih =>
    rw [List.mem_cons, not_or] at kept
    refine ih ?_ kept.2
    cases booking with
    | take other => exact List.mem_cons_of_mem _ live
    | give other =>
      have apart : block ≠ other := by
        rintro rfl
        exact kept.1 rfl
      by_cases held : other ∈ ledger.live
      · rw [book, if_pos held]
        exact (List.mem_erase_of_ne apart).mpr live
      · rw [book, if_neg held]
        exact live

/-- The times a block was allocated. -/
def taken (block : α) (bookings : List (Booking α)) : Nat :=
  (bookings.filterMap fun | .take other => some other | .give _ => none).count block

/-- The times a block was freed. -/
def given (block : α) (bookings : List (Booking α)) : Nat :=
  (bookings.filterMap fun | .give other => some other | .take _ => none).count block

/-- The times a block was freed in two parts. -/
theorem given_append (block : α) (first second : List (Booking α)) :
    given block (first ++ second) = given block first + given block second := by
  simp [given, List.filterMap_append, List.count_append]

/-- A block that is freed counts. -/
theorem given_pos {block : α} {bookings : List (Booking α)} (freed : .give block ∈ bookings) :
    0 < given block bookings :=
  List.count_pos_iff.mpr (List.mem_filterMap.mpr ⟨_, freed, rfl⟩)

/-- The times a block was allocated in two parts. -/
theorem taken_append (block : α) (first second : List (Booking α)) :
    taken block (first ++ second) = taken block first + taken block second := by
  simp [taken, List.filterMap_append, List.count_append]

/-- A block that is not allocated does not count. -/
theorem taken_eq_zero {block : α} {bookings : List (Booking α)} (never : .take block ∉ bookings) :
    taken block bookings = 0 := by
  refine List.count_eq_zero.mpr fun member => ?_
  obtain ⟨booking, inside, isBlock⟩ := List.mem_filterMap.mp member
  cases booking with
  | take other =>
    obtain rfl := Option.some.inj isBlock
    exact never inside
  | give other => cases isBlock

/-- Every allocation of a block is live or was freed, and every free ended one or was wrong. -/
theorem count_bookAll (ledger : Ledger α) (block : α) (bookings : List (Booking α)) :
    (ledger.bookAll bookings).live.count block + given block bookings + ledger.wrong.count block =
      ledger.live.count block + taken block bookings +
        (ledger.bookAll bookings).wrong.count block := by
  induction bookings generalizing ledger with
  | nil => simp [given, taken]
  | cons booking rest ih =>
    have next := ih (ledger.book booking)
    cases booking with
    | take other =>
      simp only [bookAll_cons, given, taken, List.filterMap_cons, book, List.count_cons] at next ⊢
      omega
    | give other =>
      simp only [bookAll_cons, given, taken, List.filterMap_cons, List.count_cons] at next ⊢
      by_cases held : other ∈ ledger.live
      · simp only [book, if_pos held, List.count_erase] at next ⊢
        by_cases same : other = block
        · subst same
          have positive := List.count_pos_iff.mpr held
          simp only [beq_self_eq_true, if_true] at next ⊢
          omega
        · simp only [beq_iff_eq, same, if_false] at next ⊢
          omega
      · simp only [book, if_neg held, List.count_cons] at next ⊢
        omega

/-- In a balanced ledger every block was freed as often as it was allocated. -/
theorem Balanced.given_eq {bookings : List (Booking α)}
    (balanced : (empty.bookAll bookings).Balanced) (block : α) :
    given block bookings = taken block bookings := by
  have counts := count_bookAll empty block bookings
  rw [balanced.1, balanced.2] at counts
  simpa [empty] using counts

end Ledger

end NsuOs
