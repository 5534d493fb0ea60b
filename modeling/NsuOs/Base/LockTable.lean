import Mathlib

/-!
# Tables of locks

A table gives for every key the thread that holds its lock for writing and the threads that hold
it for reading. A lock is granted for writing when nobody holds it and for reading when nobody
holds it for writing. Threads that acquire in the order of a rank never wait in a circle: among
threads that all wait, each waits for one that waits for a higher rank.
-/
namespace NsuOs

/-- The holders of one lock. -/
@[ext] structure LockState (ι : Type*) where
  /-- The thread that holds the lock alone. -/
  writer : Option ι
  /-- The threads that share the lock. -/
  readers : Finset ι
  deriving DecidableEq

/-- How a lock is asked for. -/
inductive Access
  /-- Shared with other readers. -/
  | read
  /-- Alone. -/
  | write
  deriving DecidableEq

/-- The state of every lock. -/
abbrev LockTable (ι κ : Type*) := κ → LockState ι

namespace LockTable

variable {ι κ : Type*}

/-- The table in which nobody holds anything. -/
def free : LockTable ι κ := fun _ => ⟨none, ∅⟩

/-- A thread holds a lock, in one way or the other. -/
def Holds (table : LockTable ι κ) (i : ι) (key : κ) : Prop :=
  (table key).writer = some i ∨ i ∈ (table key).readers

/-- Nobody holds a lock for reading while somebody holds it for writing. -/
def Exclusive (table : LockTable ι κ) : Prop :=
  ∀ key, (table key).writer ≠ none → (table key).readers = ∅

/-- In the free table nobody holds a lock. -/
theorem not_holds_free (i : ι) (key : κ) : ¬Holds free i key := by
  simp [Holds, free]

/-- The free table is exclusive. -/
theorem exclusive_free : Exclusive (free : LockTable ι κ) := by
  intro key held
  exact absurd rfl held

variable [DecidableEq ι] [DecidableEq κ]

instance (table : LockTable ι κ) (i : ι) (key : κ) : Decidable (table.Holds i key) :=
  inferInstanceAs (Decidable (_ ∨ _))

/-- The table after a lock was granted, or `none` while it is not. -/
def acquire (table : LockTable ι κ) (access : Access) (i : ι) (key : κ) :
    Option (LockTable ι κ) :=
  match access with
  | .write =>
    if (table key).writer = none ∧ (table key).readers = ∅ then
      some (Function.update table key ⟨some i, ∅⟩)
    else none
  | .read =>
    if (table key).writer = none then
      some (Function.update table key ⟨none, insert i (table key).readers⟩)
    else none

/-- The table after a thread gave a lock back, or `none` if it did not hold it. -/
def release (table : LockTable ι κ) (i : ι) (key : κ) : Option (LockTable ι κ) :=
  if (table key).writer = some i then
    some (Function.update table key ⟨none, (table key).readers⟩)
  else if i ∈ (table key).readers then
    some (Function.update table key ⟨(table key).writer, (table key).readers.erase i⟩)
  else none

variable {table after : LockTable ι κ} {i : ι} {key : κ} {access : Access}

/-- What a granted lock changes about who holds what. -/
theorem holds_acquire (granted : table.acquire access i key = some after) (j : ι) (other : κ) :
    after.Holds j other ↔ table.Holds j other ∨ j = i ∧ other = key := by
  by_cases same : other = key
  · subst same
    cases access with
    | write =>
      simp only [acquire, Option.ite_none_right_eq_some, Option.some.injEq] at granted
      obtain ⟨⟨unwritten, unread⟩, rfl⟩ := granted
      simp [Holds, unwritten, unread, eq_comm]
    | read =>
      simp only [acquire, Option.ite_none_right_eq_some, Option.some.injEq] at granted
      obtain ⟨unwritten, rfl⟩ := granted
      simp [Holds, unwritten, or_comm]
  · have elsewhere : after other = table other := by
      cases access with
      | write =>
        simp only [acquire, Option.ite_none_right_eq_some, Option.some.injEq] at granted
        obtain ⟨-, rfl⟩ := granted
        exact Function.update_of_ne same _ _
      | read =>
        simp only [acquire, Option.ite_none_right_eq_some, Option.some.injEq] at granted
        obtain ⟨-, rfl⟩ := granted
        exact Function.update_of_ne same _ _
    simp [Holds, elsewhere, same]

/-- A granted lock keeps the table exclusive. -/
theorem Exclusive.acquire (exclusive : table.Exclusive)
    (granted : table.acquire access i key = some after) : after.Exclusive := by
  intro other held
  by_cases same : other = key
  · subst same
    cases access with
    | write =>
      simp only [LockTable.acquire, Option.ite_none_right_eq_some, Option.some.injEq] at granted
      obtain ⟨-, rfl⟩ := granted
      simp
    | read =>
      simp only [LockTable.acquire, Option.ite_none_right_eq_some, Option.some.injEq] at granted
      obtain ⟨-, rfl⟩ := granted
      simp at held
  · cases access with
    | write =>
      simp only [LockTable.acquire, Option.ite_none_right_eq_some, Option.some.injEq] at granted
      obtain ⟨-, rfl⟩ := granted
      simp only [Function.update_of_ne same] at held ⊢
      exact exclusive other held
    | read =>
      simp only [LockTable.acquire, Option.ite_none_right_eq_some, Option.some.injEq] at granted
      obtain ⟨-, rfl⟩ := granted
      simp only [Function.update_of_ne same] at held ⊢
      exact exclusive other held

/-- A thread that holds a lock can give it back. -/
theorem release_of_holds (holds : table.Holds i key) :
    ∃ after, table.release i key = some after := by
  unfold release
  by_cases writes : (table key).writer = some i
  · exact ⟨_, if_pos writes⟩
  · have reads : i ∈ (table key).readers := holds.resolve_left writes
    exact ⟨_, by rw [if_neg writes, if_pos reads]⟩

/-- What a lock given back changes about who holds what. -/
theorem holds_release (exclusive : table.Exclusive)
    (released : table.release i key = some after) (j : ι) (other : κ) :
    after.Holds j other ↔ table.Holds j other ∧ ¬(j = i ∧ other = key) := by
  by_cases same : other = key
  · subst same
    by_cases writes : (table other).writer = some i
    · have unread : (table other).readers = ∅ := exclusive other (by simp [writes])
      rw [release, if_pos writes, Option.some.injEq] at released
      subst released
      simp only [Holds, Function.update_self, unread, writes, Finset.notMem_empty, or_false,
        Option.some.injEq, reduceCtorEq, and_true, false_iff, not_and, not_not]
      exact Eq.symm
    · rw [release, if_neg writes, Option.ite_none_right_eq_some, Option.some.injEq] at released
      obtain ⟨reads, rfl⟩ := released
      have unwritten : (table other).writer = none := by
        by_contra held
        simp [exclusive other held] at reads
      simp [Holds, unwritten, and_comm]
  · have elsewhere : after other = table other := by
      unfold release at released
      split at released
      · obtain rfl := Option.some.inj released
        exact Function.update_of_ne same _ _
      · rw [Option.ite_none_right_eq_some, Option.some.injEq] at released
        obtain ⟨-, rfl⟩ := released
        exact Function.update_of_ne same _ _
    simp [Holds, elsewhere, same]

/-- A lock given back keeps the table exclusive. -/
theorem Exclusive.release (exclusive : table.Exclusive)
    (released : table.release i key = some after) : after.Exclusive := by
  intro other held
  unfold LockTable.release at released
  split at released
  · obtain rfl := Option.some.inj released
    by_cases same : other = key
    · subst same
      simp at held
    · simp only [Function.update_of_ne same] at held ⊢
      exact exclusive other held
  · rw [Option.ite_none_right_eq_some, Option.some.injEq] at released
    obtain ⟨-, rfl⟩ := released
    by_cases same : other = key
    · subst same
      simp only [Function.update_self] at held ⊢
      simp [exclusive other held]
    · simp only [Function.update_of_ne same] at held ⊢
      exact exclusive other held

/-- The state of a lock with one holder. -/
def heldBy (access : Access) (i : ι) : LockState ι :=
  match access with
  | .write => ⟨some i, ∅⟩
  | .read => ⟨none, {i}⟩

/-- A free lock is granted. -/
theorem acquire_free (unheld : table key = ⟨none, ∅⟩) :
    table.acquire access i key = some (Function.update table key (heldBy access i)) := by
  cases access with
  | write => simp [acquire, unheld, heldBy]
  | read => simp [acquire, unheld, heldBy]

/-- The only holder of a lock leaves it free. -/
theorem release_heldBy (held : table key = heldBy access i) :
    table.release i key = some (Function.update table key ⟨none, ∅⟩) := by
  cases access with
  | write => simp [release, held, heldBy]
  | read => simp [release, held, heldBy]

/-- A lock that is not granted is held by somebody. -/
theorem held_of_blocked (blocked : table.acquire access i key = none) :
    ∃ j, table.Holds j key := by
  cases access with
  | write =>
    simp only [acquire, ite_eq_right_iff, reduceCtorEq, imp_false, not_and] at blocked
    cases writer : (table key).writer with
    | some j => exact ⟨j, .inl writer⟩
    | none =>
      obtain ⟨j, reads⟩ := Finset.nonempty_iff_ne_empty.mpr (blocked writer)
      exact ⟨j, .inr reads⟩
  | read =>
    simp only [acquire, ite_eq_right_iff, reduceCtorEq, imp_false] at blocked
    obtain ⟨j, writer⟩ := Option.ne_none_iff_exists'.mp blocked
    exact ⟨j, .inl writer⟩

/-- Threads that hold only locks of lower rank than the one they ask for are not all refused, if
the ranks asked for are bounded. -/
theorem not_all_blocked [Nonempty ι] {wants : ι → κ} {asks : ι → Access} {rank : κ → Nat}
    {bound : Nat} (bounded : ∀ i, rank (wants i) ≤ bound)
    (ordered : ∀ i key, table.Holds i key → rank key < rank (wants i)) :
    ¬∀ i, table.acquire (asks i) i (wants i) = none := by
  intro blocked
  have climbs : ∀ i, ∃ j, rank (wants i) < rank (wants j) := by
    intro i
    obtain ⟨j, holds⟩ := held_of_blocked (blocked i)
    exact ⟨j, ordered j (wants i) holds⟩
  have reaches : ∀ n, ∃ i, n ≤ rank (wants i) := by
    intro n
    induction n with
    | zero => exact ⟨Classical.arbitrary ι, Nat.zero_le _⟩
    | succ n ih =>
      obtain ⟨i, high⟩ := ih
      obtain ⟨j, higher⟩ := climbs i
      exact ⟨j, by omega⟩
  obtain ⟨i, beyond⟩ := reaches (bound + 1)
  have within := bounded i
  omega

/-- Among threads of a kind that includes every holder of a lock one is not refused, if each holds
only locks of lower rank than the one it asks for, and the ranks are bounded. -/
theorem exists_unblocked (rank : κ → Nat) {busy : ι → Prop} {wants : ι → Option κ}
    {asks : ι → Access} {bound : Nat} (bounded : ∀ key, rank key ≤ bound)
    (holders : ∀ i key, table.Holds i key → busy i)
    (ordered : ∀ i held key, table.Holds i held → wants i = some key → rank held < rank key)
    (somebody : ∃ i, busy i) :
    ∃ i, busy i ∧ ¬∃ key, wants i = some key ∧ table.acquire (asks i) i key = none := by
  by_contra stuck
  have blocked : ∀ i, busy i → ∃ key, wants i = some key ∧
      table.acquire (asks i) i key = none := by
    intro i working
    by_contra granted
    exact stuck ⟨i, working, granted⟩
  have reaches : ∀ n, ∃ i key, busy i ∧ wants i = some key ∧ n ≤ rank key := by
    intro n
    induction n with
    | zero =>
      obtain ⟨i, working⟩ := somebody
      obtain ⟨key, asked, -⟩ := blocked i working
      exact ⟨i, key, working, asked, Nat.zero_le _⟩
    | succ n ih =>
      obtain ⟨i, key, working, asked, high⟩ := ih
      obtain ⟨wanted, same, refused⟩ := blocked i working
      obtain rfl : key = wanted := Option.some.inj (asked.symm.trans same)
      obtain ⟨j, holds⟩ := held_of_blocked refused
      obtain ⟨other, asks, -⟩ := blocked j (holders j key holds)
      have higher := ordered j key other holds asks
      exact ⟨j, other, holders j key holds, asks, by omega⟩
  obtain ⟨i, key, -, -, beyond⟩ := reaches (bound + 1)
  have within := bounded key
  omega

end LockTable

end NsuOs
