import Mathlib

/-!
# Tables of numbered resources

A table gives each number the resource it stands for, and a number is reused once its resource is
dropped. Users hold pairs of a number and a resource; a holding stays good while others put
resources under unused numbers and drop resources that are not in it.
-/
namespace NsuOs.Table

variable {κ ν : Type*}

/-- Every number of a holding stands for the resource it is held for. -/
def Held (table : κ → Option ν) (holding : List (κ × ν)) : Prop :=
  ∀ entry ∈ holding, table entry.1 = some entry.2

variable {table : κ → Option ν} {key : κ} {value : ν} {holding : List (κ × ν)}

/-- Nothing is held. -/
theorem held_nil : Held table [] := fun _ member => nomatch member

/-- Holding one more pair. -/
theorem held_cons : Held table ((key, value) :: holding) ↔
    table key = some value ∧ Held table holding := by
  simp [Held]

variable [DecidableEq κ]

/-- The table after a number was given a resource. -/
def put (table : κ → Option ν) (key : κ) (value : ν) : κ → Option ν :=
  fun other => if other = key then some value else table other

/-- The table after a number was freed. -/
def drop (table : κ → Option ν) (key : κ) : κ → Option ν :=
  fun other => if other = key then none else table other

/-- A new resource stands under its number. -/
@[simp] theorem put_self : put table key value key = some value := by
  simp [put]

/-- An unused number is in no holding, so giving it a resource harms nobody. -/
theorem Held.put (held : Held table holding) (unused : table key = none) :
    Held (Table.put table key value) holding := by
  intro entry member
  have here := held entry member
  have apart : entry.1 ≠ key := by
    intro same
    rw [same, unused] at here
    exact nomatch here
  simpa [Table.put, apart] using here

/-- Freeing the number of a resource harms no holding without that resource. -/
theorem Held.drop (held : Held table holding) (was : table key = some value)
    (outside : ∀ entry ∈ holding, entry.2 ≠ value) : Held (Table.drop table key) holding := by
  intro entry member
  have here := held entry member
  have apart : entry.1 ≠ key := by
    intro same
    rw [same, was] at here
    exact outside entry member (Option.some.inj here).symm
  simpa [Table.drop, apart] using here

/-- What one call does to a table. -/
inductive Act (κ ν : Type*) where
  /-- Nothing. -/
  | keep
  /-- A number is given a resource. -/
  | put (key : κ) (value : ν)
  /-- A number is freed. -/
  | drop (key : κ)

namespace Act

/-- The table after the call. -/
def apply (table : κ → Option ν) : Act κ ν → κ → Option ν
  | .keep => table
  | .put key value => Table.put table key value
  | .drop key => Table.drop table key

/-- The entry the call leaves in a log of freed numbers: what the number stood for. -/
def log (table : κ → Option ν) : Act κ ν → List (κ × Option ν)
  | .drop key => [(key, table key)]
  | _ => []

/-- Only unused numbers are given out. -/
def Allowed (table : κ → Option ν) : Act κ ν → Prop
  | .put key _ => table key = none
  | _ => True

/-- How the call changes the holding of its caller: a new pair comes last, and only the first
pair is given up. -/
def Moves (before after : List (κ × ν)) : Act κ ν → Prop
  | .keep => after = before
  | .put key value => after = before ++ [(key, value)]
  | .drop key => ∃ value, before = (key, value) :: after

variable {act : Act κ ν} {before after : List (κ × ν)}

/-- The caller's holding stays good. -/
theorem Moves.held (moves : act.Moves before after) (held : Held table before)
    (allowed : act.Allowed table) (distinct : (before.map Prod.snd).Nodup) :
    Held (act.apply table) after := by
  cases act with
  | keep => exact moves ▸ held
  | put key value =>
    intro entry member
    rw [show after = before ++ [(key, value)] from moves] at member
    rcases List.mem_append.mp member with old | new
    · exact held.put allowed entry old
    · rw [List.mem_singleton.mp new]
      exact put_self
  | drop key =>
    obtain ⟨value, rfl⟩ := moves
    obtain ⟨was, rest⟩ := held_cons.mp held
    refine rest.drop was fun entry member same => ?_
    have outside := (List.nodup_cons.mp distinct).1
    dsimp only at same outside
    rw [← same] at outside
    exact outside (List.mem_map_of_mem member)

/-- A holding without the caller's resources stays good. -/
theorem Moves.others (moves : act.Moves before after) (held : Held table before)
    (allowed : act.Allowed table) (others : Held table holding)
    (apart : ∀ entry ∈ before, ∀ other ∈ holding, other.2 ≠ entry.2) :
    Held (act.apply table) holding := by
  cases act with
  | keep => exact others
  | put key value => exact others.put allowed
  | drop key =>
    obtain ⟨value, rfl⟩ := moves
    exact others.drop (held_cons.mp held).1 (apart _ List.mem_cons_self)

omit [DecidableEq κ] in
/-- What the call frees was held by its caller. -/
theorem Moves.log_eq (moves : act.Moves before after) (held : Held table before) :
    act.log table = [] ∨ ∃ entry, before = entry :: after ∧
      act.log table = [(entry.1, some entry.2)] := by
  cases act with
  | keep => exact Or.inl rfl
  | put key value => exact Or.inl rfl
  | drop key =>
    obtain ⟨value, rfl⟩ := moves
    refine Or.inr ⟨(key, value), rfl, ?_⟩
    rw [log, (held_cons.mp held).1]

omit [DecidableEq κ] in
/-- Freed and held together, a resource is counted as often as before. -/
theorem Moves.count (moves : act.Moves before after) (held : Held table before) [DecidableEq ν]
    {value : ν} (notPut : ∀ key, act ≠ .put key value) :
    (act.log table).countP (fun entry => decide (entry.2 = some value)) +
      after.countP (fun entry => decide (entry.2 = value)) =
    before.countP (fun entry => decide (entry.2 = value)) := by
  cases act with
  | keep =>
    rw [show after = before from moves]
    exact Nat.zero_add _
  | put key other =>
    have apart : other ≠ value := fun same => notPut key (same ▸ rfl)
    rw [show after = before ++ [(key, other)] from moves, List.countP_append]
    simp [log, apart]
  | drop key =>
    obtain ⟨other, rfl⟩ := moves
    rw [log, (held_cons.mp held).1]
    simp only [List.countP_cons, List.countP_nil, Option.some.injEq]
    omega

end Act

end NsuOs.Table
