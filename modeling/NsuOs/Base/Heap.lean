import Mathlib

/-!
# A heap of addressed blocks and the chains linked through it

Blocks are allocated at any address that is not in use, so a freed address may come back; each
allocation gets a number of its own, which tells two lives of one address apart. Every call of
`free` is recorded with the pointer it was given and the allocation that died there, if any.
A chain is the finite list of addresses visited by following a link field to the null pointer.
Finiteness already makes it free of repetitions, and it changes only where its own cells do.
-/
namespace NsuOs

/-- An address; the null pointer is zero. -/
abbrev Ptr := Nat

/-- The null pointer. -/
def null : Ptr := 0

/-- Blocks by address, with the allocation number of each and the record of all frees. -/
@[ext] structure Heap (α : Type) where
  /-- Allocation number and contents of the live block at an address. -/
  cell : Ptr → Option (Nat × α)
  /-- Every live address is below this one. -/
  bound : Nat
  /-- Number of allocations so far. -/
  made : Nat
  /-- Pointers passed to `free`, in order, each with the allocation it ended. -/
  frees : List (Ptr × Option Nat)
  /-- Nothing lives at or above the bound. -/
  below : ∀ p, bound ≤ p → cell p = none
  /-- Allocation numbers are those already handed out. -/
  numbered : ∀ p n v, cell p = some (n, v) → n < made
  /-- One allocation lives at one address. -/
  apart : ∀ p q n v w, cell p = some (n, v) → cell q = some (n, w) → p = q
  /-- An allocation that was ended lives nowhere. -/
  ended : ∀ n ∈ frees.filterMap Prod.snd, n < made ∧ ∀ p v, cell p ≠ some (n, v)
  /-- No allocation is ended twice. -/
  once : (frees.filterMap Prod.snd).Nodup

namespace Heap

variable {α : Type}

/-- Contents of the live block at an address. -/
def get (heap : Heap α) (p : Ptr) : Option α := (heap.cell p).map Prod.snd

/-- Allocation number of the live block at an address. -/
def number (heap : Heap α) (p : Ptr) : Option Nat := (heap.cell p).map Prod.fst

/-- Allocations ended so far. -/
def freed (heap : Heap α) : List Nat := heap.frees.filterMap Prod.snd

/-- An address `malloc` may return: not null and not in use. -/
def Unused (heap : Heap α) (p : Ptr) : Prop := p ≠ null ∧ heap.number p = none

instance (heap : Heap α) (p : Ptr) : Decidable (heap.Unused p) :=
  inferInstanceAs (Decidable (p ≠ null ∧ heap.number p = none))

/-- The heap before any allocation. -/
def empty : Heap α where
  cell _ := none
  bound := 0
  made := 0
  frees := []
  below _ _ := rfl
  numbered _ _ _ h := nomatch h
  apart _ _ _ _ _ h := nomatch h
  ended _ h := nomatch h
  once := List.nodup_nil

/-- Place a block at an address under the next allocation number. -/
def alloc (heap : Heap α) (p : Ptr) (value : α) : Heap α where
  cell q := if q = p then some (heap.made, value) else heap.cell q
  bound := max heap.bound (p + 1)
  made := heap.made + 1
  frees := heap.frees
  below q above := by
    have apart : q ≠ p := by omega
    simpa [apart] using heap.below q (by omega)
  numbered q n v live := by
    split at live
    · obtain ⟨rfl, rfl⟩ := Prod.mk.inj (Option.some.inj live)
      omega
    · exact Nat.lt_succ_of_lt (heap.numbered q n v live)
  apart q r n v w first second := by
    split at first <;> split at second
    · simp_all
    · have old := heap.numbered r n w second
      have new := (Prod.mk.inj (Option.some.inj first)).1
      omega
    · have old := heap.numbered q n v first
      have new := (Prod.mk.inj (Option.some.inj second)).1
      omega
    · exact heap.apart q r n v w first second
  ended n dead := by
    obtain ⟨old, nowhere⟩ := heap.ended n dead
    refine ⟨Nat.lt_succ_of_lt old, fun q v live => ?_⟩
    split at live
    · have new := (Prod.mk.inj (Option.some.inj live)).1
      omega
    · exact nowhere q v live
  once := heap.once

/-- The cells left by a change of contents at one address hold no new allocation. -/
theorem cell_of_map {cell : Ptr → Option (Nat × α)} {p q : Ptr} {value v : α} {n : Nat}
    (live : (if q = p then (cell q).map fun old => (old.1, value) else cell q) = some (n, v)) :
    ∃ w, cell q = some (n, w) := by
  split at live
  · obtain ⟨⟨m, w⟩, old, same⟩ := Option.map_eq_some_iff.mp live
    obtain ⟨rfl, rfl⟩ := Prod.mk.inj same
    exact ⟨w, old⟩
  · exact ⟨v, live⟩

/-- Overwrite the contents of a live block. -/
def set (heap : Heap α) (p : Ptr) (value : α) : Heap α where
  cell q := if q = p then (heap.cell q).map fun old => (old.1, value) else heap.cell q
  bound := heap.bound
  made := heap.made
  frees := heap.frees
  below q above := by simp [heap.below q above]
  numbered q n v live := by
    obtain ⟨w, old⟩ := cell_of_map live
    exact heap.numbered q n w old
  apart q r n v w first second := by
    obtain ⟨v', here⟩ := cell_of_map first
    obtain ⟨w', there⟩ := cell_of_map second
    exact heap.apart q r n v' w' here there
  ended n dead := by
    obtain ⟨old, nowhere⟩ := heap.ended n dead
    refine ⟨old, fun q v live => ?_⟩
    obtain ⟨w, here⟩ := cell_of_map live
    exact nowhere q w here
  once := heap.once

/-- Record a call of `free` and end the block that lives at the pointer, if one does. -/
def free (heap : Heap α) (p : Ptr) : Heap α where
  cell q := if q = p then none else heap.cell q
  bound := heap.bound
  made := heap.made
  frees := heap.frees ++ [(p, heap.number p)]
  below q above := by simp [heap.below q above]
  numbered q n v live := by
    split at live
    · exact nomatch live
    · exact heap.numbered q n v live
  apart q r n v w first second := by
    split at first
    · exact nomatch first
    · split at second
      · exact nomatch second
      · exact heap.apart q r n v w first second
  ended n dead := by
    rw [List.filterMap_append, List.mem_append] at dead
    rcases dead with before | now
    · obtain ⟨old, nowhere⟩ := heap.ended n before
      refine ⟨old, fun q v live => ?_⟩
      split at live
      · exact nomatch live
      · exact nowhere q v live
    · have here : heap.number p = some n := by
        simpa using now
      obtain ⟨⟨m, w⟩, stored, rfl⟩ := Option.map_eq_some_iff.mp here
      refine ⟨heap.numbered p m w stored, fun q v live => ?_⟩
      split at live
      · exact nomatch live
      · rename_i elsewhere
        exact elsewhere (heap.apart q p m v w live stored)
  once := by
    rw [List.filterMap_append]
    refine List.nodup_append.mpr ⟨heap.once, ?_, ?_⟩
    · cases heap.number p <;> simp
    · rintro n before m now rfl
      have here : heap.number p = some n := by
        simpa using now
      obtain ⟨⟨k, w⟩, stored, rfl⟩ := Option.map_eq_some_iff.mp here
      exact (heap.ended k before).2 p w stored

@[simp] theorem get_alloc (heap : Heap α) (p q : Ptr) (value : α) :
    (heap.alloc p value).get q = if q = p then some value else heap.get q := by
  by_cases same : q = p <;> simp [get, alloc, same]

@[simp] theorem number_alloc (heap : Heap α) (p q : Ptr) (value : α) :
    (heap.alloc p value).number q = if q = p then some heap.made else heap.number q := by
  by_cases same : q = p <;> simp [number, alloc, same]

@[simp] theorem get_set (heap : Heap α) (p q : Ptr) (value : α) :
    (heap.set p value).get q = if q = p then (heap.get q).map fun _ => value else heap.get q := by
  by_cases same : q = p
  · subst same
    cases live : heap.cell q <;> simp [get, set, live]
  · simp [get, set, same]

@[simp] theorem number_set (heap : Heap α) (p q : Ptr) (value : α) :
    (heap.set p value).number q = heap.number q := by
  by_cases same : q = p
  · subst same
    cases live : heap.cell q <;> simp [number, set, live]
  · simp [number, set, same]

@[simp] theorem get_free (heap : Heap α) (p q : Ptr) :
    (heap.free p).get q = if q = p then none else heap.get q := by
  by_cases same : q = p <;> simp [get, free, same]

@[simp] theorem number_free (heap : Heap α) (p q : Ptr) :
    (heap.free p).number q = if q = p then none else heap.number q := by
  by_cases same : q = p <;> simp [number, free, same]

@[simp] theorem made_alloc (heap : Heap α) (p : Ptr) (value : α) :
    (heap.alloc p value).made = heap.made + 1 := rfl

@[simp] theorem made_set (heap : Heap α) (p : Ptr) (value : α) :
    (heap.set p value).made = heap.made := rfl

@[simp] theorem made_free (heap : Heap α) (p : Ptr) : (heap.free p).made = heap.made := rfl

@[simp] theorem frees_alloc (heap : Heap α) (p : Ptr) (value : α) :
    (heap.alloc p value).frees = heap.frees := rfl

@[simp] theorem frees_set (heap : Heap α) (p : Ptr) (value : α) :
    (heap.set p value).frees = heap.frees := rfl

@[simp] theorem frees_free (heap : Heap α) (p : Ptr) :
    (heap.free p).frees = heap.frees ++ [(p, heap.number p)] := rfl

/-- Two heaps with the same blocks, contents and records are one. -/
theorem ext_get {left right : Heap α} (contents : ∀ p, left.get p = right.get p)
    (numbers : ∀ p, left.number p = right.number p) (bound : left.bound = right.bound)
    (made : left.made = right.made) (frees : left.frees = right.frees) : left = right := by
  refine Heap.ext ?_ bound made frees
  funext p
  have content := contents p
  have allocation := numbers p
  cases here : left.cell p with
  | none =>
    cases there : right.cell p with
    | none => rfl
    | some block => simp [get, here, there] at content
  | some block =>
    cases there : right.cell p with
    | none => simp [get, here, there] at content
    | some other =>
      simp only [get, number, here, there, Option.map_some, Option.some.injEq] at content allocation
      rw [Prod.ext allocation content]

/-- There always is an address that `malloc` may return. -/
theorem exists_unused (heap : Heap α) : ∃ p, heap.Unused p := by
  refine ⟨heap.bound + 1, Nat.succ_ne_zero _, ?_⟩
  simp [number, heap.below]

/-- An unused address has no contents. -/
theorem Unused.get {heap : Heap α} {p : Ptr} (unused : heap.Unused p) : heap.get p = none := by
  have dead := unused.2
  simpa [Heap.get, number] using dead

/-- Live addresses lie below the bound. -/
theorem lt_bound {heap : Heap α} {p : Ptr} {value : α} (live : heap.get p = some value) :
    p < heap.bound := by
  by_contra above
  have dead := heap.below p (Nat.le_of_not_lt above)
  simp [get, dead] at live

/-- A live block's number is one already handed out. -/
theorem number_lt_made {heap : Heap α} {p : Ptr} {n : Nat} (live : heap.number p = some n) :
    n < heap.made := by
  obtain ⟨⟨m, v⟩, here, rfl⟩ := Option.map_eq_some_iff.mp live
  exact heap.numbered p m v here

/-- An ended allocation was ended exactly once. -/
theorem count_freed {heap : Heap α} {n : Nat} (dead : n ∈ heap.freed) :
    heap.freed.count n = 1 :=
  List.count_eq_one_of_mem heap.once dead

/-- Every allocation made so far either lives somewhere or was ended. -/
def Complete (heap : Heap α) : Prop :=
  ∀ n < heap.made, n ∈ heap.freed ∨ ∃ p, heap.number p = some n

/-- Before any allocation there is nothing to account for. -/
theorem complete_empty : (empty : Heap α).Complete := by
  intro n below
  exact absurd below (Nat.not_lt_zero n)

/-- An allocation at an unused address ends no other one. -/
theorem Complete.alloc {heap : Heap α} (complete : heap.Complete) {p : Ptr}
    (unused : heap.Unused p) (value : α) : (heap.alloc p value).Complete := by
  intro n below
  rw [made_alloc] at below
  by_cases last : n = heap.made
  · right
    exact ⟨p, by simp [last]⟩
  · rcases complete n (by omega) with dead | ⟨q, live⟩
    · exact .inl dead
    · have other : q ≠ p := by
        rintro rfl
        simp [unused.2] at live
      exact .inr ⟨q, by simp [other, live]⟩

/-- New contents start and end no allocation. -/
theorem Complete.set {heap : Heap α} (complete : heap.Complete) (p : Ptr) (value : α) :
    (heap.set p value).Complete := by
  intro n below
  simpa [freed] using complete n below

/-- A block that is freed is recorded as ended. -/
theorem Complete.free {heap : Heap α} (complete : heap.Complete) (p : Ptr) :
    (heap.free p).Complete := by
  intro n below
  simp only [freed, frees_free, List.filterMap_append, List.mem_append]
  rcases complete n below with dead | ⟨q, live⟩
  · exact .inl (.inl dead)
  · by_cases here : q = p
    · subst here
      exact .inl (.inr (by simp [live]))
    · exact .inr ⟨q, by simp [here, live]⟩

/-- Contents and allocation number are there together. -/
theorem number_eq_none {heap : Heap α} {p : Ptr} :
    heap.number p = none ↔ heap.get p = none := by
  simp [number, get]

/-- One allocation lives at one address. -/
theorem number_injective {heap : Heap α} {p q : Ptr} {n : Nat} (first : heap.number p = some n)
    (second : heap.number q = some n) : p = q := by
  obtain ⟨⟨_, v⟩, atP, rfl⟩ := Option.map_eq_some_iff.mp first
  obtain ⟨⟨_, w⟩, atQ, same⟩ := Option.map_eq_some_iff.mp second
  simp only at same
  subst same
  exact heap.apart p q _ v w atP atQ

/-- An allocation that was ended lives nowhere. -/
theorem number_ne_of_freed {heap : Heap α} {n : Nat} (dead : n ∈ heap.freed) (p : Ptr) :
    heap.number p ≠ some n := by
  intro here
  obtain ⟨⟨_, v⟩, stored, rfl⟩ := Option.map_eq_some_iff.mp here
  exact (heap.ended _ dead).2 p v stored

/-- Where the live addresses are known, the allocations are those ended and those that live
there, each once. -/
theorem Complete.perm {heap : Heap α} (complete : heap.Complete) {nodes : List Ptr}
    (nodup : nodes.Nodup) (live : ∀ p, heap.get p ≠ none ↔ p ∈ nodes) :
    (heap.freed ++ nodes.filterMap heap.number).Perm (List.range heap.made) := by
  apply (List.perm_ext_iff_of_nodup ?_ List.nodup_range).mpr
  · intro n
    simp only [List.mem_append, List.mem_filterMap, List.mem_range]
    constructor
    · rintro (dead | ⟨p, -, here⟩)
      · exact (heap.ended n dead).1
      · exact number_lt_made here
    · intro below
      rcases complete n below with dead | ⟨p, here⟩
      · exact .inl dead
      · refine .inr ⟨p, (live p).mp ?_, here⟩
        rw [Ne, ← number_eq_none, here]
        exact Option.some_ne_none n
  · apply List.nodup_append.mpr
    refine ⟨heap.once, ?_, ?_⟩
    · apply nodup.filterMap
      exact fun p q n => number_injective
    · rintro n dead m alive rfl
      obtain ⟨p, -, here⟩ := List.mem_filterMap.mp alive
      exact number_ne_of_freed dead p here

/-- The heap after `free` was called on some pointers in order. -/
def freeAll (heap : Heap α) (pointers : List Ptr) : Heap α := pointers.foldl free heap

/-- Nothing lives at these pointers any more. -/
@[simp] theorem get_freeAll (heap : Heap α) (pointers : List Ptr) (p : Ptr) :
    (heap.freeAll pointers).get p = if p ∈ pointers then none else heap.get p := by
  induction pointers generalizing heap with
  | nil => simp [freeAll]
  | cons q rest ih =>
    have later := ih (heap.free q)
    by_cases same : p = q
    · simp_all [freeAll]
    · simp_all [freeAll]

/-- Everything else keeps its allocation. -/
@[simp] theorem number_freeAll (heap : Heap α) (pointers : List Ptr) (p : Ptr) :
    (heap.freeAll pointers).number p = if p ∈ pointers then none else heap.number p := by
  induction pointers generalizing heap with
  | nil => simp [freeAll]
  | cons q rest ih =>
    have later := ih (heap.free q)
    by_cases same : p = q
    · simp_all [freeAll]
    · simp_all [freeAll]

/-- It allocates nothing. -/
@[simp] theorem made_freeAll (heap : Heap α) (pointers : List Ptr) :
    (heap.freeAll pointers).made = heap.made := by
  induction pointers generalizing heap with
  | nil => rfl
  | cons q rest ih => exact ih (heap.free q)

/-- Pointers that are all different are freed as they are found. -/
theorem frees_freeAll {heap : Heap α} {pointers : List Ptr} (nodup : pointers.Nodup) :
    (heap.freeAll pointers).frees =
      heap.frees ++ pointers.map fun p => (p, heap.number p) := by
  induction pointers generalizing heap with
  | nil => simp [freeAll]
  | cons q rest ih =>
    obtain ⟨outside, distinct⟩ := List.nodup_cons.mp nodup
    have later : ((heap.free q).freeAll rest).frees = _ := ih distinct
    have same : (rest.map fun p => (p, (heap.free q).number p)) =
        rest.map fun p => (p, heap.number p) := by
      apply List.map_congr_left
      intro p member
      have apart : p ≠ q := by
        rintro rfl
        exact outside member
      simp [apart]
    change ((heap.free q).freeAll rest).frees = _
    rw [later, same]
    simp

/-- The allocations ended are those that lived at the pointers. -/
theorem mem_freed_freeAll {heap : Heap α} {pointers : List Ptr} {n : Nat} :
    n ∈ (heap.freeAll pointers).freed ↔
      n ∈ heap.freed ∨ ∃ p ∈ pointers, heap.number p = some n := by
  induction pointers generalizing heap with
  | nil => simp [freeAll]
  | cons q rest ih =>
    have later := @ih (heap.free q)
    have now : n ∈ (heap.free q).freed ↔ n ∈ heap.freed ∨ heap.number q = some n := by
      simp [freed, List.filterMap_append]
    change n ∈ ((heap.free q).freeAll rest).freed ↔ _
    rw [later, now]
    constructor
    · rintro ((dead | here) | ⟨p, member, there⟩)
      · exact .inl dead
      · exact .inr ⟨q, List.mem_cons_self, here⟩
      · rw [number_free] at there
        split at there
        · cases there
        · exact .inr ⟨p, List.mem_cons_of_mem q member, there⟩
    · rintro (dead | ⟨p, member, there⟩)
      · exact .inl (.inl dead)
      · by_cases same : p = q
        · subst same
          exact .inl (.inr there)
        · refine .inr ⟨p, (List.mem_cons.mp member).resolve_left same, ?_⟩
          simp [same, there]

end Heap

section Chain

variable {α : Type}

/-- The addresses visited from `p` by following `next` until the null pointer. -/
def Chain (get : Ptr → Option α) (next : α → Ptr) : Ptr → List Ptr → Prop
  | p, [] => p = null
  | p, q :: rest => p = q ∧ q ≠ null ∧ ∃ value, get q = some value ∧
      Chain get next (next value) rest

variable {get : Ptr → Option α} {next : α → Ptr}

/-- A start address determines the whole chain. -/
theorem Chain.unique {p : Ptr} {left right : List Ptr} (first : Chain get next p left)
    (second : Chain get next p right) : left = right := by
  induction left generalizing p right with
  | nil =>
    cases right with
    | nil => rfl
    | cons q rest =>
      obtain ⟨rfl, nonnull, -⟩ := second
      exact absurd first nonnull
  | cons q rest ih =>
    obtain ⟨rfl, nonnull, value, here, later⟩ := first
    cases right with
    | nil => exact absurd second nonnull
    | cons q' rest' =>
      obtain ⟨rfl, -, value', here', later'⟩ := second
      obtain rfl := Option.some.inj (here.symm.trans here')
      rw [ih later later']

/-- From any of its addresses on, a chain is the chain of that address. -/
theorem Chain.suffix {p q : Ptr} {front back : List Ptr}
    (chain : Chain get next p (front ++ q :: back)) : Chain get next q (q :: back) := by
  induction front generalizing p with
  | nil =>
    obtain ⟨rfl, tail⟩ := chain
    exact ⟨rfl, tail⟩
  | cons first rest ih =>
    obtain ⟨-, -, value, -, later⟩ := chain
    exact ih later

/-- The link of an address of a chain leads to the next address, or is null at the last one. -/
theorem Chain.next_eq {p : Ptr} {rest : List Ptr} (chain : Chain get next p (p :: rest)) :
    ∃ value, get p = some value ∧ next value = rest.head?.getD null := by
  obtain ⟨-, -, value, here, later⟩ := chain
  refine ⟨value, here, ?_⟩
  cases rest with
  | nil => exact later
  | cons q rest => exact later.1

/-- A chain visits no address twice: a second visit would start the same chain again. -/
theorem Chain.nodup {p : Ptr} {list : List Ptr} (chain : Chain get next p list) :
    list.Nodup := by
  induction list generalizing p with
  | nil => exact List.nodup_nil
  | cons q rest ih =>
    obtain ⟨rfl, nonnull, value, here, later⟩ := chain
    refine List.nodup_cons.mpr ⟨fun again => ?_, ih later⟩
    obtain ⟨front, back, split⟩ := List.append_of_mem again
    have whole : Chain get next p (p :: rest) := ⟨rfl, nonnull, value, here, later⟩
    have part : Chain get next p (p :: back) := Chain.suffix (split ▸ later)
    have same := congrArg List.length (whole.unique part)
    rw [split] at same
    simp at same
    omega

/-- Every address of a chain is live and not null. -/
theorem Chain.live {p q : Ptr} {list : List Ptr} (chain : Chain get next p list)
    (member : q ∈ list) : q ≠ null ∧ ∃ value, get q = some value := by
  obtain ⟨front, back, rfl⟩ := List.append_of_mem member
  obtain ⟨-, nonnull, value, here, -⟩ := chain.suffix
  exact ⟨nonnull, value, here⟩

/-- A chain is untouched by changes that keep the links of its own cells. -/
theorem Chain.congr {get' : Ptr → Option α} {p : Ptr} {list : List Ptr}
    (chain : Chain get next p list)
    (same : ∀ q ∈ list, (get' q).map next = (get q).map next) : Chain get' next p list := by
  induction list generalizing p with
  | nil => exact chain
  | cons q rest ih =>
    obtain ⟨rfl, nonnull, value, here, later⟩ := chain
    have link := same p List.mem_cons_self
    rw [here, Option.map_some] at link
    obtain ⟨value', here', agree⟩ := Option.map_eq_some_iff.mp link
    refine ⟨rfl, nonnull, value', here', ?_⟩
    rw [agree]
    exact ih later fun q member => same q (List.mem_cons_of_mem p member)

/-- A change that keeps the links of the first addresses replaces what follows them. -/
theorem Chain.splice {get' : Ptr → Option α} {p q : Ptr} {front back tail : List Ptr}
    (chain : Chain get next p (front ++ q :: back))
    (kept : ∀ r ∈ front, (get' r).map next = (get r).map next) (onward : Chain get' next q tail) :
    Chain get' next p (front ++ tail) := by
  induction front generalizing p with
  | nil =>
    obtain ⟨rfl, -⟩ := chain
    exact onward
  | cons r rest ih =>
    obtain ⟨rfl, nonnull, old, here, later⟩ := chain
    have link := kept p List.mem_cons_self
    rw [here, Option.map_some] at link
    obtain ⟨value', here', agree⟩ := Option.map_eq_some_iff.mp link
    refine ⟨rfl, nonnull, value', here', ?_⟩
    rw [agree]
    exact ih later fun r member => kept r (List.mem_cons_of_mem p member)

/-- Linking a last cell behind the present last one appends its address. -/
theorem Chain.link {get' : Ptr → Option α} {p last added : Ptr} {front : List Ptr}
    {value fresh : α} (chain : Chain get next p (front ++ [last]))
    (kept : ∀ q ∈ front, (get' q).map next = (get q).map next)
    (linked : get' last = some value) (points : next value = added)
    (nonnull : added ≠ null) (placed : get' added = some fresh) (ends : next fresh = null) :
    Chain get' next p (front ++ [last, added]) := by
  have lastNonnull : last ≠ null := (chain.live (by simp)).1
  exact chain.splice kept ⟨rfl, lastNonnull, value, linked, points, nonnull, fresh, placed, ends⟩

/-- A chain is no longer than any bound on the addresses that are in use. -/
theorem Chain.length_le {bound : Nat} {p : Ptr} {list : List Ptr}
    (chain : Chain get next p list) (inUse : ∀ q value, get q = some value → q < bound) :
    list.length ≤ bound := by
  have inside : list ⊆ List.range bound := by
    intro q member
    obtain ⟨-, value, here⟩ := chain.live member
    exact List.mem_range.mpr (inUse q value here)
  have short := (List.subperm_of_subset chain.nodup inside).length_le
  simpa using short

/-- A loop that frees a list from an address on: it reads the link, frees the block and goes on at
the link until the null pointer; `none` when it meets no live block or runs out of fuel. -/
def Heap.freeList (next : α → Ptr) : Nat → Heap α → Ptr → Option (Heap α)
  | 0, _, _ => none
  | fuel + 1, heap, cur =>
    if cur = null then some heap
    else
      match heap.get cur with
      | none => none
      | some value => freeList next fuel (heap.free cur) (next value)

/-- What is left of a heap when the blocks of a list were freed in order. -/
structure Heap.Drained (heap : Heap α) (nodes : List Ptr) (after : Heap α) : Prop where
  /-- The blocks of the list are gone, and all others are as they were. -/
  get : ∀ p, after.get p = if p ∈ nodes then none else heap.get p
  /-- Nothing was allocated. -/
  made : after.made = heap.made
  /-- The allocations that lived in the list were ended in its order. -/
  freed : after.freed = heap.freed ++ nodes.filterMap heap.number
  /-- Every allocation lives or was freed, if that was so before. -/
  complete : heap.Complete → after.Complete

/-- With fuel for its length, the loop frees each block of a chain once, in order, and meets no
bad pointer. -/
theorem Chain.freeList {heap : Heap α} {next : α → Ptr} {cur : Ptr} {nodes : List Ptr}
    (chain : Chain heap.get next cur nodes) {fuel : Nat} (enough : nodes.length < fuel) :
    ∃ after, heap.freeList next fuel cur = some after ∧ heap.Drained nodes after := by
  induction nodes generalizing heap cur fuel with
  | nil =>
    obtain ⟨fuel, rfl⟩ := Nat.exists_eq_succ_of_ne_zero (Nat.ne_of_gt enough)
    have ends : cur = null := chain
    refine ⟨heap, by simp [Heap.freeList, ends], by simp, rfl, by simp, id⟩
  | cons p rest ih =>
    obtain ⟨fuel, rfl⟩ := Nat.exists_eq_succ_of_ne_zero (Nat.ne_of_gt (Nat.zero_lt_of_lt enough))
    have outside : p ∉ rest := (List.nodup_cons.mp chain.nodup).1
    obtain ⟨rfl, nonnull, value, here, later⟩ := chain
    have apart : ∀ q ∈ rest, q ≠ cur := by
      rintro q member rfl
      exact outside member
    have onward : Chain (heap.free cur).get next (next value) rest := by
      apply later.congr
      intro q member
      simp [apart q member]
    have shorter : rest.length < fuel := by simpa using enough
    obtain ⟨after, loop, drained⟩ := ih onward shorter
    refine ⟨after, ?_, ?_, drained.made, ?_, fun complete => drained.complete (complete.free cur)⟩
    · simp only [Heap.freeList, nonnull, if_false, here]
      exact loop
    · intro q
      rw [drained.get q, Heap.get_free]
      by_cases same : q = cur
      · simp [same]
      · simp [same]
    · have numbers : rest.filterMap (heap.free cur).number = rest.filterMap heap.number := by
        apply List.filterMap_congr
        intro q member
        simp [apart q member]
      rw [drained.freed, numbers]
      cases first : heap.number cur with
      | none => simp [Heap.freed, first]
      | some n => simp [Heap.freed, first]

/-- The bound of the heap is fuel enough. -/
theorem Chain.length_lt_bound {heap : Heap α} {next : α → Ptr} {cur : Ptr} {nodes : List Ptr}
    (chain : Chain heap.get next cur nodes) : nodes.length < heap.bound + 1 :=
  Nat.lt_succ_of_le (chain.length_le fun _ _ live => Heap.lt_bound live)

end Chain

end NsuOs
