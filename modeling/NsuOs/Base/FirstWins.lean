import Mathlib

/-!
# Lists that keep the first entry of each key

An entry is appended only when no entry with its key is present. The list therefore grows at its
end only, its keys stay distinct, and the entry found under a key never changes once there is
one: it is the first that was ever offered under that key.
-/
namespace NsuOs.FirstWins

variable {κ β : Type*} [DecidableEq κ]

/-- Append an entry unless its key is present. -/
def insert (key : β → κ) (entries : List β) (added : β) : List β :=
  if key added ∈ entries.map key then entries else entries ++ [added]

/-- Offer entries one after another, starting from none. -/
def insertAll (key : β → κ) (offered : List β) : List β := offered.foldl (insert key) []

/-- The entry under a key. -/
def lookup (key : β → κ) (k : κ) (entries : List β) : Option β :=
  entries.find? fun entry => decide (key entry = k)

variable {key : β → κ}

/-- Nothing offered yet, nothing kept. -/
@[simp] theorem insertAll_nil : insertAll key [] = [] := rfl

/-- The last offer is one insertion into what the earlier ones left. -/
theorem insertAll_snoc (offered : List β) (added : β) :
    insertAll key (offered ++ [added]) = insert key (insertAll key offered) added := by
  simp [insertAll]

/-- Insertion only appends. -/
theorem insert_prefix (entries : List β) (added : β) : entries <+: insert key entries added := by
  unfold insert
  split
  · exact List.prefix_rfl
  · exact List.prefix_append _ _

/-- More offers only append. -/
theorem insertAll_prefix (offered more : List β) :
    insertAll key offered <+: insertAll key (offered ++ more) := by
  induction more generalizing offered with
  | nil => simp
  | cons added rest ih =>
    have first : insertAll key offered <+: insertAll key (offered ++ [added]) := by
      rw [insertAll_snoc]
      exact insert_prefix _ _
    have later := ih (offered ++ [added])
    rw [List.append_assoc, List.singleton_append] at later
    exact first.trans later

/-- Insertion keeps the keys distinct. -/
theorem insert_keys_nodup {entries : List β} {added : β} (distinct : (entries.map key).Nodup) :
    ((insert key entries added).map key).Nodup := by
  unfold insert
  split
  · exact distinct
  · rename_i absent
    rw [List.map_append, List.map_singleton]
    exact List.nodup_append.mpr ⟨distinct, List.nodup_singleton _, by
      intro k present k' last same
      rw [List.mem_singleton.mp last] at same
      exact absent (same ▸ present)⟩

/-- The keys kept from any offers are distinct. -/
theorem insertAll_keys_nodup (offered : List β) : ((insertAll key offered).map key).Nodup := by
  induction offered using List.reverseRecOn with
  | nil => exact List.nodup_nil
  | append_singleton offered added ih =>
    rw [insertAll_snoc]
    exact insert_keys_nodup ih

/-- A key has an entry exactly when it is among the keys. -/
theorem lookup_eq_none {k : κ} {entries : List β} :
    lookup key k entries = none ↔ k ∉ entries.map key := by
  simp [lookup, List.find?_eq_none]

/-- Looking a key up after an insertion finds the old entry, or else the new one. -/
theorem lookup_insert (k : κ) (entries : List β) (added : β) :
    lookup key k (insert key entries added) =
      (lookup key k entries).or (lookup key k [added]) := by
  unfold insert
  split
  · rename_i present
    cases found : lookup key k entries with
    | some entry => rfl
    | none =>
      have absent := lookup_eq_none.mp found
      have apart : key added ≠ k := fun same => absent (same ▸ present)
      simp [lookup, apart]
  · simp [lookup, List.find?_append]

/-- What is kept under a key is the first entry offered under it. -/
theorem lookup_insertAll (k : κ) (offered : List β) :
    lookup key k (insertAll key offered) = lookup key k offered := by
  induction offered using List.reverseRecOn with
  | nil => rfl
  | append_singleton offered added ih =>
    rw [insertAll_snoc, lookup_insert, ih]
    simp [lookup, List.find?_append]

/-- Only what was offered is kept. -/
theorem mem_of_mem_insertAll {entry : β} {offered : List β} (kept : entry ∈ insertAll key offered) :
    entry ∈ offered := by
  induction offered using List.reverseRecOn with
  | nil => exact kept
  | append_singleton offered added ih =>
    rw [insertAll_snoc, insert] at kept
    split at kept
    · exact List.mem_append_left _ (ih kept)
    · rcases List.mem_append.mp kept with before | last
      · exact List.mem_append_left _ (ih before)
      · exact List.mem_append_right _ last

end NsuOs.FirstWins
