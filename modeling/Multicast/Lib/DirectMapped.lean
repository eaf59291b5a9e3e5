import Mathlib.Logic.Function.Basic
import Mathlib.Order.SetNotation

/-!
# Direct-mapped tables

A table has a slot for every value of a hash function. A record has a key, or none if its
slot is free, and belongs in the slot of its key. Two keys with the same slot exclude each
other, so that a slot says which of its keys is there.

The table stands for the set of its keys. A record that is written into a free slot adds its
key to the set, and a slot that is freed takes its key out.

## Main definitions

* `DirectMapped.Sound` — every record is in the slot of its key
* `DirectMapped.keys` — the keys that have a record

## Main results

* `Sound.mem_keys_iff`, `Sound.eq_none_iff` — one slot says whether a key is there, and
  whether there is room for it
* `Sound.update`, `Sound.of_key_eq` — writes that keep a table sound
* `Sound.mem_keys_fill_iff`, `Sound.mem_keys_clear_iff` — the set after a write
-/

set_option autoImplicit false

namespace DirectMapped

variable {ι κ ρ : Type*} {hash : κ → ι} {key : ρ → Option κ} {table table' : ι → ρ}
variable {i : ι} {k k' : κ} {r : ρ}

/-- Every record is in the slot of its key. -/
def Sound (hash : κ → ι) (key : ρ → Option κ) (table : ι → ρ) : Prop :=
  ∀ i k, key (table i) = some k → hash k = i

/-- The keys that have a record. -/
def keys (key : ρ → Option κ) (table : ι → ρ) : Set κ := {k | ∃ i, key (table i) = some k}

/-- A key that is there is in its slot. -/
theorem Sound.mem_keys_iff (h : Sound hash key table) :
    k ∈ keys key table ↔ key (table (hash k)) = some k := by
  constructor
  · rintro ⟨i, hi⟩
    rwa [h i k hi]
  · exact fun hk => ⟨hash k, hk⟩

/-- A slot is free exactly if no key with this slot is there. -/
theorem Sound.eq_none_iff (h : Sound hash key table) :
    key (table (hash k)) = none ↔ ¬ ∃ k' ∈ keys key table, hash k' = hash k := by
  constructor
  · rintro hnone ⟨k', hk', hhash⟩
    rw [h.mem_keys_iff, hhash, hnone] at hk'
    cases hk'
  · intro hfree
    cases hslot : key (table (hash k)) with
    | none => rfl
    | some k' => exact absurd ⟨k', ⟨hash k, hslot⟩, h (hash k) k' hslot⟩ hfree

/-- A record that is written has to belong in its slot. -/
theorem Sound.update [DecidableEq ι] (h : Sound hash key table)
    (hr : ∀ k, key r = some k → hash k = i) : Sound hash key (Function.update table i r) := by
  intro j k hk
  by_cases hj : j = i
  · subst hj
    rw [Function.update_self] at hk
    exact hr k hk
  · rw [Function.update_of_ne hj] at hk
    exact h j k hk

/-- Records can change if their keys stay. -/
theorem Sound.of_key_eq (h : Sound hash key table)
    (hkey : ∀ i, key (table' i) = key (table i)) : Sound hash key table' :=
  fun i k hk => h i k ((hkey i).symm.trans hk)

theorem keys_eq_of_key_eq (hkey : ∀ i, key (table' i) = key (table i)) :
    keys key table' = keys key table := by
  ext k
  exact exists_congr fun i => by rw [hkey]

/-- A record in a free slot adds its key. -/
theorem Sound.mem_keys_fill_iff [DecidableEq ι] (h : Sound hash key table)
    (hfree : key (table (hash k)) = none) (hr : key r = some k) :
    k' ∈ keys key (Function.update table (hash k) r) ↔ k' = k ∨ k' ∈ keys key table := by
  have hsound : Sound hash key (Function.update table (hash k) r) :=
    h.update fun k' hk' => by rw [Option.some.inj (hk'.symm.trans hr)]
  rw [hsound.mem_keys_iff, h.mem_keys_iff]
  by_cases hhash : hash k' = hash k
  · -- of the keys with this slot, only the new one is there
    rw [hhash, Function.update_self, hfree, hr, Option.some.injEq]
    simp [eq_comm]
  · rw [Function.update_of_ne hhash]
    refine (or_iff_right ?_).symm
    rintro rfl
    exact hhash rfl

/-- A slot that is freed takes its key out. -/
theorem Sound.mem_keys_clear_iff [DecidableEq ι] (h : Sound hash key table)
    (hslot : key (table (hash k)) = some k) (hr : key r = none) :
    k' ∈ keys key (Function.update table (hash k) r) ↔ k' ∈ keys key table ∧ k' ≠ k := by
  have hsound : Sound hash key (Function.update table (hash k) r) :=
    h.update fun k' hk' => nomatch hk'.symm.trans hr
  rw [hsound.mem_keys_iff, h.mem_keys_iff]
  by_cases hhash : hash k' = hash k
  · rw [hhash, Function.update_self, hslot, hr, Option.some.injEq]
    simp [eq_comm]
  · rw [Function.update_of_ne hhash]
    refine (and_iff_left ?_).symm
    rintro rfl
    exact hhash rfl

end DirectMapped
