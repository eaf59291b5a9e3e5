import Mathlib.Data.List.Perm.Subperm

/-!
# Tallies

A tally counts votes until there are as many as names on a list. That the count is reached
says that everybody voted only if no one voted twice and no stranger did.

## Main results

* `covers_iff_of_length_eq` — as many votes as names cover the names exactly if they are
  different and come from the names
* `exists_prefix_length_filter` — the count is reached behind some part of the votes
-/

set_option autoImplicit false

namespace Tally

variable {α β : Type*} {names votes : List α} {n : ℕ}

/-- As many votes as names: everybody on the list voted if and only if nobody voted twice
and only those on the list voted. -/
theorem covers_iff_of_length_eq (hnodup : names.Nodup) (hlen : votes.length = names.length) :
    (∀ x ∈ names, x ∈ votes) ↔ votes.Nodup ∧ ∀ x ∈ votes, x ∈ names := by
  constructor
  · intro hcovers
    have hperm : names.Perm votes :=
      (List.subperm_of_subset hnodup hcovers).perm_of_length_le (Nat.le_of_eq hlen)
    exact ⟨hperm.nodup hnodup, fun x hx => hperm.mem_iff.mpr hx⟩
  · rintro ⟨hvotes, hsubset⟩ x hx
    have hperm : votes.Perm names :=
      (List.subperm_of_subset hvotes hsubset).perm_of_length_le (Nat.le_of_eq hlen.symm)
    exact hperm.mem_iff.mpr hx

/-- A count that is reached in the end was reached behind some first part, exactly. -/
theorem exists_prefix_length_filter (p : β → Bool) (items : List β)
    (h : n ≤ (items.filter p).length) :
    ∃ front back, items = front ++ back ∧ (front.filter p).length = n := by
  induction items generalizing n with
  | nil => exact ⟨[], [], rfl, by simpa using (Nat.le_zero.mp h).symm⟩
  | cons x items ih =>
    cases n with
    | zero => exact ⟨[], x :: items, rfl, rfl⟩
    | succ n =>
      by_cases hx : p x
      · -- the item counts, and one less is needed behind it
        rw [List.filter_cons_of_pos hx, List.length_cons] at h
        obtain ⟨front, back, rfl, hfront⟩ := ih (Nat.le_of_succ_le_succ h)
        exact ⟨x :: front, back, rfl, by rw [List.filter_cons_of_pos hx, List.length_cons, hfront]⟩
      · rw [List.filter_cons_of_neg hx] at h
        obtain ⟨front, back, rfl, hfront⟩ := ih h
        exact ⟨x :: front, back, rfl, by rw [List.filter_cons_of_neg hx, hfront]⟩

end Tally
