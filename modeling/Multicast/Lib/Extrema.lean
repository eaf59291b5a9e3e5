import Mathlib.Data.List.Forall2
import Mathlib.Data.List.MinMax

/-!
# Extrema of lists in pieces

A list is cut into runs of one length, the extremum of each run is taken, and then the
extremum of these. That is the extremum of the list, as far as the runs reach.

## Main definitions

* `Extrema.Extremum` — the first entry of a list with respect to a relation

## Main results

* `flatten_runs` — the runs of a list
* `Extremum.flatten` — the extremum of the extrema
* `minimum_eq_iff`, `maximum_eq_iff` — minima and maxima are extrema
-/

set_option autoImplicit false

namespace Extrema

variable {α : Type*} {r : α → α → Prop} {m : α}

/-- An entry of the list that comes before every entry. -/
structure Extremum (r : α → α → Prop) (l : List α) (m : α) : Prop where
  mem : m ∈ l
  le : ∀ a ∈ l, r m a

/-- The first `n` runs of length `q`. -/
theorem flatten_runs (l : List α) (q n : ℕ) :
    ((List.range n).map fun i => (l.drop (i * q)).take q).flatten = l.take (n * q) := by
  induction n with
  | zero => rw [Nat.zero_mul, List.take_zero, List.range_zero, List.map_nil, List.flatten_nil]
  | succ n ih =>
    rw [List.range_succ, List.map_append, List.flatten_append, ih, List.map_singleton,
      List.flatten_singleton, Nat.succ_mul, List.take_add]

/-- An extremum of extrema is an extremum of everything. -/
theorem Extremum.flatten [IsTrans α r] {pieces : List (List α)} {extrema : List α}
    (hm : Extremum r extrema m) (h : List.Forall₂ (Extremum r) pieces extrema) :
    Extremum r pieces.flatten m where
  mem := by
    obtain ⟨i, hi, rfl⟩ := List.mem_iff_getElem.mp hm.mem
    have hi' : i < pieces.length := h.length_eq ▸ hi
    exact List.mem_flatten.mpr ⟨pieces[i], List.getElem_mem hi', (h.get hi' hi).mem⟩
  le a ha := by
    obtain ⟨piece, hpiece, hmem⟩ := List.mem_flatten.mp ha
    obtain ⟨i, hi, rfl⟩ := List.mem_iff_getElem.mp hpiece
    have hi' : i < extrema.length := h.length_eq ▸ hi
    -- the extremum of the piece is between the two
    exact IsTrans.trans _ _ _ (hm.le _ (List.getElem_mem hi')) ((h.get hi hi').le a hmem)

theorem minimum_eq_iff [LinearOrder α] {l : List α} :
    l.minimum = m ↔ Extremum (· ≤ ·) l m :=
  List.minimum_eq_coe_iff.trans ⟨fun h => ⟨h.1, h.2⟩, fun h => ⟨h.mem, h.le⟩⟩

theorem maximum_eq_iff [LinearOrder α] {l : List α} :
    l.maximum = m ↔ Extremum (· ≥ ·) l m :=
  List.maximum_eq_coe_iff.trans ⟨fun h => ⟨h.1, h.2⟩, fun h => ⟨h.mem, h.le⟩⟩

end Extrema
