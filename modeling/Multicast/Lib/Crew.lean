import Mathlib.Algebra.BigOperators.Group.Finset.Piecewise
import Mathlib.Data.Fintype.Basic

/-!
# Crews of threads

A system has finitely many threads, each in a state of its own. What it counts over its
threads is a sum, which a step of one thread changes in one term only, and which a call
that moves some threads at once changes in their terms.

## Main results

* `sum_update_add` — one thread goes on
* `sum_piecewise_add` — some threads are moved
* `exists_update`, `exists_of_update`, `forall_update` — what holds of some or of all threads
-/

set_option autoImplicit false

namespace Crew

variable {κ ω M : Type*} [DecidableEq κ] {crew : κ → ω} {k : κ} {w w' : ω}

/-- What holds of some thread still does, if it does of the one that goes on. -/
theorem exists_update (p : ω → Prop) (h : ∃ j, p (crew j)) (hk : p (crew k) → p w') :
    ∃ j, p (Function.update crew k w' j) := by
  obtain ⟨j, hj⟩ := h
  by_cases hjk : j = k
  · subst hjk
    exact ⟨j, by rw [Function.update_self]; exact hk hj⟩
  · exact ⟨j, by rwa [Function.update_of_ne hjk]⟩

/-- What holds of some thread did so before, if not of the one that went on. -/
theorem exists_of_update (p : ω → Prop) (h : ∃ j, p (Function.update crew k w' j)) (hw' : ¬ p w') :
    ∃ j, p (crew j) := by
  obtain ⟨j, hj⟩ := h
  by_cases hjk : j = k
  · subst hjk
    rw [Function.update_self] at hj
    exact absurd hj hw'
  · exact ⟨j, by rwa [Function.update_of_ne hjk] at hj⟩

theorem forall_update (p : ω → Prop) (h : ∀ j, p (crew j)) (hw' : p w') (j : κ) :
    p (Function.update crew k w' j) := by
  by_cases hjk : j = k
  · subst hjk
    rwa [Function.update_self]
  · rw [Function.update_of_ne hjk]
    exact h j

variable [Fintype κ] [AddCommMonoid M] {moved : Finset κ}

/-- A thread goes on from one state to another. -/
theorem sum_update_add (f : ω → M) (hk : crew k = w) :
    ∑ j, f (Function.update crew k w' j) + f w = ∑ j, f (crew j) + f w' := by
  have hcrew := Finset.sum_erase_add Finset.univ (fun j => f (crew j)) (Finset.mem_univ k)
  have hupdate := Finset.sum_erase_add Finset.univ (fun j => f (Function.update crew k w' j))
    (Finset.mem_univ k)
  -- the other threads stay where they are
  have hothers : ∑ j ∈ Finset.univ.erase k, f (Function.update crew k w' j) =
      ∑ j ∈ Finset.univ.erase k, f (crew j) :=
    Finset.sum_congr rfl fun j hj => by rw [Function.update_of_ne (Finset.ne_of_mem_erase hj)]
  simp only [Function.update_self] at hupdate
  rw [← hupdate, ← hcrew, hk, hothers]
  exact add_right_comm ..

/-- Threads in one state are moved to another. -/
theorem sum_piecewise_add (f : ω → M) (hmoved : ∀ k ∈ moved, crew k = w) :
    ∑ j, f (moved.piecewise (fun _ => w') crew j) + moved.card • f w =
      ∑ j, f (crew j) + moved.card • f w' := by
  induction moved using Finset.induction_on with
  | empty => simp
  | insert k moved hk ih =>
    obtain ⟨hhere, hthere⟩ := Finset.forall_mem_insert .. |>.mp hmoved
    rw [Finset.piecewise_insert, Finset.card_insert_of_notMem hk, succ_nsmul, succ_nsmul]
    have hwhere : moved.piecewise (fun _ => w') crew k = w :=
      (Finset.piecewise_eq_of_notMem moved _ crew hk).trans hhere
    have hnext : _ + f w = _ + f w' := sum_update_add f hwhere
    rw [← add_assoc, add_right_comm, hnext, add_right_comm, ih hthere, add_assoc]

end Crew
