import Mathlib.Algebra.BigOperators.Group.List.Lemmas
import Mathlib.Algebra.GroupWithZero.Nat
import Mathlib.Algebra.Order.Monoid.Unbundled.Basic
import Multicast.Lib.StepRun

/-!
# Potentials of runs

Some of the actions of a system are its own, and the others come from outside. If every
action of its own uses up some potential, and an action from outside adds a bounded amount,
then a run has only so many actions of the system, and the system comes to rest.

## Main results

* `run_amortized` — what a run uses up was there in the beginning, or was added
* `exists_run_to_rest` — a system comes to rest after finitely many actions of its own
-/

set_option autoImplicit false

namespace StepRun

variable {α σ : Type*} {step : α → σ → Option σ} {I : σ → Prop} {potential : σ → ℕ}
variable {use add : α → ℕ} {as : List α} {s s' : σ}

/-- **Amortization rule.** -/
theorem run_amortized (hI : ∀ a s s', I s → step a s = some s' → I s')
    (hstep : ∀ a s s', I s → step a s = some s' → use a + potential s' ≤ potential s + add a)
    (h : run step as s = some s') (hs : I s) :
    (as.map use).sum + potential s' ≤ potential s + (as.map add).sum := by
  induction as generalizing s with
  | nil =>
    obtain rfl := Option.some.inj h
    rw [List.map_nil, List.map_nil, List.sum_nil]
    exact (Nat.add_comm ..).le
  | cons a as ih =>
    obtain ⟨s₁, hstep₁, hrun⟩ := run_cons_eq_some.mp h
    have hfirst := hstep a s s₁ hs hstep₁
    have hrest := ih hrun (hI a s s₁ hs hstep₁)
    rw [List.map_cons, List.map_cons, List.sum_cons, List.sum_cons]
    omega

/-- **Rest rule.** -/
theorem exists_run_to_rest (own : α → Prop) (hI : ∀ a s s', I s → step a s = some s' → I s')
    (hstep : ∀ a s s', I s → own a → step a s = some s' → potential s' < potential s)
    (hs : I s) :
    ∃ as s', (∀ a ∈ as, own a) ∧ run step as s = some s' ∧ ∀ a, own a → step a s' = none := by
  induction hpotential : potential s using Nat.strong_induction_on generalizing s with
  | _ m ih =>
    by_cases hrest : ∀ a, own a → step a s = none
    · exact ⟨[], s, by simp, rfl, hrest⟩
    -- an action is possible, and the system comes to rest from the state after it
    push Not at hrest
    obtain ⟨a, ha, hpossible⟩ := hrest
    obtain ⟨s₁, hstep₁⟩ := Option.ne_none_iff_exists'.mp hpossible
    have hless := hstep a s s₁ hs ha hstep₁
    obtain ⟨as, s', hown, hrun, hrest⟩ :=
      ih (potential s₁) (hpotential ▸ hless) (hI a s s₁ hs hstep₁) rfl
    exact ⟨a :: as, s', by simpa [ha] using hown, run_cons_eq_some.mpr ⟨s₁, hstep₁, hrun⟩, hrest⟩

end StepRun
