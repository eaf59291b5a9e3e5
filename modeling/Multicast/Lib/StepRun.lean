import Mathlib.Data.Option.Basic

/-!
# Runs of partial steps

A system is a partial function that takes an action and a state to the next state;
it is undefined where the action cannot happen. A run is a sequence of actions, each
possible where it happens.

## Main definitions

* `StepRun.run` — the state a run ends in
* `StepRun.Along` — a property holds in every state a run passes
* `StepRun.Meets` — every step of a run meets a condition on the state before it
* `StepRun.Checks` — so does every action that is tried, whether it can happen or not

## Main results

* `run_invariant` — an invariant of the steps holds at the end of every run
* `Meets.run_invariant` — one that only steps meeting a condition keep
* `along_iff_meets` — a property is kept exactly by the runs that meet a condition,
  when it is kept exactly by the steps that do
* `checks_iff_checks` — two conditions that agree as long as one of them is met
* `run_log_eq` — a log that each action appends to
* `Checks.exists_run` — actions that meet a condition are possible, and follow a function
* `exists_run_of_simulates` — a system that follows every step of another one follows its runs
* `run_rel` — systems whose steps agree have runs that agree
-/

set_option autoImplicit false

namespace StepRun

variable {α σ : Type*} {step : α → σ → Option σ} {I P : σ → Prop} {ok : α → σ → Prop}
variable {ok' : α → σ → Prop} {as : List α} {a : α} {s s' s'' : σ}

/-- The state in which a run from `s` ends. -/
def run (step : α → σ → Option σ) : List α → σ → Option σ
  | [], s => some s
  | a :: as, s => (step a s).bind (run step as)

/-- `P` holds in every state that the run passes, the first and the last included. A
run ends where an action cannot happen. -/
def Along (step : α → σ → Option σ) (P : σ → Prop) : List α → σ → Prop
  | [], s => P s
  | a :: as, s => P s ∧ ∀ s', step a s = some s' → Along step P as s'

/-- Every step of the run meets the condition `ok`. -/
def Meets (step : α → σ → Option σ) (ok : α → σ → Prop) : List α → σ → Prop
  | [], _ => True
  | a :: as, s => ∀ s', step a s = some s' → ok a s ∧ Meets step ok as s'

/-- Every action that is tried, up to the first that cannot happen, meets the condition
`ok`. -/
def Checks (step : α → σ → Option σ) (ok : α → σ → Prop) : List α → σ → Prop
  | [], _ => True
  | a :: as, s => ok a s ∧ ∀ s', step a s = some s' → Checks step ok as s'

instance Meets.decidable [∀ a s, Decidable (ok a s)] : ∀ as s, Decidable (Meets step ok as s)
  | [], _ => .isTrue trivial
  | a :: as, s =>
    match h : step a s with
    | none => .isTrue fun s' hs' => by
        -- nothing is asked of an action that cannot happen
        rw [h] at hs'
        cases hs'
    | some s' =>
      haveI := Meets.decidable as s'
      decidable_of_iff (ok a s ∧ Meets step ok as s') (by simp [Meets, h])

theorem run_cons_eq_some : run step (a :: as) s = some s'' ↔
    ∃ s', step a s = some s' ∧ run step as s' = some s'' := Option.bind_eq_some_iff

/-- A run is cut between two actions. -/
theorem run_append {bs : List α} :
    run step (as ++ bs) s = (run step as s).bind (run step bs) := by
  induction as generalizing s with
  | nil => rfl
  | cons a as ih =>
    rw [List.cons_append, run, run, Option.bind_assoc]
    exact congrArg _ (funext fun s₁ => ih)

/-- **Invariant rule.** -/
theorem run_invariant (hstep : ∀ a s s', I s → step a s = some s' → I s')
    (h : run step as s = some s') (hs : I s) : I s' := by
  induction as generalizing s with
  | nil => exact Option.some.inj h ▸ hs
  | cons a as ih =>
    obtain ⟨s₁, hstep₁, hrun⟩ := run_cons_eq_some.mp h
    exact ih hrun (hstep a s s₁ hs hstep₁)

/-- **Log rule.** What each action appends to a log is what a run appends to it. -/
theorem run_log_eq {β : Type*} {log : σ → List β} {out : α → List β}
    (hstep : ∀ a s s', step a s = some s' → log s' = log s ++ out a)
    (h : run step as s = some s') : log s' = log s ++ as.flatMap out := by
  induction as generalizing s with
  | nil =>
    obtain rfl := Option.some.inj h
    exact (List.append_nil _).symm
  | cons a as ih =>
    obtain ⟨s₁, hstep₁, hrun⟩ := run_cons_eq_some.mp h
    rw [ih hrun, hstep a s s₁ hstep₁, List.append_assoc, List.flatMap_cons]

/-- **Invariant rule, guarded.** An invariant that the steps meeting a condition keep
holds at the end of every run whose steps all meet it. -/
theorem Meets.run_invariant (hstep : ∀ a s s', I s → ok a s → step a s = some s' → I s')
    (hok : Meets step ok as s) (h : run step as s = some s') (hs : I s) : I s' := by
  induction as generalizing s with
  | nil => exact Option.some.inj h ▸ hs
  | cons a as ih =>
    obtain ⟨s₁, hstep₁, hrun⟩ := run_cons_eq_some.mp h
    obtain ⟨ha, has⟩ := hok s₁ hstep₁
    exact ih has hrun (hstep a s s₁ hs ha hstep₁)

/-- Actions of a kind that keep an invariant meet what they meet in each state with it. -/
theorem Meets.of_invariant {allowed : α → Prop}
    (hstep : ∀ a s s', I s → allowed a → step a s = some s' → I s')
    (hok : ∀ a s, I s → allowed a → ok a s) (hall : ∀ a ∈ as, allowed a) (hs : I s) :
    Meets step ok as s := by
  induction as generalizing s with
  | nil => trivial
  | cons a as ih =>
    obtain ⟨ha, has⟩ := List.forall_mem_cons.mp hall
    exact fun s₁ hstep₁ => ⟨hok a s hs ha, ih has (hstep a s s₁ hs ha hstep₁)⟩

/-- **Invariant rule for some actions.** -/
theorem run_invariant_of_mem {allowed : α → Prop}
    (hstep : ∀ a s s', I s → allowed a → step a s = some s' → I s') (hall : ∀ a ∈ as, allowed a)
    (h : run step as s = some s') (hs : I s) : I s' := by
  have hmeets : Meets step (fun a _ => allowed a) as s :=
    Meets.of_invariant hstep (fun _ _ _ ha => ha) hall hs
  exact hmeets.run_invariant hstep h hs

/-- A property holds along a run exactly when it holds at the end of every part of it
from the beginning. -/
theorem along_iff_forall_prefix : Along step P as s ↔
    ∀ front back s', as = front ++ back → run step front s = some s' → P s' := by
  induction as generalizing s with
  | nil =>
    constructor
    · rintro h front back s' hsplit hrun
      obtain ⟨rfl, -⟩ := List.append_eq_nil_iff.mp hsplit.symm
      exact Option.some.inj hrun ▸ h
    · intro h
      exact h [] [] s rfl rfl
  | cons a as ih =>
    rw [Along]
    constructor
    · rintro ⟨hs, hrest⟩ front back s' hsplit hrun
      cases front with
      | nil => exact Option.some.inj hrun ▸ hs
      | cons a' front =>
        -- the part begins with the first step of the run
        obtain ⟨rfl, rfl⟩ := List.cons_eq_cons.mp hsplit
        obtain ⟨s₁, hstep₁, hrun⟩ := run_cons_eq_some.mp hrun
        exact ih.mp (hrest s₁ hstep₁) front back s' rfl hrun
    · intro h
      refine ⟨h [] (a :: as) s rfl rfl, fun s₁ hstep₁ => ih.mpr ?_⟩
      rintro front back s' rfl hrun
      exact h (a :: front) back s' rfl (run_cons_eq_some.mpr ⟨s₁, hstep₁, hrun⟩)

theorem Along.first (h : Along step P as s) : P s :=
  along_iff_forall_prefix.mp h [] as s rfl rfl

theorem Along.last (h : Along step P as s) (hrun : run step as s = some s') : P s' :=
  along_iff_forall_prefix.mp h as [] s' (List.append_nil as).symm hrun

/-- **Exact rule.** When a step keeps `P` exactly if it meets the condition, the runs
along which `P` holds are those whose steps all meet it. -/
theorem along_iff_meets (hI : ∀ a s s', I s → step a s = some s' → I s')
    (hstep : ∀ a s s', I s → P s → step a s = some s' → (P s' ↔ ok a s))
    (hIs : I s) (hPs : P s) : Along step P as s ↔ Meets step ok as s := by
  induction as generalizing s with
  | nil => exact ⟨fun _ => trivial, fun _ => hPs⟩
  | cons a as ih =>
    rw [Along, Meets]
    constructor
    · rintro ⟨-, hrest⟩ s₁ hstep₁
      -- `P` holds on both sides of the first step
      have halong := hrest s₁ hstep₁
      have hPs₁ := halong.first
      exact ⟨(hstep a s s₁ hIs hPs hstep₁).mp hPs₁, (ih (hI a s s₁ hIs hstep₁) hPs₁).mp halong⟩
    · intro h
      refine ⟨hPs, fun s₁ hstep₁ => ?_⟩
      -- the condition carries `P` over the first step
      obtain ⟨ha, has⟩ := h s₁ hstep₁
      have hPs₁ := (hstep a s s₁ hIs hPs hstep₁).mpr ha
      exact (ih (hI a s s₁ hIs hstep₁) hPs₁).mpr has

/-- The actions after a part of the run are tried in the state in which it ends. -/
theorem Checks.of_append {bs : List α} (h : Checks step ok (as ++ bs) s)
    (hrun : run step as s = some s') : Checks step ok bs s' := by
  induction as generalizing s with
  | nil => exact Option.some.inj hrun ▸ h
  | cons a as ih =>
    obtain ⟨s₁, hstep₁, hrun⟩ := run_cons_eq_some.mp hrun
    exact ih (h.2 s₁ hstep₁) hrun

/-- A condition that implies another one in every state with an invariant, which it keeps. -/
theorem Checks.imp (hI : ∀ a s s', I s → ok' a s → step a s = some s' → I s')
    (hok : ∀ a s, I s → ok' a s → ok a s) (hIs : I s) (h : Checks step ok' as s) :
    Checks step ok as s := by
  induction as generalizing s with
  | nil => trivial
  | cons a as ih =>
    obtain ⟨ha, hrest⟩ := h
    exact ⟨hok a s hIs ha, fun s₁ hstep₁ => ih (hI a s s₁ hIs ha hstep₁) (hrest s₁ hstep₁)⟩

/-- **Exchange rule.** Two conditions that agree in every state with an invariant, which the
steps that meet them keep, are met by the same runs. -/
theorem checks_iff_checks (hI : ∀ a s s', I s → ok' a s → step a s = some s' → I s')
    (hok : ∀ a s, I s → (ok a s ↔ ok' a s)) (hIs : I s) :
    Checks step ok as s ↔ Checks step ok' as s := by
  induction as generalizing s with
  | nil => exact Iff.rfl
  | cons a as ih =>
    rw [Checks, Checks, hok a s hIs]
    refine and_congr_right fun ha => forall_congr' fun s₁ => forall_congr' fun hstep₁ => ?_
    exact ih (hI a s s₁ hIs ha hstep₁)

/-- **Refinement rule.** If each action that meets the condition is possible, and follows a
function on the states of a model, then so does every run whose actions meet it. -/
theorem Checks.exists_run {τ : Type*} {R : τ → σ → Prop} {next : τ → α → τ} {t : τ}
    (hstep : ∀ a t s, R t s → ok a s → ∃ s', step a s = some s' ∧ R (next t a) s')
    (h : Checks step ok as s) (hR : R t s) :
    ∃ s', run step as s = some s' ∧ R (as.foldl next t) s' := by
  induction as generalizing t s with
  | nil => exact ⟨s, rfl, hR⟩
  | cons a as ih =>
    obtain ⟨s₁, hstep₁, hR₁⟩ := hstep a t s hR h.1
    obtain ⟨s', hrun, hR'⟩ := ih (h.2 s₁ hstep₁) hR₁
    exact ⟨s', run_cons_eq_some.mpr ⟨s₁, hstep₁, hrun⟩, hR'⟩

/-- **Simulation rule.** If every step of one system, the second here, is followed by the
first, and meets a condition there, then so is every run. -/
theorem exists_run_of_simulates {τ : Type*} {step' : α → τ → Option τ} {R : τ → σ → Prop}
    {t t' : τ}
    (hstep : ∀ a t t' s, R t s → step' a t = some t' →
      ok a s ∧ ∃ s', step a s = some s' ∧ R t' s')
    (hrun : run step' as t = some t') (hR : R t s) :
    Checks step ok as s ∧ ∃ s', run step as s = some s' ∧ R t' s' := by
  induction as generalizing t s with
  | nil =>
    obtain rfl := Option.some.inj hrun
    exact ⟨trivial, s, rfl, hR⟩
  | cons a as ih =>
    obtain ⟨t₁, hstep₁, hrun⟩ := run_cons_eq_some.mp hrun
    obtain ⟨ha, s₁, hfollow, hR₁⟩ := hstep a t t₁ s hR hstep₁
    obtain ⟨hchecks, s', hrest, hR'⟩ := ih hrun hR₁
    refine ⟨⟨ha, fun s₂ hs₂ => ?_⟩, s', run_cons_eq_some.mpr ⟨s₁, hfollow, hrest⟩, hR'⟩
    obtain rfl := Option.some.inj (hfollow.symm.trans hs₂)
    exact hchecks

/-- Two guarded steps agree if their guards do. -/
theorem rel_guard {β γ : Type*} {R : β → γ → Prop} {x : Option β} {y : Option γ} {p q : Prop}
    [Decidable p] [Decidable q] (hguard : p ↔ q) (h : q → Option.Rel R x y) :
    Option.Rel R (if p then x else none) (if q then y else none) := by
  by_cases hq : q
  · rw [if_pos (hguard.mpr hq), if_pos hq]
    exact h hq
  · rw [if_neg (hguard.not.mpr hq), if_neg hq]
    exact .none

/-- **Bisimulation rule.** If from related states the same actions can happen in two systems and
lead to related states, then so can the same runs. -/
theorem run_rel {τ : Type*} {step' : α → τ → Option τ} {R : σ → τ → Prop} {t : τ}
    (hstep : ∀ a s t, R s t → Option.Rel R (step a s) (step' a t)) (hR : R s t) :
    Option.Rel R (run step as s) (run step' as t) := by
  induction as generalizing s t with
  | nil => exact .some hR
  | cons a as ih =>
    have hnext := hstep a s t hR
    rw [run, run]
    generalize step a s = next, step' a t = next' at hnext ⊢
    cases hnext with
    | none => exact .none
    | some hR' => exact ih hR'

end StepRun
