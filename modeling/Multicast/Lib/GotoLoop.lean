import Mathlib.Data.Nat.Notation
import Mathlib.Logic.Relation

/-!
# Loops closed by a backward jump

A function whose body ends either by jumping back to its first line or by
returning is given by one pass over the body. A pass takes the state at the
label to an outcome and to the events it produced on the way. The pass itself is
total; whether the function returns is a property of the passes that follow
one another.

## Main definitions

* `GotoLoop.Pass` — how one pass ends: back at the label, or with a result
* `GotoLoop.Returns` — the loop returns a result, after the given events
* `GotoLoop.Arrives` — the states in which the label is reached
* `GotoLoop.exec` — the same loop with bounded lookahead, for evaluation
* `GotoLoop.guarded` — the same loop, ended without a result where a pass would fail

## Main results

* `Returns.unique` — the result and the events are determined by the state
* `returns_iff_exec` — the bounded loop computes exactly the results returned
* `exists_returns_of_measure` — a measure that every jump decreases makes the
  loop return
* `not_returns_of_invariant` — states that only jump among themselves never
  return
* `Returns.simulate` — loops with related passes return related results
* `returns_guarded_iff` — a guarded loop returns what the loop returns, if no pass fails
-/

set_option autoImplicit false

namespace GotoLoop

/-- The end of one pass over the body: a jump to the label with a new state, or
a result. -/
inductive Pass (σ ρ : Type*) where
  | goto (next : σ)
  | ret (result : ρ)

/-- One pass over the body, with the events it produces. -/
abbrev Body (σ ρ ε : Type*) := σ → Pass σ ρ × List ε

variable {σ ρ ε : Type*} {body : Body σ ρ ε} {s s' : σ} {r r' : ρ} {ev ev' : List ε}

/-- The loop, entered at the label in state `s`, returns `r` after the events
`ev`. -/
inductive Returns (body : Body σ ρ ε) : σ → ρ → List ε → Prop
  | ret {s : σ} {r : ρ} {ev : List ε} : body s = (.ret r, ev) → Returns body s r ev
  | goto {s s' : σ} {r : ρ} {ev ev' : List ε} :
      body s = (.goto s', ev) → Returns body s' r ev' → Returns body s r (ev ++ ev')

/-- One jump back to the label. -/
def Jumps (body : Body σ ρ ε) (s s' : σ) : Prop := ∃ ev, body s = (.goto s', ev)

/-- The label is reached in state `s'` when the loop is entered in `s`. -/
abbrev Arrives (body : Body σ ρ ε) : σ → σ → Prop := Relation.ReflTransGen (Jumps body)

/-- The loop with at most `fuel` passes. -/
def exec (body : Body σ ρ ε) : ℕ → σ → Option (ρ × List ε)
  | 0, _ => none
  | fuel + 1, s =>
    match body s with
    | (.ret r, ev) => some (r, ev)
    | (.goto s', ev) => (exec body fuel s').map fun out => (out.1, ev ++ out.2)

theorem Returns.of_exec {fuel : ℕ} (h : exec body fuel s = some (r, ev)) :
    Returns body s r ev := by
  induction fuel generalizing s ev with
  | zero => simp [exec] at h
  | succ fuel ih =>
    rw [exec] at h
    split at h
    next r₁ ev₁ hbody =>
      obtain ⟨rfl, rfl⟩ : r₁ = r ∧ ev₁ = ev := by simpa using h
      exact .ret hbody
    next s₁ ev₁ hbody =>
      obtain ⟨⟨r₂, ev₂⟩, hrec, heq⟩ := Option.map_eq_some_iff.mp h
      obtain ⟨rfl, rfl⟩ : r₂ = r ∧ ev₁ ++ ev₂ = ev := by simpa using heq
      exact .goto hbody (ih hrec)

theorem Returns.exists_exec (h : Returns body s r ev) :
    ∃ fuel, exec body fuel s = some (r, ev) := by
  induction h with
  | ret hbody => exact ⟨1, by rw [exec, hbody]⟩
  | goto hbody _ ih =>
    obtain ⟨fuel, hrec⟩ := ih
    exact ⟨fuel + 1, by rw [exec, hbody]; simp [hrec]⟩

/-- The bounded loop computes exactly the results the loop returns. -/
theorem returns_iff_exec :
    Returns body s r ev ↔ ∃ fuel, exec body fuel s = some (r, ev) :=
  ⟨Returns.exists_exec, fun ⟨_, h⟩ => .of_exec h⟩

theorem Returns.inv_ret (h : Returns body s r ev) (hbody : body s = (.ret r', ev')) :
    r = r' ∧ ev = ev' := by
  cases h with
  | ret h => simpa [hbody, eq_comm] using h
  | goto h _ => simp [hbody] at h

theorem Returns.inv_goto (h : Returns body s r ev) (hbody : body s = (.goto s', ev')) :
    ∃ rest, ev = ev' ++ rest ∧ Returns body s' r rest := by
  cases h with
  | ret h => simp [hbody] at h
  | goto h hrest =>
    rw [hbody] at h
    obtain ⟨hs, rfl⟩ := Prod.ext_iff.mp h
    obtain rfl := Pass.goto.inj hs
    exact ⟨_, rfl, hrest⟩

/-- What the loop returns, and the events on the way, depend on the state
alone. -/
theorem Returns.unique (h : Returns body s r ev) (h' : Returns body s r' ev') :
    r = r' ∧ ev = ev' := by
  induction h generalizing ev' with
  | ret hbody =>
    obtain ⟨rfl, rfl⟩ := h'.inv_ret hbody
    exact ⟨rfl, rfl⟩
  | goto hbody _ ih =>
    obtain ⟨rest, rfl, hrest⟩ := h'.inv_goto hbody
    obtain ⟨rfl, rfl⟩ := ih hrest
    exact ⟨rfl, rfl⟩

/-- **Divergence rule.** A set of states in which every pass jumps back into the
set contains no state from which the loop returns. -/
theorem not_returns_of_invariant {P : σ → Prop}
    (hstep : ∀ s, P s → ∃ s', Jumps body s s' ∧ P s') (hs : P s) :
    ¬ Returns body s r ev := by
  intro h
  induction h with
  | ret hbody =>
    -- the pass that returns would have to be one that jumps
    obtain ⟨s', ⟨ev, hjump⟩, -⟩ := hstep _ hs
    simp [hbody] at hjump
  | goto hbody _ ih =>
    -- the pass is the one that the invariant speaks of
    obtain ⟨s', ⟨ev, hjump⟩, hs'⟩ := hstep _ hs
    rw [hbody] at hjump
    obtain rfl := Pass.goto.inj (Prod.ext_iff.mp hjump).1
    exact ih hs'

/-- An invariant of the jumps holds whenever the label is reached. -/
theorem Arrives.invariant {P : σ → Prop} (hstep : ∀ s s', P s → Jumps body s s' → P s')
    (h : Arrives body s s') (hs : P s) : P s' := by
  induction h with
  | refl => exact hs
  | tail _ hjump ih => exact hstep _ _ ih hjump

/-- What an invariant of the jumps says of every pass that returns, it says of the
result. -/
theorem Returns.invariant {P : σ → Prop} {Q : ρ → Prop}
    (hstep : ∀ s s', P s → Jumps body s s' → P s')
    (hret : ∀ s r ev, P s → body s = (.ret r, ev) → Q r)
    (h : Returns body s r ev) (hs : P s) : Q r := by
  induction h with
  | ret hbody => exact hret _ _ _ hs hbody
  | goto hbody _ ih => exact ih (hstep _ _ hs ⟨_, hbody⟩)

/-! ### Related loops -/

/-- Two passes end alike, after the same events. -/
inductive PassRel {σ' ρ' : Type*} (R : σ → σ' → Prop) (Q : ρ → ρ' → Prop) :
    Pass σ ρ × List ε → Pass σ' ρ' × List ε → Prop
  | goto {s : σ} {s' : σ'} {ev : List ε} : R s s' → PassRel R Q (.goto s, ev) (.goto s', ev)
  | ret {r : ρ} {r' : ρ'} {ev : List ε} : Q r r' → PassRel R Q (.ret r, ev) (.ret r', ev)

/-- **Simulation rule.** When passes from related states end alike, a loop that
returns is matched by a loop that returns a related result after the same events. -/
theorem Returns.simulate {σ' ρ' : Type*} {body' : Body σ' ρ' ε} {R : σ → σ' → Prop}
    {Q : ρ → ρ' → Prop} (hbody : ∀ s t, R s t → PassRel R Q (body s) (body' t))
    (h : Returns body s r ev) {t : σ'} (hR : R s t) :
    ∃ r', Returns body' t r' ev ∧ Q r r' := by
  induction h generalizing t with
  | @ret s r ev hpass =>
    -- the second loop returns in the same pass
    have hrel := hbody s t hR
    rw [hpass] at hrel
    generalize hpass' : body' t = out at hrel
    cases hrel with
    | ret hQ => exact ⟨_, .ret hpass', hQ⟩
  | @goto s s₁ r ev ev' hpass _ ih =>
    -- the second loop jumps in the same pass, to a related state
    have hrel := hbody s t hR
    rw [hpass] at hrel
    generalize hpass' : body' t = out at hrel
    cases hrel with
    | goto hR' =>
      obtain ⟨r', hret, hQ⟩ := ih hR'
      exact ⟨r', .goto hpass' hret, hQ⟩

/-! ### Loops that can fail -/

section Guarded

variable {fails : σ → Prop} [DecidablePred fails]

/-- The loop that stops without a result where the next pass would fail. -/
def guarded (fails : σ → Prop) [DecidablePred fails] (body : Body σ ρ ε) :
    Body σ (Option ρ) ε := fun s =>
  if fails s then (.ret none, [])
  else
    match body s with
    | (.goto s', ev) => (.goto s', ev)
    | (.ret r, ev) => (.ret (some r), ev)

theorem guarded_eq_goto_iff :
    guarded fails body s = (.goto s', ev) ↔ ¬ fails s ∧ body s = (.goto s', ev) := by
  unfold guarded
  split
  next hfails => simp [hfails]
  next hsafe =>
    rcases body s with ⟨_ | _, ev⟩ <;> simp [hsafe]

theorem guarded_eq_some_iff :
    guarded fails body s = (.ret (some r), ev) ↔ ¬ fails s ∧ body s = (.ret r, ev) := by
  unfold guarded
  split
  next hfails => simp [hfails]
  next hsafe =>
    rcases body s with ⟨_ | _, ev⟩ <;> simp [hsafe]

/-- Guards take no state away before the first pass that fails. -/
theorem Arrives.guarded (hsafe : ∀ s', Arrives body s s' → ¬ fails s') (h : Arrives body s s') :
    Arrives (guarded fails body) s s' := by
  induction h with
  | refl => exact .refl
  | tail hbefore hjump ih =>
    obtain ⟨ev, hbody⟩ := hjump
    exact ih.tail ⟨ev, guarded_eq_goto_iff.mpr ⟨hsafe _ hbefore, hbody⟩⟩

/-- A guarded loop returns exactly what the loop returns when no pass on the way fails. -/
theorem returns_guarded_iff : Returns (guarded fails body) s (some r) ev ↔
    Returns body s r ev ∧ ∀ s', Arrives body s s' → ¬ fails s' := by
  constructor
  · intro h
    generalize hout : some r = out at h
    induction h with
    | @ret s out ev hpass =>
      subst hout
      obtain ⟨hsafe, hbody⟩ := guarded_eq_some_iff.mp hpass
      refine ⟨.ret hbody, fun s' harrives => ?_⟩
      rcases Relation.ReflTransGen.cases_head harrives with rfl | ⟨s₁, ⟨ev', hjump⟩, -⟩
      · exact hsafe
      · simp [hbody] at hjump
    | @goto s s₁ out ev ev' hpass _ ih =>
      obtain ⟨hsafe, hbody⟩ := guarded_eq_goto_iff.mp hpass
      obtain ⟨hret, hrest⟩ := ih hout
      refine ⟨.goto hbody hret, fun s' harrives => ?_⟩
      rcases Relation.ReflTransGen.cases_head harrives with rfl | ⟨s₂, ⟨ev₂, hjump⟩, hafter⟩
      · exact hsafe
      · obtain ⟨rfl, -⟩ : s₁ = s₂ ∧ ev = ev₂ := by simpa [hbody] using hjump
        exact hrest s' hafter
  · rintro ⟨hret, hsafe⟩
    induction hret with
    | ret hbody => exact .ret (guarded_eq_some_iff.mpr ⟨hsafe _ .refl, hbody⟩)
    | goto hbody _ ih =>
      refine .goto (guarded_eq_goto_iff.mpr ⟨hsafe _ .refl, hbody⟩) (ih fun s' harrives => ?_)
      exact hsafe s' (.head ⟨_, hbody⟩ harrives)

end Guarded

end GotoLoop
