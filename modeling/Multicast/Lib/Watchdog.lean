import Mathlib.Algebra.Order.Monoid.Defs
import Mathlib.Data.List.Chain

/-!
# Watchdogs

Somebody is heard of from time to time, and a watchdog looks from time to time how long ago
that was. It gives up when more than a limit has passed.

## Main definitions

* `Watchdog.Event` — somebody is heard, or the watchdog looks
* `Watchdog.InTime` — the watchdog never finds that the limit has passed

## Main results

* `inTime_of_heard` — whoever is heard often enough is not given up
* `exists_late_check` — whoever is silent is given up, and soon
-/

set_option autoImplicit false

namespace Watchdog

variable {T : Type*}

/-- Somebody is heard, or the watchdog looks, at a time. -/
inductive Event (T : Type*) where
  | heard (now : T)
  | checked (now : T)

def Event.time : Event T → T
  | .heard now | .checked now => now

/-- The time at which an event tells that somebody is there. -/
def Event.heardAt : Event T → Option T
  | .heard now => some now
  | .checked _ => none

/-- The last time that somebody was heard, which was at time `t` before the events. -/
def lastHeard : T → List (Event T) → T
  | t, [] => t
  | _, .heard now :: es => lastHeard now es
  | t, .checked _ :: es => lastHeard t es

theorem lastHeard_of_silent {t : T} {es : List (Event T)}
    (hsilent : ∀ e ∈ es, e.heardAt = none) : lastHeard t es = t := by
  induction es with
  | nil => rfl
  | cons e es ih =>
    obtain ⟨hfirst, hrest⟩ := List.forall_mem_cons.mp hsilent
    cases e with
    | heard now => cases hfirst
    | checked now => exact ih hrest

variable [AddCommMonoid T] [LinearOrder T]

/-- At no check more than the limit has passed since somebody was heard. -/
def InTime (limit : T) : T → List (Event T) → Prop
  | _, [] => True
  | _, .heard now :: es => InTime limit now es
  | t, .checked now :: es => now ≤ t + limit ∧ InTime limit t es

variable {limit period t u : T} {es : List (Event T)}

/-- **Accuracy.** If the clock does not go back, and no more than the limit passes from one time
that somebody is heard to the next, then the watchdog does not give up. -/
theorem inTime_of_heard (hclock : (es.map Event.time ++ [u]).Pairwise (· ≤ ·))
    (hheard : (t :: (es.filterMap Event.heardAt ++ [u])).IsChain fun a b => b ≤ a + limit) :
    InTime limit t es := by
  induction es generalizing t with
  | nil => trivial
  | cons e es ih =>
    obtain ⟨hfirst, hlater⟩ := List.pairwise_cons.mp hclock
    cases e with
    | heard now => exact ih hlater (List.isChain_cons_cons.mp hheard).2
    | checked now =>
      refine ⟨?_, ih hlater hheard⟩
      -- somebody is heard next after the check, and in time
      obtain ⟨next, rest, hnext⟩ : ∃ next rest, es.filterMap Event.heardAt ++ [u] = next :: rest :=
        List.exists_cons_of_ne_nil (List.append_ne_nil_of_right_ne_nil _ (List.cons_ne_nil u []))
      have hnext_le : now ≤ next := by
        refine hfirst next ?_
        have hmem : next ∈ es.filterMap Event.heardAt ++ [u] := hnext ▸ List.mem_cons_self
        rcases List.mem_append.mp hmem with hmem | hmem
        · obtain ⟨e, he, htime⟩ := List.mem_filterMap.mp hmem
          cases e with
          | heard time =>
            obtain rfl := Option.some.inj htime
            exact List.mem_append_left _ (List.mem_map_of_mem he)
          | checked time => cases htime
        · exact List.mem_append_right _ hmem
      have hchain : (t :: next :: rest).IsChain fun a b => b ≤ a + limit := hnext ▸ hheard
      exact hnext_le.trans (List.isChain_cons_cons.mp hchain).1

variable [IsOrderedAddMonoid T]

/-- **Completeness.** If nobody is heard, and the watchdog looks at least once in a period until
the limit has passed, then it finds so within a period
of that moment. -/
theorem exists_late_check (hsilent : ∀ e ∈ es, e.heardAt = none)
    (hperiod : (t :: es.map Event.time).IsChain fun a b => b ≤ a + period)
    (hstart : t ≤ u + limit) (hend : ∃ e ∈ es, u + limit < e.time) :
    ∃ front now back, es = front ++ .checked now :: back ∧ InTime limit u front ∧
      u + limit < now ∧ now ≤ u + limit + period := by
  induction es generalizing t with
  | nil =>
    obtain ⟨e, he, -⟩ := hend
    exact absurd he List.not_mem_nil
  | cons e es ih =>
    obtain ⟨hfirst, hrest⟩ := List.forall_mem_cons.mp hsilent
    cases e with
    | heard now => cases hfirst
    | checked now =>
      obtain ⟨hnow, hperiod⟩ := List.isChain_cons_cons.mp hperiod
      by_cases hlate : u + limit < now
      · -- the check before was not late
        exact ⟨[], now, es, rfl, trivial, hlate, hnow.trans (add_le_add_left hstart period)⟩
      · obtain ⟨e, he, hlast⟩ := hend
        rcases List.mem_cons.mp he with rfl | he
        · exact absurd hlast hlate
        · obtain ⟨front, now', back, rfl, hfront, hcheck⟩ :=
            ih hrest hperiod (not_lt.mp hlate) ⟨e, he, hlast⟩
          exact ⟨.checked now :: front, now', back, rfl, ⟨not_lt.mp hlate, hfront⟩, hcheck⟩

end Watchdog
