import Mathlib.Data.List.Basic

/-!
# Lists of threads

The threads of a system are a list, and a step of one of them replaces its entry. What
such a step does to the threads of interest, those that meet a test, depends on
whether the thread that steps meets it.

## Main results

* `exists_filter_set` — a thread of interest steps
* `filter_set_of_not` — another thread steps
-/

set_option autoImplicit false

namespace Threads

variable {α : Type*} {threads : List α} {k : ℕ} {t t' : α} {p : α → Bool}

/-- The threads before and after the one that steps. -/
theorem exists_set (h : threads[k]? = some t) :
    ∃ front back, threads = front ++ t :: back ∧ ∀ t', threads.set k t' = front ++ t' :: back := by
  obtain ⟨hk, rfl⟩ := List.getElem?_eq_some_iff.mp h
  refine ⟨threads.take k, threads.drop (k + 1), ?_, fun t' => ?_⟩
  · rw [← List.drop_eq_getElem_cons hk, List.take_append_drop]
  · exact List.set_eq_take_append_cons_drop.trans (if_pos hk)

/-- A step of a thread that meets the test replaces it among those that do. -/
theorem exists_filter_set (h : threads[k]? = some t) (ht : p t) :
    ∃ front back, threads.filter p = front ++ t :: back ∧
      ∀ t', p t' → (threads.set k t').filter p = front ++ t' :: back := by
  obtain ⟨front, back, hsplit, hset⟩ := exists_set h
  refine ⟨front.filter p, back.filter p, ?_, fun t' ht' => ?_⟩
  · rw [hsplit, List.filter_append, List.filter_cons_of_pos ht]
  · rw [hset, List.filter_append, List.filter_cons_of_pos ht']

/-- A step of a thread that does not meet the test leaves those that do alone. -/
theorem filter_set_of_not (h : threads[k]? = some t) (ht : ¬ p t) (ht' : ¬ p t') :
    (threads.set k t').filter p = threads.filter p := by
  obtain ⟨front, back, hsplit, hset⟩ := exists_set h
  rw [hset, hsplit, List.filter_append, List.filter_append, List.filter_cons_of_neg ht,
    List.filter_cons_of_neg ht']

end Threads
