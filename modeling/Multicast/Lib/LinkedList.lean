import Mathlib.Data.List.Basic
import Mathlib.Data.Nat.Notation
import Mathlib.Logic.Function.Basic

/-!
# Linked lists in memory

A node has a value and a pointer to the next node. A list is a chain of nodes from a
pointer to a null pointer; its cells are the addresses of the nodes with their values. A
write to a node of no cell leaves a chain as it is, and that is all that is used to follow
a chain through writes to its own nodes.

A memory that holds several lists, each node in one of them, holds them still after one of
the lists was changed: nodes that come in were not allocated, and nodes that go are freed.

## Main definitions

* `LinkedList.Node`, `Heap` — nodes in memory
* `setNext`, `free` — writes to a node that is allocated
* `Chain` — the list at a pointer has the given cells
* `Rewrites` — one list was changed, and nothing else
* `Lists` — the memory holds these lists and nothing else

## Main results

* `Chain.of_eq` — a chain depends on its own nodes only
* `Chain.push`, `Chain.set_next` — a node is put in front, and the first node linked anew
* `Chain.link_last` — a node is linked behind the last one
* `Lists.update` — one of several lists is changed
-/

set_option autoImplicit false

namespace LinkedList

variable {α ι : Type*}

/-- A node. -/
structure Node (α : Type*) where
  value : α
  next : Option ℕ

/-- The nodes that are allocated. -/
abbrev Heap (α : Type*) := ℕ → Option (Node α)

/-- A write of the pointer of the node at `a`. -/
def setNext (heap : Heap α) (a : ℕ) (next : Option ℕ) : Option (Heap α) :=
  (heap a).map fun node => Function.update heap a (some { node with next := next })

/-- The node at `a` is given back. -/
def free (heap : Heap α) (a : ℕ) : Option (Heap α) :=
  (heap a).map fun _ => Function.update heap a none

/-- The list at the pointer `p` has these cells. -/
def Chain (heap : Heap α) : Option ℕ → List (ℕ × α) → Prop
  | p, [] => p = none
  | p, (a, x) :: cells =>
    p = some a ∧ ∃ next, heap a = some ⟨x, next⟩ ∧ Chain heap next cells

/-- The addresses of cells. -/
def addresses (cells : List (ℕ × α)) : List ℕ := cells.map Prod.fst

/-- The list with the first cells became the list with the second ones, and nothing else
was written. -/
structure Rewrites (heap heap' : Heap α) (cells cells' : List (ℕ × α)) : Prop where
  fresh : ∀ b ∈ addresses cells', b ∉ addresses cells → heap b = none
  frame : ∀ b, b ∉ addresses cells → b ∉ addresses cells' → heap' b = heap b
  freed : ∀ b ∈ addresses cells, b ∉ addresses cells' → heap' b = none

/-- The memory holds these lists, apart from each other, and no other nodes. -/
structure Lists (heap : Heap α) (head : ι → Option ℕ) (cells : ι → List (ℕ × α)) : Prop where
  chain : ∀ i, Chain heap (head i) (cells i)
  nodup : ∀ i, (addresses (cells i)).Nodup
  apart : ∀ i j, ∀ a ∈ addresses (cells i), a ∈ addresses (cells j) → i = j
  allocated : ∀ a, heap a ≠ none → ∃ i, a ∈ addresses (cells i)

variable {heap heap' : Heap α} {p next next' : Option ℕ} {cells cells' : List (ℕ × α)}
variable {a b : ℕ} {x y : α} {node : Option (Node α)}

/-! ### Writes -/

theorem setNext_eq_some (ha : heap a = some ⟨x, next⟩) :
    setNext heap a next' = some (Function.update heap a (some ⟨x, next'⟩)) := by
  rw [setNext, ha, Option.map_some]

/-- A node is cut off before it is freed. -/
theorem setNext_bind_free (ha : heap a = some ⟨x, next⟩) :
    (setNext heap a next').bind (free · a) = some (Function.update heap a none) := by
  rw [setNext_eq_some ha, Option.bind_some, free, Function.update_self, Option.map_some,
    Function.update_idem]

/-! ### Chains -/

@[simp] theorem addresses_cons : addresses ((a, x) :: cells) = a :: addresses cells := rfl

theorem Chain.of_eq (h : Chain heap p cells)
    (heq : ∀ b ∈ addresses cells, heap' b = heap b) : Chain heap' p cells := by
  induction cells generalizing p with
  | nil => exact h
  | cons cell cells ih =>
    obtain ⟨rfl, next, hnode, hrest⟩ := h
    obtain ⟨hhere, hthere⟩ := List.forall_mem_cons.mp heq
    exact ⟨rfl, next, hhere.trans hnode, ih hrest hthere⟩

/-- A write elsewhere leaves a chain as it is. -/
theorem Chain.update (h : Chain heap p cells) (ha : a ∉ addresses cells) :
    Chain (Function.update heap a node) p cells :=
  h.of_eq fun _ hb => Function.update_of_ne (ne_of_mem_of_not_mem hb ha) ..

/-- The nodes of a chain are allocated. -/
theorem Chain.ne_none (h : Chain heap p cells) (ha : a ∈ addresses cells) : heap a ≠ none := by
  induction cells generalizing p with
  | nil => cases ha
  | cons cell cells ih =>
    obtain ⟨rfl, next, hnode, hrest⟩ := h
    rcases List.mem_cons.mp ha with rfl | ha
    · rw [hnode]
      exact Option.some_ne_none _
    · exact ih hrest ha

theorem Chain.exists_node (h : Chain heap p cells) (ha : (a, x) ∈ cells) :
    ∃ next, heap a = some ⟨x, next⟩ := by
  induction cells generalizing p with
  | nil => cases ha
  | cons cell cells ih =>
    obtain ⟨rfl, next, hnode, hrest⟩ := h
    rcases List.mem_cons.mp ha with rfl | ha
    · exact ⟨next, hnode⟩
    · exact ih hrest ha

theorem Chain.eq_none_iff (h : Chain heap p cells) : p = none ↔ cells = [] := by
  cases cells with
  | nil => exact iff_of_true h rfl
  | cons cell cells =>
    obtain ⟨rfl, -⟩ := h
    exact iff_of_false (Option.some_ne_none _) (List.cons_ne_nil _ _)

/-- A new node is put in front of a list. -/
theorem Chain.push (h : Chain heap p cells) (ha : heap a = none) :
    Chain (Function.update heap a (some ⟨x, p⟩)) (some a) ((a, x) :: cells) :=
  ⟨rfl, p, Function.update_self .., h.update fun hmem => h.ne_none hmem ha⟩

/-- The first node is linked to another list. -/
theorem Chain.set_next (h : Chain heap next cells) (ha : a ∉ addresses cells) :
    Chain (Function.update heap a (some ⟨x, next⟩)) (some a) ((a, x) :: cells) :=
  ⟨rfl, next, Function.update_self .., h.update ha⟩

@[simp] theorem addresses_append :
    addresses (cells ++ cells') = addresses cells ++ addresses cells' :=
  List.map_append

/-- A node is linked behind the last one. -/
theorem Chain.link_last (h : Chain heap p (cells ++ [(a, x)])) (ha : a ∉ addresses cells)
    (hb : heap b = some ⟨y, none⟩) (hab : b ≠ a) :
    Chain (Function.update heap a (some ⟨x, some b⟩)) p (cells ++ [(a, x), (b, y)]) := by
  induction cells generalizing p with
  | nil =>
    obtain ⟨rfl, next, hnode, rfl⟩ := h
    refine ⟨rfl, some b, Function.update_self .., rfl, none, ?_, rfl⟩
    rw [Function.update_of_ne hab, hb]
  | cons cell cells ih =>
    obtain ⟨rfl, next, hnode, hrest⟩ := h
    obtain ⟨hhere, hthere⟩ := not_or.mp (mt List.mem_cons.mpr ha)
    refine ⟨rfl, next, ?_, ih hrest hthere⟩
    rw [Function.update_of_ne (Ne.symm hhere), hnode]

/-! ### One list is changed -/

/-- A change behind the first node. -/
theorem Rewrites.cons (h : Rewrites heap heap' cells cells') :
    Rewrites heap heap' ((a, x) :: cells) ((a, x) :: cells') where
  fresh b hb hnot := by
    rw [addresses_cons, List.mem_cons, not_or] at hnot
    exact h.fresh b ((List.mem_cons.mp hb).resolve_left hnot.1) hnot.2
  frame b hb hb' :=
    h.frame b (fun hmem => hb (List.mem_cons_of_mem _ hmem))
      fun hmem => hb' (List.mem_cons_of_mem _ hmem)
  freed b hb hnot := by
    rw [addresses_cons, List.mem_cons, not_or] at hnot
    exact h.freed b ((List.mem_cons.mp hb).resolve_left hnot.1) hnot.2

/-- A list that is left as it is. -/
theorem Rewrites.refl (heap : Heap α) (cells : List (ℕ × α)) : Rewrites heap heap cells cells where
  fresh _ hb hnot := absurd hb hnot
  frame _ _ _ := rfl
  freed _ hb hnot := absurd hb hnot

/-- A new node is put in front. -/
theorem Rewrites.push (ha : heap a = none) :
    Rewrites heap (Function.update heap a (some ⟨x, next⟩)) cells ((a, x) :: cells) where
  fresh _ hb hnot := (List.mem_cons.mp hb).resolve_right hnot ▸ ha
  frame _ _ hb' := Function.update_of_ne (List.ne_of_not_mem_cons hb') ..
  freed _ hb hnot := absurd (List.mem_cons_of_mem _ hb) hnot

/-- The first node is freed. -/
theorem Rewrites.free_first :
    Rewrites heap (Function.update heap a none) ((a, x) :: cells) cells where
  fresh _ hb hnot := absurd (List.mem_cons_of_mem _ hb) hnot
  frame _ hb _ := Function.update_of_ne (List.ne_of_not_mem_cons hb) ..
  freed _ hb hnot := (List.mem_cons.mp hb).resolve_right hnot ▸ Function.update_self ..

/-- The second node is freed, after the first one was linked past it. -/
theorem Rewrites.free_second (hab : a ≠ b) :
    Rewrites heap (Function.update (Function.update heap a (some ⟨x, next⟩)) b none)
      ((a, x) :: (b, y) :: cells) ((a, x) :: cells) where
  fresh _ hc hnot := by
    rcases List.mem_cons.mp hc with rfl | hc
    · exact absurd (List.mem_cons_self ..) hnot
    · exact absurd (List.mem_cons_of_mem _ (List.mem_cons_of_mem _ hc)) hnot
  frame c hc hc' := by
    have hca : c ≠ a := List.ne_of_not_mem_cons hc'
    have hcb : c ≠ b := List.ne_of_not_mem_cons (List.not_mem_of_not_mem_cons hc)
    rw [Function.update_of_ne hcb, Function.update_of_ne hca]
  freed c hc hnot := by
    -- only the second node is in the first list alone
    rw [addresses_cons, addresses_cons, List.mem_cons, List.mem_cons] at hc
    rw [addresses_cons, List.mem_cons, not_or] at hnot
    obtain rfl := (hc.resolve_left hnot.1).resolve_right hnot.2
    exact Function.update_self ..

/-! ### Several lists -/

variable [DecidableEq ι] {head : ι → Option ℕ} {lists : ι → List (ℕ × α)} {i : ι}

/-- A list is changed, and the others are left. -/
theorem Lists.update (h : Lists heap head lists) (hchain : Chain heap' p cells)
    (hnodup : (addresses cells).Nodup) (hr : Rewrites heap heap' (lists i) cells) :
    Lists heap' (Function.update head i p) (Function.update lists i cells) where
  chain j := by
    by_cases hj : j = i
    · subst hj
      rw [Function.update_self, Function.update_self]
      exact hchain
    · rw [Function.update_of_ne hj, Function.update_of_ne hj]
      refine (h.chain j).of_eq fun b hb => hr.frame b ?_ ?_
      · exact fun hbi => hj (h.apart j i b hb hbi)
      · -- a node that came in was not allocated
        intro hbc
        refine (h.chain j).ne_none hb (hr.fresh b hbc fun hbi => hj (h.apart j i b hb hbi))
  nodup j := by
    by_cases hj : j = i
    · subst hj
      rw [Function.update_self]
      exact hnodup
    · rw [Function.update_of_ne hj]
      exact h.nodup j
  apart := by
    -- the nodes of another list are not in the changed one
    have hother (j : ι) (hj : j ≠ i) (b : ℕ) (hb : b ∈ addresses (lists j)) :
        b ∉ addresses cells := fun hbc =>
      (h.chain j).ne_none hb (hr.fresh b hbc fun hbi => hj (h.apart j i b hb hbi))
    intro j k b hbj hbk
    by_cases hj : j = i <;> by_cases hk : k = i
    · exact hj.trans hk.symm
    · subst hj
      rw [Function.update_self] at hbj
      rw [Function.update_of_ne hk] at hbk
      exact absurd hbj (hother k hk b hbk)
    · subst hk
      rw [Function.update_of_ne hj] at hbj
      rw [Function.update_self] at hbk
      exact absurd hbk (hother j hj b hbj)
    · rw [Function.update_of_ne hj] at hbj
      rw [Function.update_of_ne hk] at hbk
      exact h.apart j k b hbj hbk
  allocated b hb := by
    by_cases hbc : b ∈ addresses cells
    · exact ⟨i, by rwa [Function.update_self]⟩
    by_cases hbi : b ∈ addresses (lists i)
    · exact absurd (hr.freed b hbi hbc) hb
    -- a node that was not written is where it was
    rw [hr.frame b hbi hbc] at hb
    obtain ⟨j, hj⟩ := h.allocated b hb
    refine ⟨j, ?_⟩
    rw [Function.update_of_ne (by rintro rfl; exact hbi hj)]
    exact hj

end LinkedList
