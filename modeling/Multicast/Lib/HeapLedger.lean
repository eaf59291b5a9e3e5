import Multicast.Lib.HeapBlock

/-!
# The calls of an allocator

A program that owns one block at a time, through one pointer, calls `realloc` and `free` on that
pointer. Each call allocates a block, releases one, or does neither. Over any sequence of calls
the blocks that were allocated are those that were released and the one that the pointer still
owns, as long as the pointer is not overwritten otherwise.

## Main definitions

* `HeapBlock.HeapOp` — a call of `free` or `realloc`, with `allocates` and `releases`
* `HeapBlock.Pointer.owned` — the number of blocks that a pointer owns
* `HeapBlock.Balanced` — calls that account for what a pointer owns before and after

## Main results

* `Balanced.append` — sequences of calls
* `balanced_realloc`, `balanced_free` — single calls
-/

set_option autoImplicit false

namespace HeapBlock

variable {β : Type*}

/-- A call of the allocator. -/
inductive HeapOp (β : Type*) where
  | free (p : Pointer β)
  | realloc (p : Pointer β) (m : ℕ)

namespace HeapOp

/-- The pointer that is passed. -/
def pointer : HeapOp β → Pointer β
  | free p | realloc p _ => p

/-- The call makes a new block. -/
def allocates : HeapOp β → Bool
  | realloc .null _ | realloc .freed _ => true
  | free _ | realloc (.block _) _ => false

/-- The call releases a block; `realloc` does so if nothing is asked for. -/
def releases : HeapOp β → Bool
  | free (.block _) => true
  | realloc (.block _) m => m = 0
  | free .null | free .freed | realloc .null _ | realloc .freed _ => false

end HeapOp

namespace Pointer

/-- The number of blocks that a pointer owns. -/
def owned : Pointer β → ℕ
  | null | freed => 0
  | block _ => 1

variable {p : Pointer β} {al : Allocator} {m off : ℕ} {bytes : List β}

/-- `realloc` answers with a block, or with `NULL`. -/
theorem realloc_ne_freed : p.realloc al m ≠ .freed := by
  cases p with
  | null | freed => simp [realloc]
  | block cells =>
    rw [realloc]
    split <;> simp

@[simp] theorem memcpy_eq_freed_iff : p.memcpy off bytes = .freed ↔ p = .freed := by
  cases p <;> simp [memcpy]

@[simp] theorem free_eq_freed_iff : p.free = .freed ↔ p ≠ .null := by
  cases p <;> simp [free]

/-- It answers with a block, unless it releases one. -/
theorem owned_realloc (h : p.owned = 0 ∨ 0 < m) : (p.realloc al m).owned = 1 := by
  cases p with
  | null | freed => rfl
  | block cells =>
    have hm : 0 < m := h.resolve_left Nat.one_ne_zero
    rw [realloc, if_neg (Nat.ne_of_gt hm)]
    rfl

@[simp] theorem owned_memcpy : (p.memcpy off bytes).owned = p.owned := by
  cases p <;> rfl

@[simp] theorem owned_free : p.free.owned = 0 := by
  cases p <;> rfl

end Pointer

variable {al : Allocator} {p p' p'' : Pointer β} {ops ops' : List (HeapOp β)} {m : ℕ}

/-- The calls account for what the pointer owns before them and after them. -/
def Balanced (ops : List (HeapOp β)) (p p' : Pointer β) : Prop :=
  ops.countP HeapOp.allocates + p.owned = ops.countP HeapOp.releases + p'.owned

theorem balanced_nil (h : p.owned = p'.owned) : Balanced [] p p' := by
  rw [Balanced, h]
  rfl

theorem Balanced.append (h : Balanced ops p p') (h' : Balanced ops' p' p'') :
    Balanced (ops ++ ops') p p'' := by
  simp only [Balanced, List.countP_append] at *
  omega

/-- What the pointer is set to owns as much. -/
theorem Balanced.of_owned (h : Balanced ops p p') (howned : p'.owned = p''.owned) :
    Balanced ops p p'' := by
  rw [Balanced, ← howned]
  exact h

theorem balanced_realloc : Balanced [.realloc p m] p (p.realloc al m) := by
  cases p with
  | null | freed => rfl
  | block cells =>
    rw [Pointer.realloc]
    split
    next hm =>
      subst hm
      rfl
    next hm => simp [Balanced, HeapOp.allocates, HeapOp.releases, hm, Pointer.owned]

/-- A pointer that is passed to `free` owns nothing afterwards, whatever it is set to. -/
theorem balanced_free (h : p'.owned = 0) : Balanced [.free p] p p' := by
  rw [Balanced, h]
  cases p <;> rfl

end HeapBlock
