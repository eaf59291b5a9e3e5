import Mathlib.Data.List.Basic
import Mathlib.Data.Nat.Notation

/-!
# Strings in arrays

A string in an array is what stands before the first terminator. An array is the list of its
characters, whatever they are, and keeps its length. A read of an array without a terminator
leaves the array, and so does a write that is too long; both have no result.

## Main definitions

* `CString.read` — the string at the beginning of an array
* `CString.strcpy`, `strncpy`, `snprintf` — strings are copied into an array
* `CString.strsep` — a word is cut off in its array

## Main results

* `read_eq_some_iff` — the strings that can be read
* `read_strcpy`, `read_strncpy`, `read_snprintf` — what is read after a copy
* `strsep_of_sep`, `strsep_of_nul` — the two ways a word can end
-/

set_option autoImplicit false

namespace CString

variable {α : Type*} {nul sep : α} {s buf dst src text front word rest : List α} {n : ℕ}

/-- Characters are written over the beginning of an array. -/
def write (buf cs : List α) : Option (List α) :=
  if cs.length ≤ buf.length then some (cs ++ buf.drop cs.length) else none

/-- `strcpy`, and `sprintf` of a text. -/
def strcpy (nul : α) (dst src : List α) : Option (List α) := write dst (src ++ [nul])

/-- `strncpy`: at most `n` characters of the string, and terminators up to `n`. -/
def strncpy (nul : α) (dst src : List α) (n : ℕ) : Option (List α) :=
  write dst (src.take n ++ List.replicate (n - src.length) nul)

/-- `snprintf` of a text, when `n` is not zero: at most `n` characters with the terminator. -/
def snprintf (nul : α) (dst text : List α) (n : ℕ) : Option (List α) :=
  write dst (text.take (n - 1) ++ [nul])

theorem write_eq_some (h : s.length ≤ buf.length) :
    write buf s = some (s ++ buf.drop s.length) := if_pos h

theorem strcpy_eq_some (h : src.length < dst.length) :
    strcpy nul dst src = some (src ++ nul :: dst.drop (src.length + 1)) := by
  rw [strcpy, write_eq_some (by simpa using Nat.succ_le_of_lt h)]
  simp

variable [DecidableEq α]

/-- The characters before the first terminator. -/
def read (nul : α) : List α → Option (List α)
  | [] => none
  | c :: buf => if c = nul then some [] else (read nul buf).map (c :: ·)

/-- The place at which the word that begins at `i` ends. -/
def wordEnd (sep nul : α) (buf : List α) (i : ℕ) : Option ℕ :=
  ((buf.drop i).findIdx? fun c => c = sep ∨ c = nul).map (i + ·)

/-- `strsep` for one separator, with a pointer to the place `i`: the array in which the word
at `i` has its end, and the pointer behind it, which is null if there was no separator. -/
def strsep (sep nul : α) (buf : List α) (i : ℕ) : Option (List α × Option ℕ) :=
  (wordEnd sep nul buf i).map fun j =>
    if buf[j]? = some nul then (buf, none) else (buf.set j nul, some (j + 1))

/-! ### Reading -/

theorem read_append (h : nul ∉ s) (rest : List α) : read nul (s ++ nul :: rest) = some s := by
  induction s with
  | nil => exact if_pos rfl
  | cons c s ih =>
    obtain ⟨hc, hs⟩ := not_or.mp (mt List.mem_cons.mpr h)
    rw [List.cons_append, read, if_neg (Ne.symm hc), ih hs, Option.map_some]

theorem read_eq_some_iff : read nul buf = some s ↔ nul ∉ s ∧ ∃ rest, buf = s ++ nul :: rest := by
  constructor
  · intro h
    induction buf generalizing s with
    | nil => cases h
    | cons c buf ih =>
      rw [read] at h
      split at h
      next hc =>
        obtain rfl := Option.some.inj h
        exact ⟨List.not_mem_nil, buf, hc ▸ rfl⟩
      next hc =>
        obtain ⟨s, hs, rfl⟩ := Option.map_eq_some_iff.mp h
        obtain ⟨hnul, rest, rfl⟩ := ih hs
        exact ⟨fun h => (List.mem_cons.mp h).elim (Ne.symm hc) hnul, rest, rfl⟩
  · rintro ⟨hnul, rest, rfl⟩
    exact read_append hnul rest

theorem read_eq_none_of_not_mem (h : nul ∉ buf) : read nul buf = none := by
  rw [Option.eq_none_iff_forall_ne_some]
  intro s hs
  obtain ⟨-, rest, rfl⟩ := read_eq_some_iff.mp hs
  exact h (List.mem_append_right _ List.mem_cons_self)

/-! ### Copying -/

theorem read_strcpy (hnul : nul ∉ src) (h : src.length < dst.length) :
    (strcpy nul dst src).bind (read nul) = some src := by
  rw [strcpy_eq_some h, Option.bind_some, read_append hnul]

/-- A string that is copied with `strncpy` into an array of just this size is read back if
there is room for the terminator. Otherwise there is no string in the array. -/
theorem read_strncpy (hnul : nul ∉ src) :
    (strncpy nul dst src dst.length).bind (read nul) =
      if src.length < dst.length then some src else none := by
  have hfits : (src.take dst.length ++ List.replicate (dst.length - src.length) nul).length =
      dst.length := by
    rw [List.length_append, List.length_take, List.length_replicate]
    omega
  rw [strncpy, write_eq_some (Nat.le_of_eq hfits), hfits, List.drop_length, List.append_nil,
    Option.bind_some]
  split
  next hlt =>
    obtain ⟨k, hk⟩ : ∃ k, dst.length - src.length = k + 1 := ⟨dst.length - src.length - 1, by omega⟩
    rw [hk, List.replicate_succ, List.take_of_length_le (Nat.le_of_lt hlt), read_append hnul]
  next hlong =>
    -- the array is full of characters of the string
    rw [Nat.sub_eq_zero_of_le (by omega), List.replicate_zero, List.append_nil]
    exact read_eq_none_of_not_mem fun h => hnul (List.mem_of_mem_take h)

theorem read_snprintf (hnul : nul ∉ text) (htext : text.length < n) (hn : n ≤ dst.length) :
    (snprintf nul dst text n).bind (read nul) = some text := by
  rw [snprintf, List.take_of_length_le (by omega)]
  exact read_strcpy hnul (by omega)

/-! ### Cutting -/

theorem wordEnd_append (hsep : sep ∉ word) (hnul : nul ∉ word) {c : α} (hc : c = sep ∨ c = nul) :
    wordEnd sep nul (front ++ word ++ c :: rest) front.length =
      some (front.length + word.length) := by
  rw [wordEnd, List.append_assoc, List.drop_left, List.findIdx?_append,
    List.findIdx?_eq_none_iff.mpr]
  · rw [List.findIdx?_cons, if_pos (decide_eq_true hc), Option.map_some, Option.none_or,
      Option.map_some, Nat.zero_add]
  · intro x hx
    refine decide_eq_false (not_or.mpr ⟨?_, ?_⟩)
    · rintro rfl
      exact hsep hx
    · rintro rfl
      exact hnul hx

/-- A word with the separator behind it is cut off. -/
theorem strsep_of_sep (hne : sep ≠ nul) (hsep : sep ∉ word) (hnul : nul ∉ word) :
    strsep sep nul (front ++ word ++ sep :: rest) front.length =
      some (front ++ word ++ nul :: rest, some (front.length + word.length + 1)) := by
  rw [strsep, wordEnd_append hsep hnul (.inl rfl), Option.map_some, ← List.length_append,
    List.getElem?_append_right (Nat.le_refl _), Nat.sub_self, List.getElem?_cons_zero,
    if_neg (by simpa using hne), List.set_append_right _ _ (Nat.le_refl _), Nat.sub_self,
    List.set_cons_zero]

/-- The last word stays as it is. -/
theorem strsep_of_nul (hsep : sep ∉ word) (hnul : nul ∉ word) :
    strsep sep nul (front ++ word ++ nul :: rest) front.length =
      some (front ++ word ++ nul :: rest, none) := by
  rw [strsep, wordEnd_append hsep hnul (.inr rfl), Option.map_some, ← List.length_append,
    List.getElem?_append_right (Nat.le_refl _), Nat.sub_self, List.getElem?_cons_zero,
    if_pos rfl]

end CString
