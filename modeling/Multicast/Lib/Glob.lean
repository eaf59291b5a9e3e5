import Mathlib.Data.List.Infix

/-!
# Patterns for names

The shell expands a pattern to the names that it accepts. A pattern is a list of tokens: a test
for one character, or a star, which accepts any run of characters that pass a test. In the names
of files the star does not accept the character between directories.

## Main definitions

* `Glob.Token`, `Glob.accepts` — patterns, and the names that they accept
* `Glob.text` — the pattern that accepts one name

## Main results

* `accepts_star_iff` — a star, by the run that it accepts
* `accepts_text_append_iff` — a pattern that begins with a text
-/

set_option autoImplicit false

namespace Glob

variable {α : Type*}

/-- A test for one character, or a star with a test for all of its characters. -/
inductive Token (α : Type*) where
  | one (p : α → Bool)
  | star (p : α → Bool)

/-- The names that a pattern accepts. -/
def accepts : List (Token α) → List α → Bool
  | [], xs => xs.isEmpty
  | .one p :: ps, xs =>
    match xs with
    | [] => false
    | x :: xs => p x && accepts ps xs
  | .star p :: ps, xs =>
    (List.range (xs.length + 1)).any fun n => (xs.take n).all p && accepts ps (xs.drop n)

/-- The pattern that accepts one name. -/
def text [DecidableEq α] (name : List α) : List (Token α) :=
  name.map fun c => .one fun x => decide (x = c)

variable {ps : List (Token α)} {xs : List α} {p : α → Bool}

/-- A star accepts any run that passes its test, in front of what the rest of the pattern
accepts. -/
theorem accepts_star_iff :
    accepts (.star p :: ps) xs = true ↔
      ∃ front back, xs = front ++ back ∧ (∀ x ∈ front, p x = true) ∧ accepts ps back = true := by
  rw [accepts, List.any_eq_true]
  constructor
  · rintro ⟨n, -, hn⟩
    obtain ⟨hfront, hback⟩ := (Bool.and_eq_true ..).mp hn
    exact ⟨xs.take n, xs.drop n, (List.take_append_drop n xs).symm, List.all_eq_true.mp hfront,
      hback⟩
  · rintro ⟨front, back, rfl, hfront, hback⟩
    refine ⟨front.length, List.mem_range.mpr ?_, (Bool.and_eq_true ..).mpr ⟨?_, ?_⟩⟩
    · rw [List.length_append]
      omega
    · rw [List.take_left' rfl]
      exact List.all_eq_true.mpr hfront
    · rw [List.drop_left' rfl]
      exact hback

theorem accepts_star_nil (h : ∀ x ∈ xs, p x = true) : accepts [.star p] xs = true :=
  accepts_star_iff.mpr ⟨xs, [], (List.append_nil xs).symm, h, rfl⟩

/-- A text accepts itself in front of what the rest of the pattern accepts. -/
theorem accepts_text_append_iff [DecidableEq α] {name : List α} :
    accepts (text name ++ ps) xs = true ↔ ∃ rest, xs = name ++ rest ∧ accepts ps rest = true := by
  induction name generalizing xs with
  | nil => exact ⟨fun h => ⟨xs, rfl, h⟩, fun ⟨_, heq, h⟩ => heq ▸ h⟩
  | cons c name ih =>
    change accepts (.one _ :: (text name ++ ps)) xs = true ↔ _
    cases xs with
    | nil => simp [accepts]
    | cons x xs =>
      rw [accepts, Bool.and_eq_true, ih, decide_eq_true_eq]
      constructor
      · rintro ⟨rfl, rest, rfl, hrest⟩
        exact ⟨rest, rfl, hrest⟩
      · rintro ⟨rest, heq, hrest⟩
        obtain ⟨rfl, rfl⟩ := List.cons.inj heq
        exact ⟨rfl, rest, rfl, hrest⟩

end Glob
