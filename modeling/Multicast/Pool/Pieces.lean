import Multicast.Pool.Outcomes
import Multicast.Server.Tasks

/-!
# Waiting for the tasks of a group

A group handler makes a pool of its own, adds a task for each client, and waits until the
tasks have returned. A task that does not find its piece ends its thread instead, and then
the handler waits for ever. It happens exactly if there are more tasks than lines, counted
as an `int`: then the division of the lines gives zero, `split` fails, and no task finds a
piece. Otherwise each task finds one, whatever their number is, and however the threads
take their turns.

## Main definitions

* `Multicast.findsPiece` — does a task find its piece?

## Main results

* `forall_findsPiece_iff` — all tasks find their pieces, or there are too few lines
* `group_handler_returns_iff` — so the group handler returns, or it does not
-/

set_option autoImplicit false

namespace Multicast

open StepRun Pool

variable {α : Type*} {lines : List α} {size i q : ℕ}

/-! ### Tasks that find their pieces -/

/-- Without the last digits. -/
theorem digits_div_pow (i k : ℕ) : Nat.digits 10 (i / 10 ^ k) = (Nat.digits 10 i).drop k := by
  induction k with
  | zero => rw [pow_zero, Nat.div_one, List.drop_zero]
  | succ k ih =>
    rw [pow_succ, ← Nat.div_div_eq_div_mul, ← List.drop_drop, ← ih, List.drop_one]
    rcases Nat.eq_zero_or_pos (i / 10 ^ k) with hzero | hpos
    · simp [hzero]
    · rw [Nat.digits_def' (by decide) hpos, List.tail_cons]

/-- Past a million a task has the name of a piece with a smaller number. -/
theorem exists_suffix_eq_taskSuffix (i : ℕ) :
    ∃ k ≤ i, k < 10 ^ 6 ∧ taskSuffix i = suffix k := by
  by_cases hi : i < 10 ^ 6
  · exact ⟨i, le_rfl, hi, taskSuffix_eq_suffix hi⟩
  -- the first six digits are those of a number
  have hlong : 6 < (Nat.digits 10 i).length :=
    (Nat.lt_digits_length_iff (by decide) i).mpr (not_lt.mp hi)
  obtain ⟨d, hd⟩ : ∃ d, (Nat.digits 10 i).length = d + 6 := ⟨_, (Nat.sub_add_cancel hlong.le).symm⟩
  have hlength : (Nat.digits 10 (i / 10 ^ d)).length = 6 := by
    rw [digits_div_pow, List.length_drop, hd, Nat.add_sub_cancel_left]
  have hpos : i / 10 ^ d ≠ 0 := by
    intro hzero
    rw [hzero] at hlength
    cases hlength
  refine ⟨i / 10 ^ d, Nat.div_le_self .., ?_, ?_⟩
  · exact (Nat.digits_length_le_iff (by decide) _).mp hlength.le
  · have hdecimal : decimal (i / 10 ^ d) = ((Nat.digits 10 i).drop d).reverse := by
      rw [decimal, if_neg hpos, digits_div_pow]
    rw [suffix, hdecimal, taskSuffix, number, decimal]
    simp only [List.length_reverse, List.length_drop, hd, Nat.add_sub_cancel_left, Nat.sub_self,
      List.replicate_zero, List.nil_append]
    rw [if_neg (by omega), if_neg (by omega), if_neg (by omega), if_neg (by omega),
      if_neg (by omega), if_neg (by omega), List.take_reverse, hd, Nat.add_sub_cancel]

/-- As long as each task could have a line, it finds a piece. -/
theorem isSome_openedPiece (hq : 0 < q) (hlines : linesPerPiece lines size = q) (hi : i < size)
    (hcover : size * q ≤ lines.length) : (openedPiece lines size i).isSome = true := by
  obtain ⟨k, hk, hname, hsuffix⟩ := exists_suffix_eq_taskSuffix i
  have hline : k * q < lines.length := by
    have hlt := Nat.mul_lt_mul_of_pos_right (hk.trans_lt hi) hq
    omega
  rw [openedPiece, hsuffix, openPiece_suffix, hlines, getElem?_split hq, if_pos ⟨hname, hline⟩,
    Option.isSome_some]

/-- All tasks find their pieces, unless there are more tasks than lines. -/
theorem forall_isSome_openedPiece_iff (hsize : 0 < size) :
    (∀ i < size, (openedPiece lines size i).isSome = true) ↔ (size : ℤ) ≤ atoi lines.length := by
  have hpos : 0 < linesPerPiece lines size ↔ (size : ℤ) ≤ atoi lines.length := by
    rw [linesPerPiece, ← Int.add_one_le_iff, zero_add, Int.le_ediv_iff_mul_le (by omega), one_mul]
  rw [← hpos]
  constructor
  · intro hall
    by_contra hnone
    have hpiece := hall 0 hsize
    rw [openedPiece, split, if_pos (not_lt.mp hnone)] at hpiece
    exact Bool.false_ne_true hpiece
  · intro hq i hi
    obtain ⟨q, hlines⟩ := Int.eq_ofNat_of_zero_le hq.le
    refine isSome_openedPiece (q := q) (by omega) hlines hi ?_
    -- the product is at most the number of lines
    have hcover : (size * q : ℕ) ≤ atoi lines.length := by
      rw [Nat.cast_mul, ← hlines]
      exact Int.mul_ediv_self_le (by omega)
    have hatoi := atoi_le lines.length
    omega

/-! ### The group handler -/

/-- Does `stat` find the piece of a task, after the input was split for `size` tasks? -/
def findsPiece (lines : List α) (size : ℕ) (clientArg : ClientArgument) : Bool :=
  (openPiece (split (linesPerPiece lines size) lines) clientArg.fileName.2).isSome

variable {s : Server} {uninitialised : ℤ} {arguments : MgArgument} {arrClients : List ℤ}

theorem taskCount_pos (arrClients : List ℤ) : 0 < Server.taskCount arrClients := by
  rw [Server.taskCount]
  split <;> omega

theorem forall_findsPiece_iff :
    (∀ task ∈ s.tasks uninitialised arguments arrClients,
        findsPiece lines (Server.taskCount arrClients) task = true) ↔
      (Server.taskCount arrClients : ℤ) ≤ atoi lines.length := by
  rw [← forall_isSome_openedPiece_iff (taskCount_pos arrClients), Server.tasks, List.forall_mem_map]
  simp only [List.mem_range]
  exact Iff.rfl

/-- **A group handler can return exactly if it has at most as many tasks as lines.** The pool
is asked to execute the tasks of the handler, and the handler waits for it; a task returns
if it finds its piece, and ends its thread otherwise. -/
theorem group_handler_returns_iff {as : List (Action ClientArgument 16)}
    {pool : ThreadPool ClientArgument 16}
    (h : run step as (thpoolInit ClientArgument 16) = some pool)
    (htasks : as.flatMap Action.added = s.tasks uninitialised arguments arrClients)
    (hkeep : ∀ a ∈ as, a.clears = false)
    (hobeys : Meets step (Obeys (findsPiece lines (Server.taskCount arrClients))) as
      (thpoolInit ClientArgument 16)) :
    (∃ bs pool', (∀ b ∈ bs, addedBy b = []) ∧
        Meets waitStep (WaitObeys (findsPiece lines (Server.taskCount arrClients))) bs
          ⟨pool, .testTime⟩ ∧
            run waitStep bs ⟨pool, .testTime⟩ = some ⟨pool', .returned⟩) ↔
      (Server.taskCount arrClients : ℤ) ≤ atoi lines.length := by
  rw [returns_iff_of_obeys (by decide) h hkeep hobeys, htasks, forall_findsPiece_iff]

/-- The task of one client, for an input of two lines. -/
theorem group_handler_returns_iff_two : ∃ pool, run step
    [.addWork (initialServer.clientArgument 0 ⟨1, jobMin, ['f']⟩ [5] 0) ∅]
      (thpoolInit ClientArgument 16) = some pool ∧
    ((∃ bs pool', (∀ b ∈ bs, addedBy b = []) ∧
        Meets waitStep (WaitObeys (findsPiece [10, 20] 1)) bs ⟨pool, .testTime⟩ ∧
          run waitStep bs ⟨pool, .testTime⟩ = some ⟨pool', .returned⟩) ↔
      (1 : ℤ) ≤ atoi 2) :=
  ⟨_, rfl, @group_handler_returns_iff _ [10, 20] initialServer 0 ⟨1, jobMin, ['f']⟩ [5]
    [.addWork _ ∅] _ rfl rfl (by simp [Action.clears]) fun _ _ => ⟨trivial, trivial⟩⟩

end Multicast
