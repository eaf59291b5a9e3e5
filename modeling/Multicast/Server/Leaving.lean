import Mathlib.Data.List.Basic
import Multicast.Lib.StepRun
import Multicast.Server.Groups

/-!
# Clients that leave groups

A client leaves a group once for each time that the group is named, as it joined: every
time, the first entry of the client is taken out of the list. New entries are put in front,
so that leaving after joining finds the entries that joining made and no earlier ones.

Joining counts the entry and leaving does not. The number of the members is the length of
the list as long as nobody leaves who was a member.

## Main definitions

* `Multicast.Leaving.Action`, `step` — clients join and leave
* `CountsMembers` — the number of the members is the length of the list
* `NoMemberLeaves` — the condition on the steps

## Main results

* `removeClientFromGroups_apply` — the lists after a client left
* `removeClientFromGroups_restores` — leaving undoes joining
* `countsMembers_along_iff` — a run keeps the numbers exactly if no member leaves
* `not_countsMembers_left` — a run in which one does
-/

set_option autoImplicit false

namespace Multicast

variable {multicastGroups : MulticastGroups} {fd g : ℤ} {groups : List ℤ}

/-! ### Leaving -/

/-- Taking an entry out a number of times empties a front part of the list of it. -/
theorem exists_diff_replicate_eq (head : List ℤ) (fd : ℤ) (n : ℕ) :
    ∃ front back, head = front ++ back ∧ front.count fd = min n (head.count fd) ∧
      head.diff (List.replicate n fd) = front.filter (· ≠ fd) ++ back := by
  induction head generalizing n with
  | nil => exact ⟨[], [], rfl, by simp, by simp⟩
  | cons x head ih =>
    cases n with
    | zero => exact ⟨[], x :: head, rfl, by simp, rfl⟩
    | succ n =>
      rw [List.replicate_succ, List.diff_cons]
      by_cases hx : x = fd
      · -- this entry goes
        subst hx
        obtain ⟨front, back, rfl, hcount, hdiff⟩ := ih n
        refine ⟨x :: front, back, rfl, ?_, ?_⟩
        · rw [List.count_cons_self, List.count_cons_self, hcount]
          omega
        · rw [List.erase_cons_head, hdiff, List.filter_cons_of_neg (by simp)]
      · -- this entry stays, and the next one of the client has the turn
        obtain ⟨front, back, rfl, hcount, hdiff⟩ := ih (n + 1)
        refine ⟨x :: front, back, rfl, ?_, ?_⟩
        · rw [List.count_cons_of_ne hx, List.count_cons_of_ne hx, hcount]
        · rw [← List.diff_cons, ← List.replicate_succ, List.cons_diff_of_not_mem, hdiff,
            List.filter_cons_of_pos (by simpa using hx), List.cons_append]
          exact fun hmem => hx (List.eq_of_mem_replicate hmem)

theorem removeClientFromGroups_cons :
    removeClientFromGroups multicastGroups fd (g :: groups) =
      removeClientFromGroups (removeClientFromGroup fd multicastGroups g) fd groups := rfl

/-- An entry goes for each time that the group is named, and nothing else changes. -/
theorem removeClientFromGroups_apply (multicastGroups : MulticastGroups) (fd : ℤ)
    (groups : List ℤ) (g : ℤ) :
    removeClientFromGroups multicastGroups fd groups g =
      { multicastGroups g with
        head := (multicastGroups g).head.diff (List.replicate (groups.count g) fd) } := by
  induction groups generalizing multicastGroups with
  | nil => rfl
  | cons g' groups ih =>
    rw [removeClientFromGroups_cons, ih, removeClientFromGroup]
    by_cases hg : g = g'
    · subst hg
      rw [Function.update_self, List.count_cons_self, List.replicate_succ, List.diff_cons]
    · rw [Function.update_of_ne hg, List.count_cons_of_ne (Ne.symm hg)]

/-- Leaving takes out what joining put in front. -/
theorem head_removeClientFromGroups_addAClientToGroups :
    (removeClientFromGroups (addAClientToGroups multicastGroups fd groups) fd groups g).head =
      (multicastGroups g).head := by
  rw [removeClientFromGroups_apply]
  change (addAClientToGroups multicastGroups fd groups g).head.diff _ = _
  rw [head_addAClientToGroups]
  induction groups.count g with
  | zero => rfl
  | succ n ih =>
    rw [List.replicate_succ, List.cons_append, List.diff_cons, List.erase_cons_head, ih]

/-- Leaving after joining restores the members of every group. Leaving alone takes the first
entries of the client out of each group, as many as the group is named, or all if there are
fewer, and changes nothing else. -/
theorem removeClientFromGroups_restores (multicastGroups : MulticastGroups) (fd : ℤ)
    (groups : List ℤ) (g : ℤ) :
    (removeClientFromGroups (addAClientToGroups multicastGroups fd groups) fd groups g).head =
        (multicastGroups g).head ∧
      ∃ front back, (multicastGroups g).head = front ++ back ∧
        front.count fd = min (groups.count g) ((multicastGroups g).head.count fd) ∧
        removeClientFromGroups multicastGroups fd groups g =
          { multicastGroups g with head := front.filter (· ≠ fd) ++ back } := by
  refine ⟨head_removeClientFromGroups_addAClientToGroups, ?_⟩
  obtain ⟨front, back, hsplit, hcount, hdiff⟩ :=
    exists_diff_replicate_eq (multicastGroups g).head fd (groups.count g)
  refine ⟨front, back, hsplit, hcount, ?_⟩
  rw [removeClientFromGroups_apply, hdiff]

namespace Leaving

open StepRun

/-! ### Runs -/

/-- The calls that change the members. -/
inductive Action where
  | add (clientSocketFd : ℤ) (groups : List ℤ)
  | remove (clientSocketFd : ℤ) (groupsJoined : List ℤ)

/-- One step, for groups that exist. -/
def step : Action → MulticastGroups → Option MulticastGroups
  | .add clientSocketFd groups, mg =>
    if ValidGroups groups then some (addAClientToGroups mg clientSocketFd groups) else none
  | .remove clientSocketFd groupsJoined, mg =>
    if ValidGroups groupsJoined then
      some (removeClientFromGroups mg clientSocketFd groupsJoined)
    else none

/-- The number of the members is the length of the list. -/
def CountsMembers (mg : MulticastGroups) : Prop :=
  ∀ g, (mg g).numOfClients = (mg g).head.length

/-- The condition on a step: a client leaves only groups in which it is not. -/
def NoMemberLeaves : Action → MulticastGroups → Prop
  | .add _ _, _ => True
  | .remove fd groups, mg => ∀ g ∈ groups, fd ∉ (mg g).head

variable {mg mg' : MulticastGroups} {a : Action}

/-! ### Steps -/

/-- Joining counts the entries that it makes. -/
theorem CountsMembers.add (h : CountsMembers mg) :
    CountsMembers (addAClientToGroups mg fd groups) := by
  intro g
  rw [numOfClients_addAClientToGroups, head_addAClientToGroups, h g, List.length_append,
    List.length_replicate]
  push_cast
  exact Int.add_comm ..

/-- A list that gets no shorter by taking an entry out has none to take. -/
theorem length_diff_replicate_eq_iff {head : List ℤ} {n : ℕ} (hn : 0 < n) :
    (head.diff (List.replicate n fd)).length = head.length ↔ fd ∉ head := by
  obtain ⟨front, back, rfl, hcount, hdiff⟩ := exists_diff_replicate_eq head fd n
  rw [hdiff, List.length_append, List.length_append, Nat.add_right_cancel_iff,
    List.length_filter_eq_length_iff, ← List.count_eq_zero]
  have hfront : (∀ x ∈ front, decide (x ≠ fd) = true) ↔ front.count fd = 0 := by
    rw [List.count_eq_zero]
    simp only [decide_eq_true_eq]
    exact ⟨fun h hmem => h fd hmem rfl, fun h x hx heq => h (heq ▸ hx)⟩
  -- the front part has the first entry, if there is one
  rw [hfront, hcount, Nat.min_eq_zero_iff]
  exact or_iff_right (Nat.ne_of_gt hn)

/-- Leaving keeps the numbers exactly if it takes nothing out. -/
theorem countsMembers_remove_iff (h : CountsMembers mg) :
    CountsMembers (removeClientFromGroups mg fd groups) ↔ ∀ g ∈ groups, fd ∉ (mg g).head := by
  have hlength (g : ℤ) :
      (removeClientFromGroups mg fd groups g).numOfClients =
          (removeClientFromGroups mg fd groups g).head.length ↔
        ((mg g).head.diff (List.replicate (groups.count g) fd)).length = (mg g).head.length := by
    rw [removeClientFromGroups_apply]
    change (mg g).numOfClients = _ ↔ _
    rw [h g]
    exact Int.natCast_inj.trans eq_comm
  refine forall_congr' fun g => (hlength g).trans ?_
  by_cases hg : g ∈ groups
  · exact (length_diff_replicate_eq_iff (List.count_pos_iff.mpr hg)).trans
      (imp_iff_right hg).symm
  · rw [List.count_eq_zero_of_not_mem hg]
    exact iff_of_true rfl fun hmem => absurd hmem hg

theorem countsMembers_step_iff (h : CountsMembers mg) (hstep : step a mg = some mg') :
    CountsMembers mg' ↔ NoMemberLeaves a mg := by
  cases a with
  | add fd groups =>
    obtain ⟨-, hadd⟩ := Option.ite_none_right_eq_some.mp hstep
    obtain rfl := Option.some.inj hadd
    exact iff_of_true h.add trivial
  | remove fd groups =>
    obtain ⟨-, hremove⟩ := Option.ite_none_right_eq_some.mp hstep
    obtain rfl := Option.some.inj hremove
    exact countsMembers_remove_iff h

/-! ### Runs -/

/-- The numbers are right in every state of a run if and only if no member leaves. -/
theorem countsMembers_along_iff (as : List Action) :
    Along step CountsMembers as initializeGroupArray ↔
      Meets step NoMemberLeaves as initializeGroupArray :=
  along_iff_meets (I := fun _ => True) (fun _ _ _ _ _ => trivial)
    (fun _ _ _ _ h hstep => countsMembers_step_iff h hstep) trivial fun _ => rfl

/-- A client joins group 1 and leaves it. -/
theorem not_countsMembers_left :
    ¬ Along step CountsMembers [.add 5 [1], .remove 5 [1]] initializeGroupArray := by
  rintro ⟨-, hadd⟩
  obtain ⟨-, hremove⟩ := hadd _ rfl
  exact absurd (hremove _ rfl 1) (by decide)

end Leaving

end Multicast
