import Multicast.Server.State

/-!
# The start of a job

`job_addition` looks for a group, records the job, gives it to the group and queues a call
of the group handler. It does all of this whether a group was found or not. Without one the
job is recorded all the same, and the call is queued for the group `-1`.

## Main definitions

* `Multicast.MgArgument` — the arguments of a group handler
* `Multicast.JobPool` — the server and the calls that wait in `thpool_job`
* `JobPool.jobAddition` — a job is started
* `JobPool.Unstarted` — nothing was started

## Main results

* `JobPool.jobAddition_of_noFreeGroup` — a start without a group never leaves things as
  they are
-/

set_option autoImplicit false

namespace Multicast

/-- `struct mg_argument`. Its `job_id` is the operation of the job. -/
structure MgArgument where
  groupId : ℤ
  jobId : ℤ
  filename : List Char
deriving DecidableEq

/-- The server, and the arguments of the group handlers that wait in `thpool_job`. -/
structure JobPool extends Server where
  jobQueue : List MgArgument

/-- Nothing waits at the start. -/
def initialJobPool : JobPool := { initialServer with jobQueue := [] }

/-- No group is both free and not empty. -/
def NoFreeGroup (multicastGroups : MulticastGroups) : Prop :=
  ∀ g : ℤ, 0 ≤ g → g < numberOfGroups →
    ¬ ((multicastGroups g).groupStatus = .free ∧ (multicastGroups g).head ≠ [])

namespace JobPool

/-- `job_addition`. The arguments are queued as they are when the call returns. -/
def jobAddition (s : JobPool) (jobNumber : ℤ) (fileName : List Char) : JobPool :=
  let started := s.toServer.jobAddition jobNumber
  { toServer := started.2
    jobQueue := s.jobQueue ++ [⟨started.1, jobNumber, fileName⟩] }

/-- The job list, the groups and the work are as they were. -/
structure Unstarted (s s' : JobPool) : Prop where
  jobList : s'.jobList = s.jobList
  groups : ∀ g : ℤ, 0 ≤ g → g < numberOfGroups → s'.multicastGroups g = s.multicastGroups g
  jobQueue : s'.jobQueue = s.jobQueue

variable {s : JobPool} {jobNumber : ℤ} {fileName : List Char} {multicastGroups : MulticastGroups}

/-- `find_free_group` answers `-1` exactly if there is no such group. -/
theorem findFreeGroup_eq_neg_one_iff :
    findFreeGroup multicastGroups = -1 ↔ NoFreeGroup multicastGroups := by
  constructor
  · unfold findFreeGroup NoFreeGroup
    generalize numberOfGroups = n
    intro hnone g hlo hhi hfree
    split at hnone
    next => omega
    next hsearch =>
      -- the search saw the group
      obtain ⟨i, rfl⟩ := Int.eq_ofNat_of_zero_le hlo
      have hmem : i ∈ List.range n := List.mem_range.mpr (by omega)
      exact List.find?_eq_none.mp hsearch i hmem (decide_eq_true hfree)
  · intro h
    by_contra hne
    obtain ⟨hfree, hhead, hlo, hhi⟩ := findFreeGroup_spec hne
    exact h _ hlo hhi ⟨hfree, hhead⟩

theorem jobQueue_jobAddition : (s.jobAddition jobNumber fileName).jobQueue =
    s.jobQueue ++ [⟨findFreeGroup s.multicastGroups, jobNumber, fileName⟩] := by
  simp only [jobAddition, Server.jobAddition]

/-- A start records the job, whatever group it finds. -/
theorem not_unstarted_jobAddition : ¬ Unstarted s (s.jobAddition jobNumber fileName) := by
  intro h
  have hlength := congrArg List.length h.jobList
  change s.jobList.length + 1 = s.jobList.length at hlength
  omega

/-- A start without a group that is free and not empty never leaves things as they are: the
job is recorded under a new id and its handler queued for the group `-1`. Only the groups
that exist stay as they are. -/
theorem jobAddition_of_noFreeGroup (s : JobPool) (h : NoFreeGroup s.multicastGroups)
    (jobNumber : ℤ) (fileName : List Char) :
    ¬ Unstarted s (s.jobAddition jobNumber fileName) ∧
      (s.jobAddition jobNumber fileName).jobList = addJob s.jobList (s.jobId + 1) jobNumber ∧
      (s.jobAddition jobNumber fileName).jobQueue = s.jobQueue ++ [⟨-1, jobNumber, fileName⟩] ∧
      ∀ g, 0 ≤ g → (s.jobAddition jobNumber fileName).multicastGroups g =
        s.multicastGroups g := by
  have hnone := findFreeGroup_eq_neg_one_iff.mpr h
  refine ⟨not_unstarted_jobAddition, rfl, ?_, fun g hg => ?_⟩
  · rw [jobQueue_jobAddition, hnone]
  · simp only [jobAddition, Server.jobAddition, hnone]
    exact updateGroupWithJobAssigned_of_ne (by omega)

end JobPool

theorem noFreeGroup_initialJobPool : NoFreeGroup initialJobPool.multicastGroups :=
  fun _ _ _ h => h.2 rfl

/-- A server without clients records a job and queues its handler. -/
theorem jobAddition_initialJobPool :
    ¬ initialJobPool.Unstarted (initialJobPool.jobAddition jobMin ['f']) ∧
      (initialJobPool.jobAddition jobMin ['f']).jobQueue = [⟨-1, jobMin, ['f']⟩] := by
  obtain ⟨hstarted, -, hqueue, -⟩ :=
    initialJobPool.jobAddition_of_noFreeGroup noFreeGroup_initialJobPool jobMin ['f']
  exact ⟨hstarted, hqueue⟩

/-- The only group with a client works on a job. -/
def busyJobPool : JobPool :=
  { initialJobPool with toServer := initialServer.handleGroupIdRegs 0 5 [3] }.jobAddition jobMin
    ['f']

/-- A second job is recorded, although no group can work on it. -/
theorem not_unstarted_busyJobPool :
    NoFreeGroup busyJobPool.multicastGroups ∧
      ¬ busyJobPool.Unstarted (busyJobPool.jobAddition jobMax ['g']) := by
  refine ⟨JobPool.findFreeGroup_eq_neg_one_iff.mp ?_, JobPool.not_unstarted_jobAddition⟩
  decide +kernel

end Multicast
