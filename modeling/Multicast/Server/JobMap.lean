import Multicast.Lib.StepRun
import Multicast.Server.Lookups

/-!
# The job list is a map

What the job list is for: a map from the ids of jobs to jobs. A job is added under an id
that is not listed, and the other functions are called on ids that are listed. The functions
as they are written, each with its own case for the head of the list, are shown to follow
every run of the map.

## Main definitions

* `Multicast.JobMap.Action`, `mapStep` — the calls, and what they do to the map
* `step` — what they do to the list
* `LeavesOthers` — a call keeps the jobs with other ids, and their order
* `IsMap` — the answers of the functions, and the ids in the list, are those of the map

## Main results

* `represents_step` — a call on the list follows the map
* `isMap_of_run` — so does a run from the empty list

## Implementation notes

An id may be added again after its job was removed; a sequence in which no id is added twice
is one of these.
-/

set_option autoImplicit false

namespace Multicast.JobMap

open StepRun

/-- The calls that change the list. -/
inductive Action where
  | addJob (jobId jobOperation : ℤ)
  | updateJobStatusAndGroup (jobId groupId numberOfClients : ℤ)
  | updateJobStatusToCompleted (jobId result : ℤ)
  | removeJob (jobId : ℤ)

/-- The id that a call names. -/
def Action.jobId : Action → ℤ
  | addJob jobId _ | updateJobStatusAndGroup jobId _ _ | updateJobStatusToCompleted jobId _
  | removeJob jobId => jobId

/-- The jobs by their ids. -/
abbrev Jobs := ℤ → Option Job

/-- The map without jobs. -/
def noJobs : Jobs := fun _ => none

/-- Fields of a listed job are assigned. -/
def assign (update : Job → Job) (jobId : ℤ) (jobs : Jobs) : Option Jobs :=
  (jobs jobId).map fun job => Function.update jobs jobId (some (update job))

/-- A call on the map. It is not made where the id is listed or not listed as it should
not be. -/
def mapStep : Action → Jobs → Option Jobs
  | .addJob jobId jobOperation, jobs =>
    if jobs jobId = none then
      some (Function.update jobs jobId (some
        { jobId := jobId
          jobOperation := jobOperation
          groupId := 0
          numberOfClients := 0
          status := .notStarted
          result := -1 }))
    else none
  | .updateJobStatusAndGroup jobId groupId numberOfClients, jobs =>
    assign (Job.begun groupId numberOfClients) jobId jobs
  | .updateJobStatusToCompleted jobId result, jobs => assign (Job.completed result) jobId jobs
  | .removeJob jobId, jobs => (jobs jobId).map fun _ => Function.update jobs jobId none

/-- A call on the list, with the functions as they are written. -/
def step : Action → List Job → Option (List Job)
  | .addJob jobId jobOperation, jobList => some (addJob jobList jobId jobOperation)
  | .updateJobStatusAndGroup jobId groupId numberOfClients, jobList =>
    (writeTraversal (Job.begun groupId numberOfClients) jobList jobId).map Prod.snd
  | .updateJobStatusToCompleted jobId result, jobList =>
    (writeTraversal (Job.completed result) jobList jobId).map Prod.snd
  | .removeJob jobId, jobList => (removeJob jobList jobId).map Prod.snd

/-- The jobs of a list with other ids than this. -/
def others (jobId : ℤ) (jobList : List Job) : List Job :=
  jobList.filter fun job => job.jobId ≠ jobId

/-- The call returns, and the other jobs are the same in the same order. -/
def LeavesOthers (a : Action) (jobList : List Job) : Prop :=
  ∃ jobList', step a jobList = some jobList' ∧ others a.jobId jobList' = others a.jobId jobList

/-- The functions that read answer what the map says, and a listed id is in the list once. -/
structure IsMap (jobs : Jobs) (jobList : List Job) : Prop where
  getGroupIdFromJob : ∀ jobId job, jobs jobId = some job →
    readTraversal Job.groupId (-1) (-1) jobList jobId = some job.groupId
  getJobOpFromId : ∀ jobId job, jobs jobId = some job →
    readTraversal Job.jobOperation (-1) (-1) jobList jobId = some job.jobOperation
  timeToComputeFinalResult : ∀ jobId job n, jobs jobId = some job →
    readTraversal (fun job => decide (job.numberOfClients = n)) true false jobList jobId =
      some (decide (job.numberOfClients = n))
  count_jobId : ∀ jobId, (jobList.map Job.jobId).count jobId =
    if (jobs jobId).isSome then 1 else 0

/-- The list has the jobs of the map. -/
structure Represents (jobs : Jobs) (jobList : List Job) : Prop where
  jobWithId_eq : ∀ jobId, jobWithId jobList jobId = jobs jobId
  nodup : (jobList.map Job.jobId).Nodup

variable {jobs jobs' : Jobs} {jobList : List Job} {a : Action} {jobId j : ℤ} {job : Job}
variable {update : Job → Job}

/-! ### One call on the list -/

theorem others_cons_of_eq (h : job.jobId = jobId) :
    others jobId (job :: jobList) = others jobId jobList :=
  List.filter_cons_of_neg (by simpa using h)

theorem others_cons_of_ne (h : job.jobId ≠ jobId) :
    others jobId (job :: jobList) = job :: others jobId jobList :=
  List.filter_cons_of_pos (by simpa using h)

theorem others_assignFields (hid : ∀ job, (update job).jobId = job.jobId) :
    others jobId (assignFields update jobId jobList) = others jobId jobList := by
  induction jobList with
  | nil => rfl
  | cons job jobList ih =>
    rw [assignFields]
    split
    next hjob => rw [others_cons_of_eq ((hid job).trans hjob), others_cons_of_eq hjob]
    next hjob => rw [others_cons_of_ne hjob, others_cons_of_ne hjob, ih]

theorem others_eraseP :
    others jobId (jobList.eraseP fun job => job.jobId = jobId) = others jobId jobList := by
  induction jobList with
  | nil => rfl
  | cons job jobList ih =>
    by_cases hjob : job.jobId = jobId
    · -- the job that goes is none of the others
      rw [List.eraseP_cons_of_pos (by simpa using hjob), others_cons_of_eq hjob]
    · rw [List.eraseP_cons_of_neg (by simpa using hjob), others_cons_of_ne hjob,
        others_cons_of_ne hjob, ih]

/-- A search after the only job with an id was removed. -/
theorem jobWithId_eraseP (hnodup : (jobList.map Job.jobId).Nodup) :
    jobWithId (jobList.eraseP fun job => job.jobId = jobId) j =
      if j = jobId then none else jobWithId jobList j := by
  induction jobList with
  | nil => simp
  | cons job jobList ih =>
    rw [List.map_cons, List.nodup_cons] at hnodup
    by_cases hjob : job.jobId = jobId
    · rw [List.eraseP_cons_of_pos (by simpa using hjob), jobWithId_cons, hjob]
      by_cases hj : j = jobId
      · -- the head was the only one
        rw [if_pos hj, hj, ← hjob, jobWithId_eq_none_iff]
        rintro ⟨job', hmem, hsame⟩
        exact hnodup.1 (hsame ▸ List.mem_map_of_mem hmem)
      · rw [if_neg hj, if_neg (Ne.symm hj)]
    · rw [List.eraseP_cons_of_neg (by simpa using hjob), jobWithId_cons, jobWithId_cons,
        ih hnodup.2]
      by_cases hj : job.jobId = j
      · have hne : j ≠ jobId := fun h => hjob (hj.trans h)
        rw [if_pos hj, if_neg hne, if_pos hj]
      · rw [if_neg hj, if_neg hj]

/-! ### The list follows the map -/

theorem Represents.mem_jobId_iff (h : Represents jobs jobList) :
    jobId ∈ jobList.map Job.jobId ↔ (jobs jobId).isSome := by
  rw [← h.jobWithId_eq, Option.isSome_iff_ne_none, Ne, jobWithId_eq_none_iff, not_not,
    List.mem_map, Listed]

/-- A new job. -/
theorem Represents.addJob {jobOperation : ℤ} (h : Represents jobs jobList)
    (hnew : jobs jobId = none) :
    Represents (Function.update jobs jobId (some ⟨jobId, jobOperation, 0, 0, .notStarted, -1⟩))
      (addJob jobList jobId jobOperation) where
  jobWithId_eq := by
    intro j
    rw [jobWithId_addJob]
    by_cases hj : jobId = j
    · rw [if_pos hj, hj, Function.update_self]
    · rw [if_neg hj, Function.update_of_ne (Ne.symm hj), h.jobWithId_eq]
  nodup := by
    refine List.nodup_cons.mpr ⟨fun hmem => ?_, h.nodup⟩
    -- an id of the list is one of the map
    have hlisted := h.mem_jobId_iff.mp hmem
    rw [hnew] at hlisted
    cases hlisted

/-- A call that assigns fields other than the id. -/
theorem Represents.assign (h : Represents jobs jobList)
    (hid : ∀ job, (update job).jobId = job.jobId)
    (hassign : JobMap.assign update jobId jobs = some jobs') :
    ∃ jobList', (writeTraversal update jobList jobId).map Prod.snd = some jobList' ∧
      others jobId jobList' = others jobId jobList ∧ Represents jobs' jobList' := by
  obtain ⟨job, hjob, rfl⟩ := Option.map_eq_some_iff.mp hassign
  refine ⟨assignFields update jobId jobList, ?_, others_assignFields hid, ?_, ?_⟩
  · have hlisted : jobWithId jobList jobId = some job := (h.jobWithId_eq jobId).trans hjob
    rw [writeTraversal_eq_updateJob, updateJob_eq_some hlisted, Option.map_some]
  · -- a search finds the new fields under the id, and what it found under any other
    intro j
    rw [jobWithId_assignFields hid, h.jobWithId_eq]
    by_cases hj : j = jobId
    · rw [if_pos hj, hj, hjob, Function.update_self, Option.map_some]
    · rw [if_neg hj, Function.update_of_ne hj]
  · rw [map_jobId_assignFields hid]
    exact h.nodup

/-- A removal. -/
theorem Represents.removeJob (h : Represents jobs jobList) (hjob : jobs jobId = some job) :
    ∃ jobList', (removeJob jobList jobId).map Prod.snd = some jobList' ∧
      others jobId jobList' = others jobId jobList ∧
      Represents (Function.update jobs jobId none) jobList' := by
  have hlisted : jobWithId jobList jobId = some job := (h.jobWithId_eq jobId).trans hjob
  refine ⟨jobList.eraseP fun job => job.jobId = jobId, ?_, others_eraseP, ?_, ?_⟩
  · rw [removeJob_eq_some hlisted, Option.map_some]
  · intro j
    rw [jobWithId_eraseP h.nodup, h.jobWithId_eq]
    by_cases hj : j = jobId
    · rw [if_pos hj, hj, Function.update_self]
    · rw [if_neg hj, Function.update_of_ne hj]
  · exact h.nodup.sublist (List.eraseP_sublist.map Job.jobId)

/-- A call on the list follows the map, and leaves the other jobs. -/
theorem represents_step (h : Represents jobs jobList) (hstep : mapStep a jobs = some jobs') :
    LeavesOthers a jobList ∧
      ∃ jobList', step a jobList = some jobList' ∧ Represents jobs' jobList' := by
  have hfollows : ∃ jobList', step a jobList = some jobList' ∧
      others a.jobId jobList' = others a.jobId jobList ∧ Represents jobs' jobList' := by
    cases a with
    | addJob jobId jobOperation =>
      obtain ⟨hnew, rfl⟩ := by simpa [mapStep] using hstep
      exact ⟨_, rfl, others_cons_of_eq rfl, h.addJob hnew⟩
    | updateJobStatusAndGroup jobId groupId n => exact h.assign (Job.jobId_begun groupId n) hstep
    | updateJobStatusToCompleted jobId result => exact h.assign (Job.jobId_completed result) hstep
    | removeJob jobId =>
      obtain ⟨job, hjob, rfl⟩ := Option.map_eq_some_iff.mp hstep
      exact h.removeJob hjob
  obtain ⟨jobList', hlist, hothers, hrepresents⟩ := hfollows
  exact ⟨⟨jobList', hlist, hothers⟩, jobList', hlist, hrepresents⟩

theorem Represents.isMap (h : Represents jobs jobList) : IsMap jobs jobList where
  getGroupIdFromJob := by
    intro jobId job hjob
    rw [readTraversal_eq_lookupJob, lookupJob_eq_some ((h.jobWithId_eq jobId).trans hjob)]
  getJobOpFromId := by
    intro jobId job hjob
    rw [readTraversal_eq_lookupJob, lookupJob_eq_some ((h.jobWithId_eq jobId).trans hjob)]
  timeToComputeFinalResult := by
    intro jobId job n hjob
    rw [readTraversal_eq_lookupJob, lookupJob_eq_some ((h.jobWithId_eq jobId).trans hjob)]
  count_jobId := by
    intro jobId
    rw [h.nodup.count]
    exact if_congr h.mem_jobId_iff rfl rfl

/-! ### Runs -/

theorem represents_nil : Represents noJobs [] := ⟨fun _ => rfl, List.nodup_nil⟩

/-- Every sequence of calls that the map allows can be made on the list. Each call leaves
the jobs with other ids, and at the end the list is the map that the calls have written. -/
theorem isMap_of_run (as : List Action) (hrun : run mapStep as noJobs = some jobs) :
    Checks step LeavesOthers as [] ∧
      ∃ jobList, run step as [] = some jobList ∧ IsMap jobs jobList := by
  have hsimulates : ∀ a jobs jobs' jobList, Represents jobs jobList →
      mapStep a jobs = some jobs' → LeavesOthers a jobList ∧
        ∃ jobList', step a jobList = some jobList' ∧ Represents jobs' jobList' :=
    fun _ _ _ _ => represents_step
  obtain ⟨hothers, jobList, hlist, hrepresents⟩ :=
    exists_run_of_simulates hsimulates hrun represents_nil
  exact ⟨hothers, jobList, hlist, hrepresents.isMap⟩

/-- Three jobs are added, the middle one is begun and completed, and the first removed. -/
def threeJobs : List Action :=
  [.addJob 1 1, .addJob 2 2, .addJob 3 1, .updateJobStatusAndGroup 2 7 4,
    .updateJobStatusToCompleted 2 9, .removeJob 1]

/-- Job 2 has its group then, and job 1 is not listed. -/
theorem isMap_threeJobs :
    ∃ jobs, jobs 1 = none ∧ (jobs 2).map Job.groupId = some 7 ∧
      Checks step LeavesOthers threeJobs [] ∧
      ∃ jobList, run step threeJobs [] = some jobList ∧ IsMap jobs jobList := by
  have hevaluated : (run mapStep threeJobs noJobs).map
      (fun jobs => (jobs 1, (jobs 2).map Job.groupId)) = some (none, some 7) := by decide
  obtain ⟨jobs, hrun, heq⟩ := Option.map_eq_some_iff.mp hevaluated
  obtain ⟨hremoved, hgroup⟩ := Prod.mk.inj heq
  exact ⟨jobs, hremoved, hgroup, isMap_of_run threeJobs hrun⟩

end Multicast.JobMap
