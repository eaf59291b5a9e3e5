import Mathlib.Data.Int.Notation
import Mathlib.Data.List.Nodup

/-!
# The job list

The jobs are a linked list, the newest one first. Every function on it has the same
shape: an empty list is answered at once, otherwise the list is searched for the id,
and the node where the search ends is used without a test for its end. A search that
fails dereferences a null pointer; the result is `none` then.

## Main definitions

* `Multicast.Job` — a job
* `Multicast.jobWithId` — the job that a search finds
* `Multicast.lookupJob`, `updateJob` — the two shapes of the functions
* `getGroupIdFromJob`, `getJobOpFromId`, `timeToComputeFinalResult`,
  `updateJobStatusAndGroup`, `updateJobStatusToCompleted` — the functions

## Main results

* `lookupJob_eq_some`, `updateJob_eq_some` — the functions on a listed id
* `jobWithId_assignFields` — the other jobs stay as they are
-/

set_option autoImplicit false

namespace Multicast

/-- `enum job_status`. -/
inductive JobStatus where
  | notStarted
  | inProgress
  | complete
deriving DecidableEq, Repr

/-- `struct job`. -/
structure Job where
  jobId : ℤ
  jobOperation : ℤ
  groupId : ℤ
  numberOfClients : ℤ
  status : JobStatus
  result : ℤ
deriving DecidableEq

/-- `add_job`. -/
def addJob (jobList : List Job) (jobId jobOperation : ℤ) : List Job :=
  { jobId := jobId
    jobOperation := jobOperation
    groupId := 0
    numberOfClients := 0
    status := .notStarted
    result := -1 } :: jobList

/-- The node in which the search for an id ends. -/
def jobWithId (jobList : List Job) (jobId : ℤ) : Option Job :=
  jobList.find? fun job => job.jobId = jobId

/-- A function that reads a field of the job with an id; `absent` is its answer for the
empty list. -/
def lookupJob {α : Type*} (field : Job → α) (absent : α) (jobList : List Job) (jobId : ℤ) :
    Option α :=
  if jobList = [] then some absent else (jobWithId jobList jobId).map field

/-- `get_group_id_from_job`. -/
def getGroupIdFromJob : List Job → ℤ → Option ℤ := lookupJob Job.groupId (-1)

/-- `get_job_op_from_id`. -/
def getJobOpFromId : List Job → ℤ → Option ℤ := lookupJob Job.jobOperation (-1)

/-- `time_to_compute_final_result`. The `-1` for the empty list is true as a `bool`. -/
def timeToComputeFinalResult (jobList : List Job) (jobId numberOfResults : ℤ) : Option Bool :=
  lookupJob (fun job => decide (job.numberOfClients = numberOfResults)) true jobList jobId

/-- The list after the fields of the first job with an id were assigned. -/
def assignFields (assign : Job → Job) (jobId : ℤ) : List Job → List Job
  | [] => []
  | job :: jobList =>
    if job.jobId = jobId then assign job :: jobList
    else job :: assignFields assign jobId jobList

/-- A function that assigns fields of the job with an id: the return value and the
list. -/
def updateJob (assign : Job → Job) (jobList : List Job) (jobId : ℤ) : Option (ℤ × List Job) :=
  if jobList = [] then some (-1, [])
  else (jobWithId jobList jobId).map fun _ => (0, assignFields assign jobId jobList)

/-- The fields that `update_job_status_and_group` assigns. -/
def Job.begun (groupId numberOfClients : ℤ) (job : Job) : Job :=
  { job with groupId := groupId, status := .inProgress, numberOfClients := numberOfClients }

/-- `update_job_status_and_group`. -/
def updateJobStatusAndGroup (jobList : List Job) (jobId groupId numberOfClients : ℤ) :
    Option (ℤ × List Job) :=
  updateJob (Job.begun groupId numberOfClients) jobList jobId

/-- The fields that `update_job_status_to_completed` assigns. -/
def Job.completed (result : ℤ) (job : Job) : Job :=
  { job with status := .complete, result := result }

/-- `update_job_status_to_completed`. -/
def updateJobStatusToCompleted (jobList : List Job) (jobId result : ℤ) :
    Option (ℤ × List Job) :=
  updateJob (Job.completed result) jobList jobId

variable {α : Type*} {field : Job → α} {absent : α} {assign : Job → Job}
variable {jobList jobList' : List Job} {job : Job} {jobId j : ℤ}

@[simp] theorem Job.jobId_begun (groupId n : ℤ) (job : Job) :
    (job.begun groupId n).jobId = job.jobId := rfl

@[simp] theorem Job.jobId_completed (result : ℤ) (job : Job) :
    (job.completed result).jobId = job.jobId := rfl

/-! ### Searching -/

@[simp] theorem jobWithId_nil : jobWithId [] j = none := rfl

theorem jobWithId_cons : jobWithId (job :: jobList) j =
    if job.jobId = j then some job else jobWithId jobList j := by
  rw [jobWithId, List.find?_cons]
  by_cases h : job.jobId = j <;> simp [h, jobWithId]

theorem mem_of_jobWithId (h : jobWithId jobList j = some job) :
    job ∈ jobList ∧ job.jobId = j :=
  ⟨List.mem_of_find?_eq_some h, by simpa using List.find?_some h⟩

theorem exists_jobWithId (h : job ∈ jobList) :
    ∃ found, jobWithId jobList job.jobId = some found := by
  rw [← Option.isSome_iff_exists, jobWithId, List.find?_isSome]
  exact ⟨job, h, by simp⟩

/-- In a list of different ids a search finds the job with the id. -/
theorem jobWithId_of_mem (hnodup : (jobList.map Job.jobId).Nodup) (h : job ∈ jobList) :
    jobWithId jobList job.jobId = some job := by
  -- whatever the search finds has the id of the job
  obtain ⟨found, hfound⟩ := exists_jobWithId h
  obtain ⟨hmem, hid⟩ := mem_of_jobWithId hfound
  rw [hfound, List.inj_on_of_nodup_map hnodup hmem h hid]

@[simp] theorem jobWithId_addJob {jobOperation : ℤ} :
    jobWithId (addJob jobList jobId jobOperation) j =
      if jobId = j then some ⟨jobId, jobOperation, 0, 0, .notStarted, -1⟩
      else jobWithId jobList j := jobWithId_cons

/-! ### The two shapes -/

/-- A getter on a listed id. -/
theorem lookupJob_eq_some (h : jobWithId jobList j = some job) :
    lookupJob field absent jobList j = some (field job) := by
  rw [lookupJob, if_neg (List.ne_nil_of_mem (mem_of_jobWithId h).1), h, Option.map_some]

/-- An update on a listed id. -/
theorem updateJob_eq_some (h : jobWithId jobList j = some job) :
    updateJob assign jobList j = some (0, assignFields assign j jobList) := by
  rw [updateJob, if_neg (List.ne_nil_of_mem (mem_of_jobWithId h).1), h, Option.map_some]

/-- The list that an update leaves. -/
theorem snd_of_updateJob {out : ℤ × List Job} (h : updateJob assign jobList j = some out) :
    out.2 = assignFields assign j jobList := by
  rw [updateJob] at h
  split at h
  next hnil =>
    obtain rfl := Option.some.inj h
    rw [hnil]
    rfl
  next =>
    obtain ⟨-, -, rfl⟩ := Option.map_eq_some_iff.mp h
    rfl

/-- What a search finds after fields other than the id were assigned. -/
theorem jobWithId_assignFields (hid : ∀ job, (assign job).jobId = job.jobId) :
    jobWithId (assignFields assign jobId jobList) j =
      if j = jobId then (jobWithId jobList j).map assign else jobWithId jobList j := by
  induction jobList with
  | nil => simp [assignFields, jobWithId]
  | cons job jobList ih =>
    rw [assignFields]
    by_cases hjob : job.jobId = jobId
    · -- the update ends here; the search ends here too, or goes past it
      rw [if_pos hjob, jobWithId_cons, jobWithId_cons, hid, hjob]
      by_cases hj : jobId = j
      · simp [hj]
      · simp [hj, Ne.symm hj]
    · -- a search that ends here is not for the id that is updated
      rw [if_neg hjob, jobWithId_cons, jobWithId_cons, ih]
      by_cases hj : job.jobId = j
      · have hne : j ≠ jobId := fun h => hjob (hj.trans h)
        simp [hj, hne]
      · simp [hj]

/-- A job that is found after fields were assigned was found before: with the fields of the
call if it is the job of the call, and the same otherwise. -/
theorem exists_of_jobWithId_assignFields
    (h : jobWithId (assignFields assign jobId jobList) j = some job)
    (hid : ∀ job, (assign job).jobId = job.jobId) :
    ∃ before, jobWithId jobList j = some before ∧
      (j = jobId ∧ job = assign before ∨ j ≠ jobId ∧ job = before) := by
  rw [jobWithId_assignFields hid] at h
  by_cases hj : j = jobId
  · rw [if_pos hj] at h
    obtain ⟨before, hbefore, rfl⟩ := Option.map_eq_some_iff.mp h
    exact ⟨before, hbefore, .inl ⟨hj, rfl⟩⟩
  · rw [if_neg hj] at h
    exact ⟨job, h, .inr ⟨hj, rfl⟩⟩

theorem map_jobId_assignFields (hid : ∀ job, (assign job).jobId = job.jobId) :
    (assignFields assign jobId jobList).map Job.jobId = jobList.map Job.jobId := by
  induction jobList with
  | nil => rfl
  | cons job jobList ih =>
    rw [assignFields]
    split
    · rw [List.map_cons, List.map_cons, hid]
    · rw [List.map_cons, List.map_cons, ih]

theorem jobWithId_begun {groupId n : ℤ} :
    jobWithId (assignFields (Job.begun groupId n) jobId jobList) j =
      if j = jobId then (jobWithId jobList j).map (Job.begun groupId n)
      else jobWithId jobList j := jobWithId_assignFields (Job.jobId_begun groupId n)

theorem jobWithId_completed {result : ℤ} :
    jobWithId (assignFields (Job.completed result) jobId jobList) j =
      if j = jobId then (jobWithId jobList j).map (Job.completed result)
      else jobWithId jobList j := jobWithId_assignFields (Job.jobId_completed result)

theorem map_jobId_begun {groupId n : ℤ} :
    (assignFields (Job.begun groupId n) jobId jobList).map Job.jobId = jobList.map Job.jobId :=
  map_jobId_assignFields (Job.jobId_begun groupId n)

theorem map_jobId_completed {result : ℤ} :
    (assignFields (Job.completed result) jobId jobList).map Job.jobId = jobList.map Job.jobId :=
  map_jobId_assignFields (Job.jobId_completed result)

end Multicast
