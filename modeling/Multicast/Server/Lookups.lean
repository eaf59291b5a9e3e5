import Multicast.Server.State

/-!
# Searches for ids that are not listed

Seven functions walk the job list. Six of them search for an id: they answer an empty list
at once, test the head, run a loop that stops at the id or behind the last node, and then
look at the node where the loop stopped. The seventh prints all nodes, and looks at the
first one before anything else.

The traversals are written out here and compared with the shapes that `lookupJob` and
`updateJob` give them. An id that is not in a list with nodes runs every search off the
end, and the test behind the loop dereferences a null pointer.

## Main definitions

* `Multicast.search` — the loop
* `Multicast.readTraversal`, `writeTraversal` — the two kinds of functions as they are written
* `Multicast.removeJob`, `displayJobsStatus` — the two functions of no such kind
* `Multicast.LookupsSafe` — no function on the list dereferences a null pointer, and an id
  that is not listed is answered as such

## Main results

* `readTraversal_eq_lookupJob`, `writeTraversal_eq_updateJob` — the traversals have those
  shapes
* `lookupsSafe_iff` — the functions are safe exactly for the ids in the list
-/

set_option autoImplicit false

namespace Multicast

/-! ### The traversals -/

/-- The loop over the nodes: those that it leaves behind, the last of them being `prev`, and
those from `curr` on, none if the loop ran off the end. -/
def search (jobId : ℤ) : List Job → List Job × List Job
  | [] => ([], [])
  | curr :: next =>
    if curr.jobId ≠ jobId then (curr :: (search jobId next).1, (search jobId next).2)
    else ([], curr :: next)

/-- A function that reads a field, with its answers for an empty list and for a node that
fails the test behind the loop. -/
def readTraversal {α : Type*} (field : Job → α) (empty missing : α) (jobList : List Job)
    (jobId : ℤ) : Option α :=
  match jobList with
  | [] => some empty
  | head :: next =>
    if head.jobId = jobId then some (field head)
    else
      match (search jobId (head :: next)).2 with
      | [] => none
      | curr :: _ => if curr.jobId = jobId then some (field curr) else some missing

/-- A function that assigns fields. -/
def writeTraversal (assign : Job → Job) (jobList : List Job) (jobId : ℤ) :
    Option (ℤ × List Job) :=
  match jobList with
  | [] => some (-1, [])
  | head :: next =>
    if head.jobId = jobId then some (0, assign head :: next)
    else
      match search jobId (head :: next) with
      | (_, []) => none
      | (front, curr :: next) =>
        if curr.jobId = jobId then some (0, front ++ assign curr :: next)
        else some (0, front ++ curr :: next)

/-- `remove_job`. A node that failed the test behind the loop would be released while the
list still has it. -/
def removeJob (jobList : List Job) (jobId : ℤ) : Option (ℤ × List Job) :=
  match jobList with
  | [] => some (-1, [])
  | head :: next =>
    if head.jobId = jobId then some (0, next)
    else
      match search jobId (head :: next) with
      | (_, []) => none
      | (front, curr :: next) => if curr.jobId = jobId then some (0, front ++ next) else none

/-- The line that `display_jobs_status` prints for a job. -/
def Job.statusLine (job : Job) : ℤ × JobStatus × ℤ := (job.jobId, job.status, job.result)

/-- `display_jobs_status`: the loop stops at the last node, which is printed behind it. -/
def displayJobsStatus : List Job → Option (List (ℤ × JobStatus × ℤ))
  | [] => none
  | [job] => some [job.statusLine]
  | job :: next :: rest =>
    (displayJobsStatus (next :: rest)).map fun lines => job.statusLine :: lines

/-- A job with the id is listed. -/
def Listed (jobList : List Job) (jobId : ℤ) : Prop := ∃ job ∈ jobList, job.jobId = jobId

instance (jobList : List Job) (jobId : ℤ) : Decidable (Listed jobList jobId) :=
  inferInstanceAs (Decidable (∃ job ∈ jobList, _))

variable {α : Type*} {field : Job → α} {empty missing absent : α} {assign : Job → Job}
variable {jobList : List Job} {job : Job} {jobId : ℤ}

theorem exists_jobWithId_of_listed (h : Listed jobList jobId) :
    ∃ job, jobWithId jobList jobId = some job := by
  obtain ⟨job, hmem, rfl⟩ := h
  exact exists_jobWithId hmem

theorem jobWithId_eq_none_iff : jobWithId jobList jobId = none ↔ ¬ Listed jobList jobId := by
  simp [jobWithId, Listed]

/-! ### Where the loop stops -/

/-- An id that is not listed runs the loop off the end. -/
theorem search_of_not_listed (h : jobWithId jobList jobId = none) :
    search jobId jobList = (jobList, []) := by
  induction jobList with
  | nil => rfl
  | cons curr next ih =>
    rw [jobWithId_cons] at h
    by_cases hid : curr.jobId = jobId
    · simp [hid] at h
    · rw [if_neg hid] at h
      rw [search, if_pos hid, ih h]

/-- The loop stops at the first job with the id. -/
theorem search_of_listed (h : jobWithId jobList jobId = some job) :
    ∃ front next, search jobId jobList = (front, job :: next) ∧ job.jobId = jobId ∧
      jobList = front ++ job :: next ∧ (∀ prev ∈ front, prev.jobId ≠ jobId) := by
  induction jobList with
  | nil => simp at h
  | cons curr next ih =>
    rw [jobWithId_cons] at h
    by_cases hid : curr.jobId = jobId
    · rw [if_pos hid] at h
      obtain rfl := Option.some.inj h
      exact ⟨[], next, by rw [search, if_neg (not_not.mpr hid)], hid, rfl, by simp⟩
    · rw [if_neg hid] at h
      obtain ⟨front, next', hsearch, hjob, hsplit, hfront⟩ := ih h
      refine ⟨curr :: front, next', ?_, hjob, congrArg (curr :: ·) hsplit, ?_⟩
      · rw [search, if_pos hid, hsearch]
      · exact List.forall_mem_cons.mpr ⟨hid, hfront⟩

/-- The assignment goes past the nodes without the id. -/
theorem assignFields_append {front : List Job} (hfront : ∀ prev ∈ front, prev.jobId ≠ jobId)
    (hid : job.jobId = jobId) (next : List Job) :
    assignFields assign jobId (front ++ job :: next) = front ++ assign job :: next := by
  induction front with
  | nil => rw [List.nil_append, assignFields, if_pos hid, List.nil_append]
  | cons prev front ih =>
    obtain ⟨hprev, hfront⟩ := List.forall_mem_cons.mp hfront
    rw [List.cons_append, assignFields, if_neg hprev, ih hfront, List.cons_append]

/-- A reading traversal is a lookup; the answer behind the loop is never given. -/
theorem readTraversal_eq_lookupJob :
    readTraversal field empty missing jobList jobId = lookupJob field empty jobList jobId := by
  cases jobList with
  | nil => rfl
  | cons head next =>
    rw [readTraversal, lookupJob, if_neg (List.cons_ne_nil head next)]
    by_cases hid : head.jobId = jobId
    · rw [if_pos hid, jobWithId_cons, if_pos hid, Option.map_some]
    · rw [if_neg hid]
      cases hjob : jobWithId (head :: next) jobId with
      | none =>
        rw [search_of_not_listed hjob]
        rfl
      | some job =>
        obtain ⟨front, rest, hsearch, hid, -⟩ := search_of_listed hjob
        rw [hsearch]
        simp [hid]

/-- A writing traversal is an update. -/
theorem writeTraversal_eq_updateJob :
    writeTraversal assign jobList jobId = updateJob assign jobList jobId := by
  cases jobList with
  | nil => rfl
  | cons head next =>
    rw [writeTraversal, updateJob, if_neg (List.cons_ne_nil head next)]
    by_cases hid : head.jobId = jobId
    · rw [if_pos hid, jobWithId_cons, if_pos hid, Option.map_some, assignFields, if_pos hid]
    · rw [if_neg hid]
      cases hjob : jobWithId (head :: next) jobId with
      | none =>
        rw [search_of_not_listed hjob]
        rfl
      | some job =>
        obtain ⟨front, rest, hsearch, hid, hsplit, hfront⟩ := search_of_listed hjob
        rw [hsearch, hsplit, assignFields_append hfront hid]
        simp [hid]

/-! ### Which calls return -/

/-- The empty list has an answer of its own. -/
theorem isSome_found_iff {β : Type*} {empty : β} {found : Job → β} :
    (if jobList = [] then some empty else (jobWithId jobList jobId).map found).isSome ↔
      jobList = [] ∨ Listed jobList jobId := by
  by_cases hnil : jobList = []
  · simp [hnil]
  · rw [if_neg hnil, Option.isSome_map, Option.isSome_iff_ne_none, Ne, jobWithId_eq_none_iff,
      not_not]
    exact (or_iff_right hnil).symm

theorem lookupJob_isSome_iff :
    (lookupJob field absent jobList jobId).isSome ↔ jobList = [] ∨ Listed jobList jobId :=
  isSome_found_iff

theorem updateJob_isSome_iff :
    (updateJob assign jobList jobId).isSome ↔ jobList = [] ∨ Listed jobList jobId :=
  isSome_found_iff

theorem removeJob_isSome_iff :
    (removeJob jobList jobId).isSome ↔ jobList = [] ∨ Listed jobList jobId := by
  cases jobList with
  | nil => simp [removeJob]
  | cons head next =>
    rw [removeJob]
    by_cases hid : head.jobId = jobId
    · rw [if_pos hid]
      exact iff_of_true rfl (.inr ⟨head, List.mem_cons_self, hid⟩)
    · rw [if_neg hid]
      cases hjob : jobWithId (head :: next) jobId with
      | none =>
        rw [search_of_not_listed hjob]
        have hnot := jobWithId_eq_none_iff.mp hjob
        simp [hnot]
      | some job =>
        obtain ⟨front, rest, hsearch, hid, -⟩ := search_of_listed hjob
        rw [hsearch]
        refine iff_of_true (by simp [hid]) (.inr ?_)
        exact ⟨job, (mem_of_jobWithId hjob).1, hid⟩

/-- The first job with a listed id is removed, and no other. -/
theorem removeJob_eq_some (h : jobWithId jobList jobId = some job) :
    removeJob jobList jobId = some (0, jobList.eraseP fun job => job.jobId = jobId) := by
  obtain ⟨front, rest, hsearch, hid, hsplit, hfront⟩ := search_of_listed h
  have herase : (front ++ job :: rest).eraseP (fun job => job.jobId = jobId) = front ++ rest := by
    rw [List.eraseP_append_right _ (by simpa using hfront),
      List.eraseP_cons_of_pos (by simpa using hid)]
  cases jobList with
  | nil => simp at h
  | cons head next =>
    rw [removeJob, hsearch, hsplit, herase]
    split
    next hhead =>
      -- the head has the id, so that nothing is left behind
      cases front with
      | nil => rw [(List.cons_eq_cons.mp hsplit).2, List.nil_append]
      | cons prev front =>
        obtain rfl := (List.cons_eq_cons.mp hsplit).1
        exact absurd hhead (hfront head List.mem_cons_self)
    next => simp [hid]

theorem displayJobsStatus_eq_some (h : jobList ≠ []) :
    displayJobsStatus jobList = some (jobList.map Job.statusLine) := by
  induction jobList with
  | nil => exact absurd rfl h
  | cons job next ih =>
    cases next with
    | nil => rfl
    | cons job' rest =>
      rw [displayJobsStatus, ih (List.cons_ne_nil job' rest)]
      rfl

theorem displayJobsStatus_isSome_iff : (displayJobsStatus jobList).isSome ↔ jobList ≠ [] := by
  constructor
  · rintro h rfl
    cases h
  · intro h
    rw [displayJobsStatus_eq_some h]
    rfl

/-! ### The property -/

/-- No call on the list dereferences a null pointer. -/
structure CallsReturn (jobList : List Job) (jobId : ℤ) : Prop where
  group : (getGroupIdFromJob jobList jobId).isSome
  operation : (getJobOpFromId jobList jobId).isSome
  time : ∀ n, (timeToComputeFinalResult jobList jobId n).isSome
  begun : ∀ groupId n, (updateJobStatusAndGroup jobList jobId groupId n).isSome
  completed : ∀ result, (updateJobStatusToCompleted jobList jobId result).isSome
  removed : (removeJob jobList jobId).isSome
  displayed : (displayJobsStatus jobList).isSome

/-- The answers for an id that is not listed: `-1` from the getters, no final result, and
the list as it was. -/
structure AnsweredAsAbsent (jobList : List Job) (jobId : ℤ) : Prop where
  group : getGroupIdFromJob jobList jobId = some (-1)
  operation : getJobOpFromId jobList jobId = some (-1)
  time : ∀ n, timeToComputeFinalResult jobList jobId n = some false
  begun : ∀ groupId n, ∃ code,
    updateJobStatusAndGroup jobList jobId groupId n = some (code, jobList)
  completed : ∀ result, ∃ code,
    updateJobStatusToCompleted jobList jobId result = some (code, jobList)
  removed : ∃ code, removeJob jobList jobId = some (code, jobList)

/-- The functions are safe for an id, and so is the handling of a result that names it: if
the library has the operation that was read, `Handle_result` returns. -/
structure LookupsSafe (jobList : List Job) (jobId : ℤ) : Prop where
  returns : CallsReturn jobList jobId
  absent : ¬ Listed jobList jobId → AnsweredAsAbsent jobList jobId
  result : ∀ (lib : MinMax) (s : Server) (fd value : ℤ), s.jobList = jobList →
    (∀ operation, getJobOpFromId jobList jobId = some operation → lib.select operation ≠ none) →
    (s.handleResult lib fd value jobId).isSome

theorem callsReturn_iff : CallsReturn jobList jobId ↔ Listed jobList jobId := by
  constructor
  · intro h
    -- a list that can be displayed has nodes, and then only the ids in it are found
    have hne := displayJobsStatus_isSome_iff.mp h.displayed
    exact (lookupJob_isSome_iff.mp h.group).resolve_left hne
  · intro h
    obtain ⟨job, hmem, -⟩ := id h
    exact ⟨lookupJob_isSome_iff.mpr (.inr h), lookupJob_isSome_iff.mpr (.inr h),
      fun _ => lookupJob_isSome_iff.mpr (.inr h), fun _ _ => updateJob_isSome_iff.mpr (.inr h),
      fun _ => updateJob_isSome_iff.mpr (.inr h), removeJob_isSome_iff.mpr (.inr h),
      displayJobsStatus_isSome_iff.mpr (List.ne_nil_of_mem hmem)⟩

/-- The functions on the job list are safe for an id, and a result that names it does not
bring the server down through them, if and only if a job with the id is listed. -/
theorem lookupsSafe_iff (jobList : List Job) (jobId : ℤ) :
    LookupsSafe jobList jobId ↔ Listed jobList jobId := by
  constructor
  · intro h
    exact callsReturn_iff.mp h.returns
  · intro h
    refine ⟨callsReturn_iff.mpr h, fun habsent => absurd h habsent, ?_⟩
    rintro lib s fd value rfl hselect
    obtain ⟨job, hjob⟩ := exists_jobWithId_of_listed h
    have hne := hselect job.jobOperation (lookupJob_eq_some hjob)
    obtain ⟨minMax, hop⟩ := Option.ne_none_iff_exists'.mp hne
    rw [Server.handleResult_eq hjob hop]
    rfl

/-- The first job was started, and a result comes for a second one. -/
theorem not_lookupsSafe_addJob : ¬ LookupsSafe (addJob [] 1 jobMin) 2 := by
  intro h
  have hlookup : getGroupIdFromJob (addJob [] 1 jobMin) 2 = none := by decide
  have hgroup := h.returns.group
  rw [hlookup] at hgroup
  cases hgroup

end Multicast
