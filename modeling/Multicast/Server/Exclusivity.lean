import Multicast.Lib.StepRun
import Multicast.Server.State

/-!
# A group works on one job at a time

A run of the server, as far as groups and jobs go: registrations, starts of jobs, the
bookkeeping of the group handlers that the starts queued, and results. A group handler
runs when the pool gets to it, after any number of other steps.

The id of a group's job is never cleared. What keeps a late result from freeing a group
that has gone to another job is that the ids differ; what keeps an early one from
finishing a job is that a job that was not dispatched records no clients, and a result
file that was just appended to has a line.

## Main definitions

* `Multicast.Exclusivity.Action`, `step` — what can happen, and its effect
* `Exclusive` — what the tables say about groups and unfinished jobs agrees
* `JobsInv` — the invariant of the runs

## Main results

* `JobsInv.step` — every step keeps the invariant
* `exclusive_of_run` — it holds in every reachable state, and late results free nothing
-/

set_option autoImplicit false

namespace Multicast.Exclusivity

open StepRun

/-! ### Runs -/

/-- What can happen to groups and jobs. -/
inductive Action where
  | register (now clientSocketFd : ℤ) (groups : List ℤ)
  | start (operation : ℤ)
  | groupHandler (groupId jobId : ℤ)
  | result (clientSocketFd value jobId : ℤ)

/-- The server, with the group handlers that wait in the pool, each for its group and its
job. -/
structure Control extends Server where
  queued : List (ℤ × ℤ)

/-- Nothing is queued at the start. -/
def initialControl : Control := { initialServer with queued := [] }

/-- One step. A registration names groups that exist, a start has an operation and finds a
group, a group handler is one that waits, and a result names a job of the list. -/
def step (lib : MinMax) : Action → Control → Option Control
  | .register now clientSocketFd groups, s =>
    if ValidGroups groups then
      some { s with toServer := s.handleGroupIdRegs now clientSocketFd groups }
    else none
  | .start operation, s =>
    if (operation = jobMin ∨ operation = jobMax) ∧ findFreeGroup s.multicastGroups ≠ -1 then
      let started := s.jobAddition operation
      some { toServer := started.2, queued := s.queued ++ [(started.1, started.2.jobId)] }
    else none
  | .groupHandler groupId jobId, s =>
    if (groupId, jobId) ∈ s.queued then
      (s.toServer.groupHandler groupId).map fun server =>
        { toServer := server, queued := s.queued.erase (groupId, jobId) }
    else none
  | .result clientSocketFd value jobId, s =>
    if (jobWithId s.jobList jobId).isSome then
      (s.handleResult lib clientSocketFd value jobId).map fun server =>
        { s with toServer := server }
    else none

/-! ### The property -/

/-- The tables agree. A group is busy if and only if its job is listed and not complete;
two busy groups have different jobs; and the group of a job in progress is busy with
it. -/
structure Exclusive (s : Server) : Prop where
  busy_iff : ∀ g, (s.multicastGroups g).groupStatus = .busy ↔
    ∃ job ∈ s.jobList, job.jobId = (s.multicastGroups g).jobId ∧ job.status ≠ .complete
  busy_ne : ∀ g g', g ≠ g' → (s.multicastGroups g).groupStatus = .busy →
    (s.multicastGroups g').groupStatus = .busy →
    (s.multicastGroups g).jobId ≠ (s.multicastGroups g').jobId
  in_progress : ∀ job ∈ s.jobList, job.status = .inProgress →
    (s.multicastGroups job.groupId).groupStatus = .busy ∧
      (s.multicastGroups job.groupId).jobId = job.jobId

/-- The invariant of the runs. -/
structure JobsInv (s : Control) : Prop where
  nodup : (s.jobList.map Job.jobId).Nodup
  counter : 0 ≤ s.jobId
  ids : ∀ j job, jobWithId s.jobList j = some job → 1 ≤ j ∧ j ≤ s.jobId
  ops : ∀ j job, jobWithId s.jobList j = some job →
    job.jobOperation = jobMin ∨ job.jobOperation = jobMax
  group_ids : ∀ g, (s.multicastGroups g).jobId ≤ s.jobId
  busy_iff : ∀ g, (s.multicastGroups g).groupStatus = .busy ↔
    ∃ job, jobWithId s.jobList (s.multicastGroups g).jobId = some job ∧ job.status ≠ .complete
  busy_inj : ∀ g g', (s.multicastGroups g).groupStatus = .busy →
    (s.multicastGroups g').groupStatus = .busy →
    (s.multicastGroups g).jobId = (s.multicastGroups g').jobId → g = g'
  in_progress : ∀ j job, jobWithId s.jobList j = some job → job.status = .inProgress →
    (s.multicastGroups job.groupId).groupStatus = .busy ∧
      (s.multicastGroups job.groupId).jobId = j
  not_started : ∀ j job, jobWithId s.jobList j = some job → job.status = .notStarted →
    job.numberOfClients = 0
  queued : ∀ g j, (g, j) ∈ s.queued → (s.multicastGroups g).jobId = j ∧
    (s.multicastGroups g).head ≠ [] ∧
      ∃ job, jobWithId s.jobList j = some job ∧ job.status = .notStarted
  queued_nodup : (s.queued.map Prod.snd).Nodup

variable {lib : MinMax} {s s' : Control} {job : Job} {g j fd value now : ℤ} {groups : List ℤ}
variable {as : List Action} {operation taken : ℤ}

theorem JobsInv.exclusive (h : JobsInv s) : Exclusive s.toServer := by
  refine ⟨fun g => ?_, fun g g' hne hg hg' heq => hne (h.busy_inj g g' hg hg' heq), ?_⟩
  · rw [h.busy_iff]
    constructor
    · rintro ⟨job, hjob, hstatus⟩
      obtain ⟨hmem, hid⟩ := mem_of_jobWithId hjob
      exact ⟨job, hmem, hid, hstatus⟩
    · rintro ⟨job, hmem, hid, hstatus⟩
      exact ⟨job, hid ▸ jobWithId_of_mem h.nodup hmem, hstatus⟩
  · intro job hmem hstatus
    exact h.in_progress job.jobId job (jobWithId_of_mem h.nodup hmem) hstatus

/-! ### The steps -/

theorem jobsInv_initialControl : JobsInv initialControl := by
  constructor <;> simp [initialControl, initialServer, initializeGroupArray]

/-- A registration adds members, and nothing else that the jobs depend on. -/
theorem JobsInv.register (h : JobsInv s) :
    JobsInv { s with toServer := s.handleGroupIdRegs now fd groups } where
  nodup := h.nodup
  counter := h.counter
  ids := h.ids
  ops := h.ops
  group_ids g := by simpa [Server.handleGroupIdRegs] using h.group_ids g
  busy_iff g := by simpa [Server.handleGroupIdRegs] using h.busy_iff g
  busy_inj g g' := by simpa [Server.handleGroupIdRegs] using h.busy_inj g g'
  in_progress j job := by simpa [Server.handleGroupIdRegs] using h.in_progress j job
  not_started := h.not_started
  queued g j hmem := by
    obtain ⟨hid, hhead, hjob⟩ := h.queued g j hmem
    refine ⟨?_, head_addAClientToGroups_ne_nil hhead, hjob⟩
    simpa [Server.handleGroupIdRegs] using hid
  queued_nodup := h.queued_nodup

/-- A group whose job waits for its handler is busy. -/
theorem JobsInv.busy_of_queued (h : JobsInv s) (hmem : (g, j) ∈ s.queued) :
    (s.multicastGroups g).groupStatus = .busy := by
  obtain ⟨hid, -, job, hjob, hstatus⟩ := h.queued g j hmem
  refine (h.busy_iff g).mpr ⟨job, hid ▸ hjob, ?_⟩
  simp [hstatus]

/-- The jobs of the list have other ids than the next one. -/
theorem JobsInv.next_ne (h : JobsInv s) (hjob : jobWithId s.jobList j = some job) :
    s.jobId + 1 ≠ j := by
  have hid := (h.ids j job hjob).2
  omega

/-- A group that is busy is not the one that a start takes. -/
theorem ne_of_busy (hfree : (s.multicastGroups taken).groupStatus = .free)
    (hbusy : (s.multicastGroups g).groupStatus = .busy) : g ≠ taken := by
  rintro rfl
  rw [hfree] at hbusy
  cases hbusy

theorem JobsInv.nodup_addJob (h : JobsInv s) :
    ((addJob s.jobList (s.jobId + 1) operation).map Job.jobId).Nodup := by
  refine List.nodup_cons.mpr ⟨fun hmem => ?_, h.nodup⟩
  -- a job of the list with the new id would be found
  obtain ⟨job, hjob, hid⟩ := List.mem_map.mp hmem
  have hlisted := jobWithId_of_mem h.nodup hjob
  rw [hid] at hlisted
  exact h.next_ne hlisted rfl

theorem JobsInv.ids_addJob (h : JobsInv s)
    (hjob : jobWithId (addJob s.jobList (s.jobId + 1) operation) j = some job) :
    1 ≤ j ∧ j ≤ s.jobId + 1 := by
  have hcounter := h.counter
  rw [jobWithId_addJob] at hjob
  split at hjob
  next hj => omega
  next hj =>
    have hid := h.ids j job hjob
    omega

theorem JobsInv.ops_addJob (h : JobsInv s) (hop : operation = jobMin ∨ operation = jobMax)
    (hjob : jobWithId (addJob s.jobList (s.jobId + 1) operation) j = some job) :
    job.jobOperation = jobMin ∨ job.jobOperation = jobMax := by
  rw [jobWithId_addJob] at hjob
  split at hjob
  · obtain rfl := Option.some.inj hjob
    exact hop
  · exact h.ops j job hjob

theorem JobsInv.not_started_addJob (h : JobsInv s)
    (hjob : jobWithId (addJob s.jobList (s.jobId + 1) operation) j = some job)
    (hstatus : job.status = .notStarted) : job.numberOfClients = 0 := by
  rw [jobWithId_addJob] at hjob
  split at hjob
  · obtain rfl := Option.some.inj hjob
    rfl
  · exact h.not_started j job hjob hstatus

theorem JobsInv.group_ids_assigned (h : JobsInv s) (taken g : ℤ) :
    (updateGroupWithJobAssigned s.multicastGroups taken (s.jobId + 1) g).jobId ≤ s.jobId + 1 := by
  by_cases hg : g = taken
  · simp [hg]
  · have hid := h.group_ids g
    rw [updateGroupWithJobAssigned_of_ne hg]
    omega

theorem JobsInv.busy_iff_assigned (h : JobsInv s) (taken g : ℤ) :
    (updateGroupWithJobAssigned s.multicastGroups taken (s.jobId + 1) g).groupStatus = .busy ↔
      ∃ job, jobWithId (addJob s.jobList (s.jobId + 1) operation)
          (updateGroupWithJobAssigned s.multicastGroups taken (s.jobId + 1) g).jobId = some job ∧
        job.status ≠ .complete := by
  by_cases hg : g = taken
  · -- the group is busy with the job that was just listed
    simp [hg]
  · -- the new id is above that of any other group
    have hid := h.group_ids g
    simp only [updateGroupWithJobAssigned_of_ne hg, jobWithId_addJob]
    rw [if_neg (by omega)]
    exact h.busy_iff g

theorem JobsInv.busy_inj_assigned (h : JobsInv s) (taken g g' : ℤ) :
    (updateGroupWithJobAssigned s.multicastGroups taken (s.jobId + 1) g).groupStatus = .busy →
    (updateGroupWithJobAssigned s.multicastGroups taken (s.jobId + 1) g').groupStatus = .busy →
    (updateGroupWithJobAssigned s.multicastGroups taken (s.jobId + 1) g).jobId =
      (updateGroupWithJobAssigned s.multicastGroups taken (s.jobId + 1) g').jobId → g = g' := by
  have hid := h.group_ids g
  have hid' := h.group_ids g'
  by_cases hg : g = taken <;> by_cases hg' : g' = taken
  · intros
    rw [hg, hg']
  · -- one of the two has the new id, and the other an older one
    subst hg
    simp only [updateGroupWithJobAssigned_self, updateGroupWithJobAssigned_of_ne hg']
    intros
    omega
  · subst hg'
    simp only [updateGroupWithJobAssigned_self, updateGroupWithJobAssigned_of_ne hg]
    intros
    omega
  · simp only [updateGroupWithJobAssigned_of_ne hg, updateGroupWithJobAssigned_of_ne hg']
    exact h.busy_inj g g'

theorem JobsInv.in_progress_assigned (h : JobsInv s)
    (hfree : (s.multicastGroups taken).groupStatus = .free)
    (hjob : jobWithId (addJob s.jobList (s.jobId + 1) operation) j = some job)
    (hstatus : job.status = .inProgress) :
    (updateGroupWithJobAssigned s.multicastGroups taken (s.jobId + 1) job.groupId).groupStatus =
        .busy ∧
      (updateGroupWithJobAssigned s.multicastGroups taken (s.jobId + 1) job.groupId).jobId = j := by
  rw [jobWithId_addJob] at hjob
  split at hjob
  · -- the new job is not in progress
    obtain rfl := Option.some.inj hjob
    cases hstatus
  · have hgroup := h.in_progress j job hjob hstatus
    rwa [updateGroupWithJobAssigned_of_ne (ne_of_busy hfree hgroup.1)]

theorem JobsInv.queued_assigned (h : JobsInv s)
    (hfree : (s.multicastGroups taken).groupStatus = .free) (hmem : (g, j) ∈ s.queued) :
    (updateGroupWithJobAssigned s.multicastGroups taken (s.jobId + 1) g).jobId = j ∧
      (updateGroupWithJobAssigned s.multicastGroups taken (s.jobId + 1) g).head ≠ [] ∧
        ∃ job, jobWithId (addJob s.jobList (s.jobId + 1) operation) j = some job ∧
          job.status = .notStarted := by
  obtain ⟨hid, hhead, job, hjob, hstatus⟩ := h.queued g j hmem
  rw [updateGroupWithJobAssigned_of_ne (ne_of_busy hfree (h.busy_of_queued hmem)),
    jobWithId_addJob, if_neg (h.next_ne hjob)]
  exact ⟨hid, hhead, job, hjob, hstatus⟩

theorem JobsInv.queued_nodup_concat (h : JobsInv s) (taken : ℤ) :
    ((s.queued ++ [(taken, s.jobId + 1)]).map Prod.snd).Nodup := by
  rw [List.map_append, List.nodup_append]
  refine ⟨h.queued_nodup, by simp, ?_⟩
  rintro j hmem j' hmem' rfl
  obtain ⟨⟨g, j⟩, hqueued, rfl⟩ := List.mem_map.mp hmem
  obtain ⟨-, -, job, hjob, -⟩ := h.queued g j hqueued
  have hnew : j = s.jobId + 1 := by simpa using hmem'
  exact h.next_ne hjob hnew.symm

/-- A start takes a group that was free, for a job with a new id. -/
theorem JobsInv.start (h : JobsInv s) (hop : operation = jobMin ∨ operation = jobMax)
    (hfound : findFreeGroup s.multicastGroups ≠ -1) :
    JobsInv
      { toServer := (s.jobAddition operation).2
        queued := s.queued ++ [((s.jobAddition operation).1,
          (s.jobAddition operation).2.jobId)] } := by
  obtain ⟨hfree, hhead, -, -⟩ := findFreeGroup_spec hfound
  simp only [Server.jobAddition]
  generalize findFreeGroup s.multicastGroups = taken at *
  constructor
  case nodup => exact h.nodup_addJob
  case counter =>
    have hcounter := h.counter
    change 0 ≤ s.jobId + 1
    omega
  case ids => exact fun _ _ => h.ids_addJob
  case ops => exact fun _ _ => h.ops_addJob hop
  case group_ids => exact h.group_ids_assigned taken
  case busy_iff => exact h.busy_iff_assigned taken
  case busy_inj => exact h.busy_inj_assigned taken
  case in_progress => exact fun _ _ => h.in_progress_assigned hfree
  case not_started => exact fun _ _ => h.not_started_addJob
  case queued =>
    intro g j hmem
    rcases List.mem_append.mp hmem with hmem | hmem
    · exact h.queued_assigned hfree hmem
    · -- the handler that the start queues
      obtain ⟨rfl, rfl⟩ := by simpa using hmem
      simp [hhead]
  case queued_nodup => exact h.queued_nodup_concat taken

/-- The handler of a group that waits runs, and its job is in progress then. -/
theorem JobsInv.groupHandler_eq (h : JobsInv s) (hmem : (g, j) ∈ s.queued) :
    ∃ clients numberOfClients, s.toServer.groupHandler g = some { s.toServer with
      clients := clients
      jobList := assignFields (Job.begun g numberOfClients) j s.jobList } := by
  obtain ⟨hid, hhead, job, hjob, -⟩ := h.queued g j hmem
  have hlisted : jobWithId s.jobList (s.multicastGroups g).jobId = some job := by rwa [hid]
  refine ⟨(s.markClients g ((s.multicastGroups g).head.filter (isFreeClient s.clients))).clients,
    ((s.multicastGroups g).head.filter (isFreeClient s.clients)).length, ?_⟩
  rw [Server.groupHandler, Server.freeClients, findFreeClientsInAGroup_of_ne_nil hhead,
    Option.bind_some, Server.recordJob_eq_some (by exact hlisted), Server.markClients, hid]

theorem JobsInv.groupHandler {clients : Clients} {numberOfClients : ℤ} (h : JobsInv s)
    (hmem : (g, j) ∈ s.queued) :
    JobsInv
      { s with
        clients := clients
        jobList := assignFields (Job.begun g numberOfClients) j s.jobList
        queued := s.queued.erase (g, j) } := by
  obtain ⟨hid, hhead, job₀, hjob₀, hstatus₀⟩ := h.queued g j hmem
  have hbusy := h.busy_of_queued hmem
  constructor
  case nodup =>
    change ((assignFields (Job.begun g numberOfClients) j s.jobList).map Job.jobId).Nodup
    rw [map_jobId_begun]
    exact h.nodup
  case counter => exact h.counter
  case ids =>
    intro j' job hjob
    obtain ⟨before, hbefore, -⟩ := exists_of_jobWithId_assignFields hjob (Job.jobId_begun g _)
    exact h.ids j' before hbefore
  case ops =>
    intro j' job hjob
    obtain ⟨before, hbefore, hnow⟩ := exists_of_jobWithId_assignFields hjob (Job.jobId_begun g _)
    rcases hnow with ⟨-, rfl⟩ | ⟨-, rfl⟩
    · exact h.ops j' before hbefore
    · exact h.ops j' _ hbefore
  case group_ids => exact h.group_ids
  case busy_iff =>
    intro g'
    rw [h.busy_iff g', jobWithId_begun]
    -- the job that begins was not complete, and is not complete now
    split
    next hj =>
      have hj' : (s.multicastGroups g').jobId = j := hj
      rw [hj', hjob₀]
      simp [Job.begun, hstatus₀]
    next hj => rfl
  case busy_inj => exact h.busy_inj
  case in_progress =>
    intro j' job hjob hstatus
    obtain ⟨before, hbefore, hnow⟩ := exists_of_jobWithId_assignFields hjob (Job.jobId_begun g _)
    rcases hnow with ⟨rfl, rfl⟩ | ⟨-, rfl⟩
    · exact ⟨hbusy, hid⟩
    · exact h.in_progress j' _ hbefore hstatus
  case not_started =>
    intro j' job hjob hstatus
    obtain ⟨before, hbefore, hnow⟩ := exists_of_jobWithId_assignFields hjob (Job.jobId_begun g _)
    rcases hnow with ⟨-, rfl⟩ | ⟨-, rfl⟩
    · cases hstatus
    · exact h.not_started j' _ hbefore hstatus
  case queued =>
    intro g' j' hmem'
    have hold := List.mem_of_mem_erase hmem'
    obtain ⟨hid', hhead', job, hjob, hstatus⟩ := h.queued g' j' hold
    -- the handler that ran is gone, and no other waits for its job
    have hne : j' ≠ j := by
      rintro rfl
      have heq := List.inj_on_of_nodup_map h.queued_nodup hold hmem rfl
      have hnodup := List.Nodup.of_map _ h.queued_nodup
      rw [heq] at hmem'
      exact hnodup.not_mem_erase hmem'
    refine ⟨hid', hhead', job, ?_, hstatus⟩
    rw [jobWithId_begun, if_neg hne]
    exact hjob
  case queued_nodup => exact (List.erase_sublist.map _).nodup h.queued_nodup

/-- A job whose result file gets as many lines as it has clients was dispatched. -/
theorem JobsInv.status_ne_notStarted (h : JobsInv s) (hjob : jobWithId s.jobList j = some job)
    (hcount : job.numberOfClients = (s.resultFiles j).length + 1) : job.status ≠ .notStarted := by
  intro hstatus
  have hzero := h.not_started j job hjob hstatus
  omega

/-- Only the group of a job that was dispatched works on it. -/
theorem JobsInv.eq_groupId_of_busy (h : JobsInv s) (hjob : jobWithId s.jobList j = some job)
    (hstatus : job.status ≠ .notStarted) (hbusy : (s.multicastGroups g).groupStatus = .busy)
    (hid : (s.multicastGroups g).jobId = j) :
    g = job.groupId ∧ (s.multicastGroups job.groupId).jobId = j := by
  obtain ⟨job', hjob', hcomplete⟩ := (h.busy_iff g).mp hbusy
  rw [hid, hjob] at hjob'
  obtain rfl := Option.some.inj hjob'
  have hprogress : job.status = .inProgress := by
    cases hs : job.status with
    | notStarted => exact absurd hs hstatus
    | inProgress => rfl
    | complete => exact absurd hs hcomplete
  -- the group that the job names is busy with it, and no two groups are
  obtain ⟨hbusy', hid'⟩ := h.in_progress j job hjob hprogress
  exact ⟨h.busy_inj g _ hbusy hbusy' (hid.trans hid'.symm), hid'⟩

/-- The call that frees the group of a job frees the group that is busy with the job. -/
theorem JobsInv.busy_updateGroupStatusToFree_iff (h : JobsInv s)
    (hjob : jobWithId s.jobList j = some job) (hstatus : job.status ≠ .notStarted) (g : ℤ) :
    (updateGroupStatusToFree s.multicastGroups job.groupId j g).groupStatus = .busy ↔
      (s.multicastGroups g).groupStatus = .busy ∧ (s.multicastGroups g).jobId ≠ j := by
  rw [updateGroupStatusToFree_apply]
  split
  next hg =>
    obtain ⟨rfl, hid⟩ := hg
    exact iff_of_false (fun hfree => nomatch hfree) fun hbusy => hbusy.2 hid
  next hg =>
    refine (and_iff_left_of_imp fun hbusy hid => hg ?_).symm
    exact h.eq_groupId_of_busy hjob hstatus hbusy hid

/-- The last result for a job frees the group that works on it. -/
theorem JobsInv.complete {result : ℤ} {clients : Clients} {resultFiles : ℤ → List ℤ}
    (h : JobsInv s) (hjob : jobWithId s.jobList j = some job) (hstatus : job.status ≠ .notStarted) :
    JobsInv
      { s with
        clients := clients
        resultFiles := resultFiles
        multicastGroups := updateGroupStatusToFree s.multicastGroups job.groupId j
        jobList := assignFields (Job.completed result) j s.jobList } := by
  have hbusy := h.busy_updateGroupStatusToFree_iff hjob hstatus
  -- a search for another id finds what it found before
  have hother : ∀ j', j' ≠ j → jobWithId (assignFields (Job.completed result) j s.jobList) j' =
      jobWithId s.jobList j' := fun j' hne => by rw [jobWithId_completed, if_neg hne]
  constructor
  case nodup =>
    change ((assignFields (Job.completed result) j s.jobList).map Job.jobId).Nodup
    rw [map_jobId_completed]
    exact h.nodup
  case counter => exact h.counter
  case ids =>
    intro j' job' hjob'
    obtain ⟨before, hbefore, -⟩ := exists_of_jobWithId_assignFields hjob' (Job.jobId_completed _)
    exact h.ids j' before hbefore
  case ops =>
    intro j' job' hjob'
    obtain ⟨before, hbefore, hnow⟩ := exists_of_jobWithId_assignFields hjob' (Job.jobId_completed _)
    rcases hnow with ⟨-, rfl⟩ | ⟨-, rfl⟩
    · exact h.ops j' before hbefore
    · exact h.ops j' _ hbefore
  case group_ids =>
    intro g
    exact jobId_updateGroupStatusToFree.trans_le (h.group_ids g)
  case busy_iff =>
    intro g
    rw [jobId_updateGroupStatusToFree, hbusy]
    by_cases hj : (s.multicastGroups g).jobId = j
    · -- the group was freed, and its job is complete
      simp only [hj, jobWithId_completed, if_pos, hjob]
      simp [Job.completed]
    · rw [hother _ hj, ← h.busy_iff g]
      exact and_iff_left hj
  case busy_inj =>
    intro g g' hg hg' heq
    rw [jobId_updateGroupStatusToFree, jobId_updateGroupStatusToFree] at heq
    exact h.busy_inj g g' ((hbusy g).mp hg).1 ((hbusy g').mp hg').1 heq
  case in_progress =>
    intro j' job' hjob' hprogress
    obtain ⟨before, hbefore, hnow⟩ := exists_of_jobWithId_assignFields hjob' (Job.jobId_completed _)
    rcases hnow with ⟨-, rfl⟩ | ⟨hj, rfl⟩
    · cases hprogress
    · obtain ⟨hb, hid'⟩ := h.in_progress j' _ hbefore hprogress
      exact ⟨(hbusy _).mpr ⟨hb, hid' ▸ hj⟩, jobId_updateGroupStatusToFree.trans hid'⟩
  case not_started =>
    intro j' job' hjob' hns
    obtain ⟨before, hbefore, hnow⟩ := exists_of_jobWithId_assignFields hjob' (Job.jobId_completed _)
    rcases hnow with ⟨-, rfl⟩ | ⟨-, rfl⟩
    · cases hns
    · exact h.not_started j' _ hbefore hns
  case queued =>
    intro g j' hmem
    obtain ⟨hgid, hhead, job', hjob', hns⟩ := h.queued g j' hmem
    -- the job that is complete was dispatched, so that no handler waits for it
    have hj : j' ≠ j := by
      rintro rfl
      rw [hjob] at hjob'
      exact hstatus (Option.some.inj hjob' ▸ hns)
    refine ⟨jobId_updateGroupStatusToFree.trans hgid, ?_, job', (hother j' hj).trans hjob', hns⟩
    exact ne_of_eq_of_ne head_updateGroupStatusToFree hhead
  case queued_nodup => exact h.queued_nodup

/-- Any other result changes clients and files, which the invariant does not mention. -/
theorem JobsInv.appendResult {clients : Clients} {clientThreadId : ℤ → Option ℕ}
    {resultFiles : ℤ → List ℤ} (h : JobsInv s) :
    JobsInv { s with
      clients := clients
      clientThreadId := clientThreadId
      resultFiles := resultFiles } where
  nodup := h.nodup
  counter := h.counter
  ids := h.ids
  ops := h.ops
  group_ids := h.group_ids
  busy_iff := h.busy_iff
  busy_inj := h.busy_inj
  in_progress := h.in_progress
  not_started := h.not_started
  queued := h.queued
  queued_nodup := h.queued_nodup

/-- `Handle_result` runs to its end for every listed job, and keeps the invariant. -/
theorem JobsInv.exists_handleResult (h : JobsInv s) (hjob : jobWithId s.jobList j = some job) :
    ∃ server, s.handleResult lib fd value j = some server ∧
      JobsInv { s with toServer := server } := by
  -- the operation of a listed job selects a function, so that the call comes to its end
  obtain ⟨minMax, hop⟩ := lib.exists_select (h.ops j job hjob)
  refine ⟨_, Server.handleResult_eq hjob hop, ?_⟩
  by_cases hcount : job.numberOfClients = (s.resultFiles j).length + 1
  · simp only [if_pos hcount]
    exact h.complete hjob (h.status_ne_notStarted hjob hcount)
  · simp only [if_neg hcount]
    exact h.appendResult

/-- Every step keeps the invariant. -/
theorem JobsInv.step {a : Action} (h : JobsInv s) (hstep : step lib a s = some s') :
    JobsInv s' := by
  cases a with
  | register now fd groups =>
    rw [Exclusivity.step] at hstep
    split at hstep
    · obtain rfl := Option.some.inj hstep
      exact h.register
    · cases hstep
  | start operation =>
    rw [Exclusivity.step] at hstep
    split at hstep
    next hguard =>
      obtain rfl := Option.some.inj hstep
      exact h.start hguard.1 hguard.2
    next => cases hstep
  | groupHandler groupId jobId =>
    rw [Exclusivity.step] at hstep
    split at hstep
    next hmem =>
      -- the job is listed, so that the bookkeeping of the handler does not fail
      obtain ⟨clients, numberOfClients, heq⟩ := h.groupHandler_eq hmem
      rw [heq, Option.map_some] at hstep
      obtain rfl := Option.some.inj hstep
      exact h.groupHandler hmem
    next => cases hstep
  | result fd value jobId =>
    rw [Exclusivity.step] at hstep
    split at hstep
    next hlisted =>
      obtain ⟨job, hjob⟩ := Option.isSome_iff_exists.mp hlisted
      obtain ⟨server, heq, hserver⟩ := h.exists_handleResult hjob
      rw [heq, Option.map_some] at hstep
      obtain rfl := Option.some.inj hstep
      exact hserver
    next => cases hstep

theorem jobsInv_of_run (h : run (step lib) as initialControl = some s) : JobsInv s :=
  run_invariant (fun _ _ _ hI hstep => hI.step hstep) h jobsInv_initialControl

/-! ### Late results -/

/-- A result for a complete job leaves the groups of all other jobs as they are. -/
theorem JobsInv.multicastGroups_of_late {a : Action} (h : JobsInv s)
    (ha : a = .result fd value j) (hjob : jobWithId s.jobList j = some job)
    (hcomplete : job.status = .complete) (hstep : Exclusivity.step lib a s = some s') (g : ℤ) :
    (s.multicastGroups g).groupStatus = .busy → s'.multicastGroups g = s.multicastGroups g := by
  intro hbusy
  -- a busy group works on a job that is not complete, so not on this one
  have hne : (s.multicastGroups g).jobId ≠ j := by
    intro hid
    obtain ⟨job', hjob', hopen⟩ := (h.busy_iff g).mp hbusy
    rw [hid, hjob] at hjob'
    exact hopen (Option.some.inj hjob' ▸ hcomplete)
  obtain ⟨minMax, hop⟩ := lib.exists_select (h.ops j job hjob)
  subst ha
  rw [Exclusivity.step, if_pos (by rw [hjob, Option.isSome_some]),
    Server.handleResult_eq hjob hop,
    Option.map_some] at hstep
  obtain rfl := Option.some.inj hstep
  by_cases hcount : job.numberOfClients = (s.resultFiles j).length + 1
  · simp only [if_pos hcount]
    rw [updateGroupStatusToFree_apply, if_neg]
    rintro ⟨rfl, hid⟩
    exact hne hid
  · simp only [if_neg hcount]
    rfl

/-- In every reachable state the tables agree; two jobs in progress have two groups; and a
result for a job that is complete changes no group that is busy. -/
theorem exclusive_of_run (lib : MinMax) (as : List Action) (s : Control)
    (h : run (step lib) as initialControl = some s) :
    Exclusive s.toServer ∧
    (∀ job ∈ s.jobList, ∀ job' ∈ s.jobList, job.status = .inProgress →
      job'.status = .inProgress → job.groupId = job'.groupId → job = job') ∧
    ∀ fd value, ∀ job ∈ s.jobList, job.status = .complete → ∀ s',
      step lib (.result fd value job.jobId) s = some s' →
      ∀ g, (s.multicastGroups g).groupStatus = .busy →
        s'.multicastGroups g = s.multicastGroups g := by
  have hI := jobsInv_of_run h
  refine ⟨hI.exclusive, ?_, ?_⟩
  · intro job hmem job' hmem' hprogress hprogress' hgroup
    have hid := (hI.exclusive.in_progress job hmem hprogress).2
    have hid' := (hI.exclusive.in_progress job' hmem' hprogress').2
    rw [hgroup] at hid
    exact List.inj_on_of_nodup_map hI.nodup hmem hmem' (hid.symm.trans hid')
  · intro fd value job hmem hcomplete s' hstep
    exact hI.multicastGroups_of_late rfl (jobWithId_of_mem hI.nodup hmem) hcomplete hstep

/-- The group of a complete job goes to a second job, and a result for the first comes
late. -/
def lateResult : List Action :=
  [.register 0 5 [3], .start jobMin, .groupHandler 3 1, .result 5 7 1,
    .start jobMax, .groupHandler 3 2, .result 5 8 1]

theorem exclusive_lateResult :
    ∃ s, run (step listMinMax) lateResult initialControl = some s ∧
      (s.multicastGroups 3).groupStatus = .busy ∧ (s.multicastGroups 3).jobId = 2 ∧
      Exclusive s.toServer := by
  have hrun : (run (step listMinMax) lateResult initialControl).map
      (fun s => ((s.multicastGroups 3).groupStatus, (s.multicastGroups 3).jobId)) =
        some (.busy, 2) := by decide +kernel
  obtain ⟨s, hs, hgroup⟩ := Option.map_eq_some_iff.mp hrun
  obtain ⟨hbusy, hid⟩ := Prod.mk.inj hgroup
  exact ⟨s, hs, hbusy, hid, (exclusive_of_run listMinMax lateResult s hs).1⟩

end Multicast.Exclusivity
