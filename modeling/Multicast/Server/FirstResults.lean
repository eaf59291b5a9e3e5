import Multicast.Server.Exclusivity
import Multicast.Server.Membership

/-!
# The first results are the answer

A job gets its number of clients when it is dispatched, and nothing changes that number. Each
result adds a line to the file of the job, whoever sent it, and the result that makes the lines
as many as the clients completes the job: with the minimum or maximum of the lines that are
there. Results that come later only make the file longer.

Nothing else in these runs moves the job. Clients come, are heard, are removed by the timer and
go; jobs are started and dispatched; other results arrive. (What the file messages of a client do
to a result file is the matter of `Multicast.CanWrite`.) If fewer results come than the job has
clients, the job is in progress and its group busy with it for ever, also when the clients are
gone.

## Main definitions

* `Multicast.FirstResults.Action`, `step` — what the threads of the server do
* `withLines` — the record of a job, from the lines of its file
* `valuesFor` — the results for a job in a run

## Main results

* `jobsInv_step` — every step keeps the tables in agreement
* `Found.of_step` — one step, seen from a job
* `found_of_run` — a job in every run
-/

set_option autoImplicit false

namespace Multicast.FirstResults

open StepRun Exclusivity

/-! ### Runs -/

/-- What can happen to groups and jobs, the creation of a reader, the stamp that it leaves, and a
visit of the timer. -/
inductive Action where
  | control (a : Exclusivity.Action)
  | readable (clientCount : ℤ) (thread : ℕ)
  | activity (now clientSd : ℤ)
  | timer (now i : ℤ)

def step (lib : MinMax) : Action → Control → Option Control
  | .control a, s => Exclusivity.step lib a s
  | .readable clientCount thread, s => some { s with toServer := s.storeReader clientCount thread }
  | .activity now clientSd, s =>
    if 0 ≤ clientSd then some { s with toServer := s.recordActivity now clientSd } else none
  | .timer now i, s =>
    if 0 ≤ i ∧ i < Server.totalClients then
      (s.timerRound now i).map fun server => { s with toServer := server }
    else none

/-! ### A job and its lines -/

/-- The record of a job that is in progress before the first lines, when its file has these. -/
def withLines (minMax : List ℤ → ℤ) (job : Job) (lines : List ℤ) : Job :=
  if lines.length < job.numberOfClients then job
  else job.completed (minMax (lines.take job.numberOfClients.toNat))

/-- The line that an action adds to the file of a job. -/
def Action.valueFor (j : ℤ) : Action → Option ℤ
  | .control (.result _ value jobId) => if jobId = j then some value else none
  | .control _ | .readable .. | .activity .. | .timer .. => none

/-- The results for a job, in the order in which they are handled. -/
def valuesFor (j : ℤ) (as : List Action) : List ℤ := as.filterMap (Action.valueFor j)

/-- The file has these lines, and the record of the job is the one for them. -/
structure Found (minMax : List ℤ → ℤ) (j : ℤ) (job : Job) (lines : List ℤ) (s : Control) :
    Prop where
  file : s.resultFiles j = lines
  job : jobWithId s.jobList j = some (withLines minMax job lines)

variable {lib : MinMax} {s s' : Control} {a : Action} {as front : List Action} {job : Job}
variable {j now fd i value : ℤ} {lines : List ℤ} {minMax : List ℤ → ℤ} {clients : Clients}

theorem withLines_of_lt (h : lines.length < job.numberOfClients) :
    withLines minMax job lines = job := if_pos h

/-- The operation and the number of clients are fixed. -/
theorem fields_withLines (minMax : List ℤ → ℤ) (job : Job) (lines : List ℤ) :
    (withLines minMax job lines).jobOperation = job.jobOperation ∧
      (withLines minMax job lines).numberOfClients = job.numberOfClients := by
  rw [withLines]
  split <;> exact ⟨rfl, rfl⟩

/-- Enough lines complete the job. -/
theorem status_withLines_of_le (h : job.numberOfClients ≤ lines.length) :
    (withLines minMax job lines).status = .complete := by
  rw [withLines, if_neg (by omega)]
  rfl

theorem status_withLines_ne (h : job.status = .inProgress) :
    (withLines minMax job lines).status ≠ .notStarted := by
  rw [withLines]
  split
  · rw [h]
    exact JobStatus.noConfusion
  · exact JobStatus.noConfusion

/-- One more line completes the job, or changes nothing. -/
theorem withLines_concat : withLines minMax job (lines ++ [value]) =
    if job.numberOfClients = lines.length + 1 then
      (withLines minMax job lines).completed (minMax (lines ++ [value]))
    else withLines minMax job lines := by
  rw [withLines, List.length_append, List.length_singleton]
  by_cases hlast : job.numberOfClients = lines.length + 1
  · have htake : (lines ++ [value]).take job.numberOfClients.toNat = lines ++ [value] := by
      refine List.take_of_length_le ?_
      rw [List.length_append, List.length_singleton]
      omega
    rw [if_pos hlast, if_neg (by omega), withLines_of_lt (by omega), htake]
  · rw [if_neg hlast, withLines]
    by_cases hfew : lines.length < job.numberOfClients
    · rw [if_pos hfew, if_pos (by omega)]
    · -- the line comes late
      rw [if_neg hfew, if_neg (by omega), List.take_append_of_le_length (by omega)]

/-! ### Steps -/

/-- The invariant mentions neither the clients nor their readers. -/
theorem jobsInv_clients {clientThreadId : ℤ → Option ℕ} (hI : JobsInv s) :
    JobsInv { s with clients := clients, clientThreadId := clientThreadId } :=
  hI.appendResult

/-- The timer changes nothing but the clients. -/
theorem eq_of_timer (h : step lib (.timer now i) s = some s') :
    ∃ clients, s' = { s with clients := clients } := by
  rw [step] at h
  split at h
  next =>
    obtain ⟨server, hserver, rfl⟩ := Option.map_eq_some_iff.mp h
    rcases Server.timerRound_cases hserver with ⟨-, rfl⟩ | ⟨-, -, rfl⟩
    · exact ⟨s.clients, rfl⟩
    · exact ⟨_, rfl⟩
  next => cases h

theorem jobsInv_step (hI : JobsInv s) (hstep : step lib a s = some s') : JobsInv s' := by
  cases a with
  | control a => exact hI.step hstep
  | readable clientCount thread =>
    obtain rfl := Option.some.inj hstep
    exact jobsInv_clients hI
  | activity now fd =>
    obtain ⟨-, rfl⟩ := by simpa [FirstResults.step] using hstep
    exact jobsInv_clients hI
  | timer now i =>
    obtain ⟨clients, rfl⟩ := eq_of_timer hstep
    exact jobsInv_clients hI

/-- Tables and files change for other jobs only. -/
theorem Found.of_same (h : Found minMax j job lines s)
    (hfile : s'.resultFiles j = s.resultFiles j)
    (hjob : jobWithId s'.jobList j = jobWithId s.jobList j) :
    Found minMax j job (lines ++ []) s' := by
  rw [List.append_nil]
  exact ⟨hfile.trans h.file, hjob.trans h.job⟩

/-- A result adds its line, and may complete its job. -/
theorem Found.result {server : Server} {jobId : ℤ} (h : Found minMax j job lines s)
    (hop : lib.select job.jobOperation = some minMax)
    (hresult : s.handleResult lib fd value jobId = some server) :
    Found minMax j job (lines ++ (if jobId = j then some value else none).toList)
      { s with toServer := server } := by
  by_cases hj : jobId = j
  · subst hj
    obtain ⟨hop', hclients⟩ := fields_withLines minMax job lines
    have hfile : (s.appendResult jobId value).resultFiles jobId = lines ++ [value] := by
      simp [Server.appendResult, h.file]
    rw [Server.handleResult_eq h.job (by rw [hop']; exact hop), Option.some.injEq] at hresult
    rw [hclients, h.file] at hresult
    subst hresult
    rw [if_pos rfl, Option.toList_some]
    -- the record changes in the one case in which `withLines` does
    split
    next hlast =>
      refine ⟨hfile, ?_⟩
      rw [withLines_concat, if_pos hlast]
      exact (jobWithId_completed.trans (if_pos rfl)).trans (congrArg _ h.job)
    next hlast =>
      refine ⟨hfile, ?_⟩
      rw [withLines_concat, if_neg hlast]
      exact h.job
  · -- the line is in another file, and the job that may be complete is another one
    obtain ⟨time, -, hcases⟩ := Server.eq_of_handleResult hresult
    rw [if_neg hj, Option.toList_none]
    rcases hcases with ⟨-, rfl⟩ | ⟨-, groupId, finalResult, rfl⟩
    · exact h.of_same (Function.update_of_ne (Ne.symm hj) ..) rfl
    · refine h.of_same (Function.update_of_ne (Ne.symm hj) ..) ?_
      exact jobWithId_completed.trans (if_neg (Ne.symm hj))

/-- One step, seen from a job. -/
theorem Found.of_step (h : Found minMax j job lines s) (hI : JobsInv s)
    (hstatus : job.status = .inProgress) (hop : lib.select job.jobOperation = some minMax)
    (hstep : step lib a s = some s') :
    Found minMax j job (lines ++ (a.valueFor j).toList) s' := by
  cases a with
  | readable clientCount thread =>
    obtain rfl := Option.some.inj hstep
    exact h.of_same rfl rfl
  | activity now fd =>
    obtain ⟨-, rfl⟩ := by simpa [FirstResults.step] using hstep
    exact h.of_same rfl rfl
  | timer now i =>
    obtain ⟨clients, rfl⟩ := eq_of_timer hstep
    exact h.of_same rfl rfl
  | control a =>
    rw [FirstResults.step] at hstep
    cases a with
    | register now fd groups =>
      rw [Exclusivity.step] at hstep
      split at hstep
      · obtain rfl := Option.some.inj hstep
        exact h.of_same rfl rfl
      · cases hstep
    | start operation =>
      rw [Exclusivity.step] at hstep
      split at hstep
      · obtain rfl := Option.some.inj hstep
        -- the job that is started has a new id
        have hnew : s.jobId + 1 ≠ j := by
          have hid := (hI.ids j _ h.job).2
          omega
        exact h.of_same rfl (jobWithId_addJob.trans (if_neg hnew))
      · cases hstep
    | groupHandler groupId jobId =>
      rw [Exclusivity.step] at hstep
      split at hstep
      next hmem =>
        obtain ⟨clients, numberOfClients, heq⟩ := hI.groupHandler_eq hmem
        rw [heq, Option.map_some] at hstep
        obtain rfl := Option.some.inj hstep
        -- the job that is dispatched was not started, and this one was
        have hne : j ≠ jobId := by
          rintro rfl
          obtain ⟨-, -, queued, hqueued, hnot⟩ := hI.queued _ _ hmem
          rw [h.job, Option.some.injEq] at hqueued
          exact status_withLines_ne hstatus (hqueued ▸ hnot)
        exact h.of_same rfl (jobWithId_begun.trans (if_neg hne))
      next => cases hstep
    | result fd value jobId =>
      rw [Exclusivity.step] at hstep
      split at hstep
      next =>
        obtain ⟨server, hresult, rfl⟩ := Option.map_eq_some_iff.mp hstep
        exact h.result hop hresult
      next => cases hstep

/-! ### Runs -/

theorem valuesFor_cons : valuesFor j (a :: as) = (a.valueFor j).toList ++ valuesFor j as := by
  rw [valuesFor, valuesFor, List.filterMap_cons]
  cases a.valueFor j <;> rfl

theorem Found.of_run (h : Found minMax j job lines s) (hI : JobsInv s)
    (hstatus : job.status = .inProgress) (hop : lib.select job.jobOperation = some minMax)
    (hrun : run (step lib) as s = some s') :
    Found minMax j job (lines ++ valuesFor j as) s' := by
  induction as generalizing s lines with
  | nil =>
    obtain rfl := Option.some.inj hrun
    rw [valuesFor, List.filterMap_nil, List.append_nil]
    exact h
  | cons a as ih =>
    obtain ⟨s₁, hstep, hrest⟩ := run_cons_eq_some.mp hrun
    rw [valuesFor_cons, ← List.append_assoc]
    exact ih (h.of_step hI hstatus hop hstep) (jobsInv_step hI hstep) hrest

theorem jobsInv_run (hI : JobsInv s) (h : run (step lib) as s = some s') : JobsInv s' :=
  run_invariant (fun _ _ _ hI hstep => jobsInv_step hI hstep) h hI

theorem jobsInv_of_run (h : run (step lib) front initialControl = some s) : JobsInv s :=
  jobsInv_run jobsInv_initialControl h

/-- A job that waits for lines is found with those that are there. -/
theorem exists_found (lib : MinMax) (hI : JobsInv s) (hjob : jobWithId s.jobList j = some job)
    (hfew : (s.resultFiles j).length < job.numberOfClients) :
    ∃ minMax, lib.select job.jobOperation = some minMax ∧
      Found minMax j job (s.resultFiles j) s := by
  obtain ⟨minMax, hop⟩ := lib.exists_select (hI.ops j job hjob)
  exact ⟨minMax, hop, rfl, hjob.trans (congrArg some (withLines_of_lt hfew).symm)⟩

/-- As long as lines are missing, the group of the job is busy with it. -/
theorem Found.busy (h : Found minMax j job lines s) (hI : JobsInv s)
    (hstatus : job.status = .inProgress) (hwaits : lines.length < job.numberOfClients) :
    (s.multicastGroups job.groupId).groupStatus = .busy ∧
      (s.multicastGroups job.groupId).jobId = j := by
  have hrecord := h.job
  rw [withLines_of_lt hwaits] at hrecord
  exact hI.in_progress j job hrecord hstatus

/-- A job that is in progress all the time has its group for itself. -/
theorem busy_of_inProgress {job' : Job} (hI : JobsInv s)
    (hjob : jobWithId s.jobList j = some job) (hstatus : job.status = .inProgress)
    (hfew : (s.resultFiles j).length < job.numberOfClients)
    (hrun : run (step lib) as s = some s') (hjob' : jobWithId s'.jobList j = some job')
    (hstatus' : job'.status = .inProgress) :
    (s'.multicastGroups job.groupId).groupStatus = .busy ∧
      (s'.multicastGroups job.groupId).jobId = j := by
  obtain ⟨minMax, hop, hfound⟩ := exists_found lib hI hjob hfew
  have hlast := hfound.of_run hI hstatus hop hrun
  refine hlast.busy (jobsInv_run hI hrun) hstatus ?_
  by_contra hall
  have hcomplete : (withLines minMax job (s.resultFiles j ++ valuesFor j as)).status = .complete :=
    status_withLines_of_le (not_lt.mp hall)
  rw [Option.some.inj (hjob'.symm.trans hlast.job), hcomplete] at hstatus'
  cases hstatus'

/-- Whatever happens after a job was dispatched, its record and its file are those for the
results that came; as long as these are fewer than its clients, its group is busy with it, and from
then on no group is. -/
theorem found_of_run (hfront : run (step lib) front initialControl = some s)
    (hjob : jobWithId s.jobList j = some job) (hstatus : job.status = .inProgress)
    (hfew : (s.resultFiles j).length < job.numberOfClients)
    (hrun : run (step lib) as s = some s') :
    ∃ minMax, lib.select job.jobOperation = some minMax ∧
      Found minMax j job (s.resultFiles j ++ valuesFor j as) s' ∧
      ((s'.resultFiles j).length < job.numberOfClients →
        (s'.multicastGroups job.groupId).groupStatus = .busy ∧
          (s'.multicastGroups job.groupId).jobId = j) ∧
      (job.numberOfClients ≤ (s'.resultFiles j).length →
        ∀ g, ¬ ((s'.multicastGroups g).groupStatus = .busy ∧
          (s'.multicastGroups g).jobId = j)) := by
  have hI := FirstResults.jobsInv_of_run hfront
  obtain ⟨minMax, hop, hfound⟩ := exists_found lib hI hjob hfew
  have hlast := hfound.of_run hI hstatus hop hrun
  have hI' := jobsInv_run hI hrun
  refine ⟨minMax, hop, hlast, fun hwaits => ?_, fun hall => ?_⟩
  · exact hlast.busy hI' hstatus (hlast.file ▸ hwaits)
  · -- a busy group has a job that is not complete
    rintro g ⟨hbusy, rfl⟩
    obtain ⟨found, hfound, hopen⟩ := (hI'.busy_iff g).mp hbusy
    rw [hlast.job] at hfound
    obtain rfl := Option.some.inj hfound
    exact hopen (status_withLines_of_le (hlast.file ▸ hall))

/-- Two clients get a job. -/
def dispatched : List Action :=
  [.control (.register 0 5 [3]), .control (.register 0 6 [3]), .control (.start jobMin),
    .control (.groupHandler 3 1)]

/-- One of them answers, and the timer removes the other. A reader was created while six clients
were accepted. -/
def silent : List Action :=
  [.control (.result 5 7 1), .activity 100 5, .readable 6 0, .timer 200 6]

theorem found_of_run_silent :
    ∃ s s', run (step listMinMax) dispatched initialControl = some s ∧
      run (step listMinMax) silent s = some s' ∧ (s'.clients 6).clientSocketFd = -1 ∧
      jobWithId s'.jobList 1 = some ⟨1, jobMin, 3, 2, .inProgress, -1⟩ ∧
      (s'.multicastGroups 3).groupStatus = .busy ∧ (s'.multicastGroups 3).jobId = 1 := by
  have hfront : (run (step listMinMax) dispatched initialControl).map
      (fun s => (jobWithId s.jobList 1, s.resultFiles 1)) =
        some (some ⟨1, jobMin, 3, 2, .inProgress, -1⟩, []) := by decide +kernel
  have hboth : (run (step listMinMax) (dispatched ++ silent) initialControl).map
      (fun s => ((s.clients 6).clientSocketFd, s.resultFiles 1)) = some (-1, [7]) := by
    decide +kernel
  -- the state between the two parts is the one in which the job was dispatched
  obtain ⟨s, hs, heq⟩ := Option.map_eq_some_iff.mp hfront
  obtain ⟨hjob, hfile⟩ := Prod.mk.inj heq
  rw [run_append, hs, Option.bind_some] at hboth
  obtain ⟨s', hs', heq'⟩ := Option.map_eq_some_iff.mp hboth
  obtain ⟨hremoved, hfile'⟩ := Prod.mk.inj heq'
  have hfew : (s.resultFiles 1).length < (2 : ℤ) := by
    rw [hfile]
    decide
  obtain ⟨minMax, -, hfound, hbusy, -⟩ := found_of_run hs hjob rfl hfew hs'
  have hlines : s.resultFiles 1 ++ valuesFor 1 silent = [7] := by
    rw [hfile]
    rfl
  rw [hlines] at hfound
  have hwaits : (s'.resultFiles 1).length < (2 : ℤ) := by
    rw [hfile']
    decide
  exact ⟨s, s', hs, hs', hremoved, hfound.job, hbusy hwaits⟩

end Multicast.FirstResults
