import Mathlib.Data.List.Perm.Basic
import Multicast.Lib.Threads
import Multicast.Server.Exclusivity

/-!
# The results of a job

Every result is handled on a thread of its own, and the threads take no locks. Each call
that `Handle_result` makes is one step here. Between the steps of one thread any other
thread can step: threads that handle results for the same job or for others, the shell as
it starts jobs, and the group handlers of other jobs.

A thread counts the lines of the result file after it appended its own, so that the one
that counts last sees them all, and one that sees them all counts after the last append.
Several threads may see them all; each then sets the result, and they set the same one.

## Main definitions

* `Multicast.Completion.ResultHandler`, `Pc` — a thread, and where it is
* `Action`, `step` — the steps of all threads
* `Awaiting` — a job in progress, and the threads that will handle its results
* `Inv` — the invariant

## Main results

* `Inv.step` — every step keeps the invariant
* `Inv.exists_step` — a thread of the job that is not finished can step
* `completed_of_run` — no lost and no premature completion
* `awaiting_of_jobsInv` — jobs of reachable states that were just dispatched
-/

set_option autoImplicit false

namespace Multicast.Completion

open StepRun

/-! ### Threads -/

/-- The call that a thread in `Handle_result` makes next, with what it has read so far. -/
inductive Pc where
  | append
  | freeClient
  | count
  | decide (numberOfResults : ℤ)
  | getGroup
  | freeGroup (groupId : ℤ)
  | evaluate
  | complete (result : ℤ)
  | finished
deriving DecidableEq

/-- A thread in `Handle_result`. -/
structure ResultHandler where
  clientSocketFd : ℤ
  result : ℤ
  jobId : ℤ
  pc : Pc
deriving DecidableEq

/-- The next call of a thread: the state after it, and where the thread is then. -/
def ResultHandler.next (lib : MinMax) (t : ResultHandler) (s : Server) : Option (Server × Pc) :=
  match t.pc with
  | .append => some (s.appendResult t.jobId t.result, .freeClient)
  | .freeClient => some (s.freeClient t.clientSocketFd t.jobId, .count)
  | .count => some (s, .decide (s.countResults t.jobId))
  | .decide numberOfResults =>
    (timeToComputeFinalResult s.jobList t.jobId numberOfResults).map fun time =>
      (s, if time then .getGroup else .finished)
  | .getGroup => (getGroupIdFromJob s.jobList t.jobId).map fun groupId => (s, .freeGroup groupId)
  | .freeGroup groupId => some (s.freeGroup groupId t.jobId, .evaluate)
  | .evaluate => (s.evaluate lib t.jobId).map fun result => (s, .complete result)
  | .complete result => (s.completeJob t.jobId result).map fun s => (s, .finished)
  | .finished => none

/-- The calls, one by one, with the answers that they get. -/
inductive Next (lib : MinMax) (t : ResultHandler) (s : Server) : Server → Pc → Prop where
  | append (hpc : t.pc = .append) : Next lib t s (s.appendResult t.jobId t.result) .freeClient
  | freeClient (hpc : t.pc = .freeClient) :
    Next lib t s (s.freeClient t.clientSocketFd t.jobId) .count
  | count (hpc : t.pc = .count) : Next lib t s s (.decide (s.countResults t.jobId))
  | decide (numberOfResults : ℤ) (time : Bool) (hpc : t.pc = .decide numberOfResults)
    (htime : timeToComputeFinalResult s.jobList t.jobId numberOfResults = some time) :
    Next lib t s s (if time then .getGroup else .finished)
  | getGroup (groupId : ℤ) (hpc : t.pc = .getGroup)
    (hgroup : getGroupIdFromJob s.jobList t.jobId = some groupId) :
    Next lib t s s (.freeGroup groupId)
  | freeGroup (groupId : ℤ) (hpc : t.pc = .freeGroup groupId) :
    Next lib t s (s.freeGroup groupId t.jobId) .evaluate
  | evaluate (result : ℤ) (hpc : t.pc = .evaluate)
    (hresult : s.evaluate lib t.jobId = some result) : Next lib t s s (.complete result)
  | complete (result : ℤ) (hpc : t.pc = .complete result) :
    Next lib t s
      { s with jobList := assignFields (Job.completed result) t.jobId s.jobList } .finished

/-- What a call can do. -/
theorem next_cases {lib : MinMax} {t : ResultHandler} {s server : Server} {pc : Pc}
    (h : t.next lib s = some (server, pc)) : Next lib t s server pc := by
  rw [ResultHandler.next] at h
  cases hpc : t.pc with
  | append =>
    obtain ⟨rfl, rfl⟩ := by simpa [hpc] using h
    exact .append hpc
  | freeClient =>
    obtain ⟨rfl, rfl⟩ := by simpa [hpc] using h
    exact .freeClient hpc
  | count =>
    obtain ⟨rfl, rfl⟩ := by simpa [hpc] using h
    exact .count hpc
  | decide numberOfResults =>
    simp only [hpc, Option.map_eq_some_iff, Prod.mk.injEq] at h
    obtain ⟨time, htime, rfl, rfl⟩ := h
    exact .decide numberOfResults time hpc htime
  | getGroup =>
    simp only [hpc, Option.map_eq_some_iff, Prod.mk.injEq] at h
    obtain ⟨groupId, hgroup, rfl, rfl⟩ := h
    exact .getGroup groupId hpc hgroup
  | freeGroup groupId =>
    obtain ⟨rfl, rfl⟩ := by simpa [hpc] using h
    exact .freeGroup groupId hpc
  | evaluate =>
    simp only [hpc, Option.map_eq_some_iff, Prod.mk.injEq] at h
    obtain ⟨result, hresult, rfl, rfl⟩ := h
    exact .evaluate result hpc hresult
  | complete result =>
    simp only [hpc, Option.map_eq_some_iff, Prod.mk.injEq] at h
    obtain ⟨server, hserver, rfl, rfl⟩ := h
    -- the call that completes the job changes the list of the jobs only
    rw [Server.eq_of_completeJob hserver]
    exact .complete result hpc
  | finished =>
    rw [hpc] at h
    cases h

/-- A thread that runs alone does what `Handle_result` does. -/
theorem exists_run_of_handleResult {lib : MinMax} {s server : Server} {t : ResultHandler}
    (h : s.handleResult lib t.clientSocketFd t.result t.jobId = some server) :
    ∃ calls, run (fun (_ : Unit) out => ResultHandler.next lib { t with pc := out.2 } out.1)
      calls (s, .append) = some (server, .finished) := by
  obtain ⟨time, htime, hrest⟩ := Option.bind_eq_some_iff.mp h
  cases time with
  | false =>
    obtain rfl := Option.some.inj hrest
    refine ⟨[(), (), (), ()], ?_⟩
    simp [run, ResultHandler.next, htime]
  | true =>
    obtain ⟨groupId, hgroup, hfinish⟩ := Option.bind_eq_some_iff.mp hrest
    obtain ⟨result, hresult, hcomplete⟩ := Option.bind_eq_some_iff.mp hfinish
    refine ⟨[(), (), (), (), (), (), (), ()], ?_⟩
    simp [run, ResultHandler.next, htime, hgroup, hresult, hcomplete]

/-- Where the shell is in `job_addition`. -/
inductive Shell where
  | idle
  | found (groupId operation : ℤ)
  | added (groupId : ℤ)
deriving DecidableEq

/-- The server, the threads in `Handle_result`, and the shell. -/
structure Threads extends Server where
  handlers : List ResultHandler
  shell : Shell

/-- What can happen. -/
inductive Action where
  | handler (k : ℕ)
  | arrive (clientSocketFd result jobId : ℤ)
  | findGroup (operation : ℤ)
  | addJob
  | assignGroup
  | mark (mgId : ℤ) (arrClients : List ℤ)
  | record (mgId : ℤ) (arrClients : List ℤ)

/-- A job of the list other than `j`. -/
def Other (j : ℤ) (s : Server) (jobId : ℤ) : Prop :=
  jobId ≠ j ∧ (jobWithId s.jobList jobId).isSome

instance (j : ℤ) (s : Server) (jobId : ℤ) : Decidable (Other j s jobId) :=
  inferInstanceAs (Decidable (_ ∧ _))

/-- One step. The results of the job `j` have arrived; results for other jobs of the list
may arrive at any time, group handlers of other jobs run, and the shell starts jobs. -/
def step (lib : MinMax) (j : ℤ) : Action → Threads → Option Threads
  | .handler k, s =>
    s.handlers[k]?.bind fun t => (t.next lib s.toServer).map fun out =>
      { s with toServer := out.1, handlers := s.handlers.set k { t with pc := out.2 } }
  | .arrive clientSocketFd result jobId, s =>
    if Other j s.toServer jobId then
      some { s with handlers := s.handlers ++ [⟨clientSocketFd, result, jobId, .append⟩] }
    else none
  | .findGroup operation, s =>
    if s.shell = .idle ∧ findFreeGroup s.multicastGroups ≠ -1 then
      some { s with shell := .found (findFreeGroup s.multicastGroups) operation }
    else none
  | .addJob, s =>
    match s.shell with
    | .found groupId operation => some
      { s with
        jobId := s.jobId + 1
        jobList := Multicast.addJob s.jobList (s.jobId + 1) operation
        shell := .added groupId }
    | _ => none
  | .assignGroup, s =>
    match s.shell with
    | .added groupId => some
      { s with
        multicastGroups := updateGroupWithJobAssigned s.multicastGroups groupId s.jobId
        shell := .idle }
    | _ => none
  | .mark mgId arrClients, s =>
    if Other j s.toServer (s.multicastGroups mgId).jobId then
      some { s with toServer := s.markClients mgId arrClients }
    else none
  | .record mgId arrClients, s =>
    if Other j s.toServer (s.multicastGroups mgId).jobId then
      (s.recordJob mgId arrClients).map fun server => { s with toServer := server }
    else none

/-! ### The property -/

/-- The result that an operation has for some numbers. -/
def IsResult (operation : ℤ) (numbers : List ℤ) (result : ℤ) : Prop :=
  (operation = jobMin → numbers.minimum = result) ∧
    (operation = jobMax → numbers.maximum = result)

/-- The threads that handle results for `j`. -/
def handlersOf (j : ℤ) (handlers : List ResultHandler) : List ResultHandler :=
  handlers.filter fun t => t.jobId = j

/-- A job is in progress, its result file empty, and for each of its clients a thread is
about to handle a result. Its id is not above the counter of the ids. -/
structure Awaiting (j operation : ℤ) (results : List ℤ) (s : Threads) : Prop where
  job : ∃ job, jobWithId s.jobList j = some job ∧ job.status = .inProgress ∧
    job.numberOfClients = results.length ∧ job.jobOperation = operation
  operation : operation = jobMin ∨ operation = jobMax
  file : s.resultFiles j = []
  results_ne_nil : results ≠ []
  handled : (handlersOf j s.handlers).map ResultHandler.result = results
  pcs : ∀ t ∈ handlersOf j s.handlers, t.pc = .append
  counter : j ≤ s.jobId

/-! ### The invariant -/

/-- The thread has appended its line. -/
def ResultHandler.appended (t : ResultHandler) : Bool := t.pc ≠ .append

/-- What a thread of the job knows. It counted at most the lines that are there; and when
it is past the test all lines are there, and the result that it read is the right one. -/
def Pc.Ok (operation : ℤ) (results file : List ℤ) : Pc → Prop
  | .decide numberOfResults => numberOfResults ≤ file.length
  | .getGroup | .freeGroup _ | .evaluate => file.length = results.length
  | .complete result => file.length = results.length ∧ IsResult operation results result
  | .append | .freeClient | .count | .finished => True

/-- The thread is going to complete the job, if no other thread appends before it counts. -/
def Pc.Completes (results : List ℤ) : Pc → Prop
  | .decide numberOfResults => numberOfResults = results.length
  | .finished => False
  | .append | .freeClient | .count | .getGroup | .freeGroup _ | .evaluate | .complete _ => True

/-- The job is complete, with all its lines and the right result. -/
structure Completed (operation : ℤ) (results file : List ℤ) (job : Job) : Prop where
  status : job.status = .complete
  file : file.length = results.length
  result : IsResult operation results job.result

/-- The invariant. The result file has the results of the threads that appended, and as
long as the job is not complete there is a thread that is going to complete it. -/
structure Inv (j operation : ℤ) (results : List ℤ) (s : Threads) : Prop where
  job : ∃ job, jobWithId s.jobList j = some job ∧
    job.numberOfClients = results.length ∧ job.jobOperation = operation ∧
    (Completed operation results (s.resultFiles j) job ∨
      job.status = .inProgress ∧ ∃ t ∈ handlersOf j s.handlers, t.pc.Completes results)
  handled : (handlersOf j s.handlers).map ResultHandler.result = results
  file : (s.resultFiles j).Perm
    (((handlersOf j s.handlers).filter ResultHandler.appended).map ResultHandler.result)
  pcs : ∀ t ∈ handlersOf j s.handlers, t.pc.Ok operation results (s.resultFiles j)
  counter : j ≤ s.jobId

variable {lib : MinMax} {j operation : ℤ} {results : List ℤ} {s s' : Threads}
variable {t : ResultHandler} {front back : List ResultHandler} {pc : Pc}

theorem Awaiting.inv (h : Awaiting j operation results s) : Inv j operation results s where
  job := by
    obtain ⟨job, hjob, hstatus, hclients, hoperation⟩ := h.job
    refine ⟨job, hjob, hclients, hoperation, .inr ⟨hstatus, ?_⟩⟩
    -- there is a first thread, and it has not appended
    have hne : handlersOf j s.handlers ≠ [] := by
      intro hnil
      have hresults := h.handled
      rw [hnil] at hresults
      exact h.results_ne_nil hresults.symm
    obtain ⟨t, ht⟩ := List.exists_mem_of_ne_nil _ hne
    refine ⟨t, ht, ?_⟩
    rw [h.pcs t ht]
    trivial
  handled := h.handled
  file := by
    have hnone : (handlersOf j s.handlers).filter ResultHandler.appended = [] := by
      apply List.filter_eq_nil_iff.mpr
      intro t ht
      simp [ResultHandler.appended, h.pcs t ht]
    rw [hnone, h.file]
    exact .nil
  pcs t ht := by
    rw [h.pcs t ht]
    trivial
  counter := h.counter

/-- A job of a reachable state that was just dispatched awaits its results. -/
theorem awaiting_of_jobsInv {c : Exclusivity.Control} {job : Job} {handlers : List ResultHandler}
    (h : Exclusivity.JobsInv c) (hjob : jobWithId c.jobList j = some job)
    (hstatus : job.status = .inProgress) (hclients : job.numberOfClients = handlers.length)
    (hne : handlers ≠ []) (hfile : c.resultFiles j = [])
    (hhandlers : ∀ t ∈ handlers, t.jobId = j ∧ t.pc = .append) :
    Awaiting j job.jobOperation (handlers.map ResultHandler.result)
      { toServer := c.toServer, handlers := handlers, shell := .idle } := by
  have hall : handlersOf j handlers = handlers :=
    List.filter_eq_self.mpr fun t ht => by simpa using (hhandlers t ht).1
  constructor
  case job => exact ⟨job, hjob, hstatus, by simpa using hclients, rfl⟩
  case operation => exact h.ops j job hjob
  case file => exact hfile
  case results_ne_nil => simpa using hne
  case handled => exact congrArg _ hall
  case pcs =>
    intro t ht
    exact (hhandlers t (hall ▸ ht)).2
  case counter => exact (h.ids j job hjob).2

/-- The file has at most as many lines as there are results. -/
theorem Inv.length_file_le (h : Inv j operation results s) :
    (s.resultFiles j).length ≤ results.length := by
  calc (s.resultFiles j).length
      = ((handlersOf j s.handlers).filter ResultHandler.appended).length := by
        rw [h.file.length_eq, List.length_map]
    _ ≤ (handlersOf j s.handlers).length := List.length_filter_le _ _
    _ = results.length := by rw [← h.handled, List.length_map]

/-- All lines are there exactly if every thread has appended. -/
theorem Inv.length_file_eq_iff (h : Inv j operation results s) :
    (s.resultFiles j).length = results.length ↔
      ∀ t ∈ handlersOf j s.handlers, t.pc ≠ .append := by
  rw [h.file.length_eq, List.length_map, ← h.handled, List.length_map,
    List.length_filter_eq_length_iff]
  simp [ResultHandler.appended]

/-- When all lines are there, the file has the results, in some order. -/
theorem Inv.file_perm (h : Inv j operation results s)
    (hall : (s.resultFiles j).length = results.length) : (s.resultFiles j).Perm results := by
  have happended : (handlersOf j s.handlers).filter ResultHandler.appended =
      handlersOf j s.handlers := by
    apply List.filter_eq_self.mpr
    intro t ht
    simpa [ResultHandler.appended] using h.length_file_eq_iff.mp hall t ht
  have hfile := h.file
  rwa [happended, h.handled] at hfile

/-- What the library computes from a complete file. -/
theorem isResult_of_perm {numbers : List ℤ} {minMax : List ℤ → ℤ} (hlib : lib.Correct)
    (hselect : lib.select operation = some minMax) (hperm : numbers.Perm results)
    (hne : results ≠ []) : IsResult operation results (minMax numbers) := by
  have hnumbers : numbers ≠ [] := fun hnil => hne (List.nil_perm.mp (hnil ▸ hperm))
  constructor
  · rintro rfl
    obtain rfl := Option.some.inj hselect
    rw [← hperm.minimum_eq]
    exact hlib.minimum numbers hnumbers
  · rintro rfl
    obtain rfl := Option.some.inj hselect
    rw [← hperm.maximum_eq]
    exact hlib.maximum numbers hnumbers

/-! ### Steps that the job does not notice -/

theorem Inv.of_same (h : Inv j operation results s)
    (hjob : jobWithId s'.jobList j = jobWithId s.jobList j)
    (hfile : s'.resultFiles j = s.resultFiles j)
    (hhandlers : handlersOf j s'.handlers = handlersOf j s.handlers)
    (hcounter : s.jobId ≤ s'.jobId) : Inv j operation results s' where
  job := by
    rw [hjob, hfile, hhandlers]
    exact h.job
  handled := by
    rw [hhandlers]
    exact h.handled
  file := by
    rw [hfile, hhandlers]
    exact h.file
  pcs := by
    rw [hfile, hhandlers]
    exact h.pcs
  counter := h.counter.trans hcounter

/-- A call for another job leaves the job and its file alone. -/
theorem Next.of_ne {server : Server} (h : Next lib t s.toServer server pc) (hne : t.jobId ≠ j) :
    jobWithId server.jobList j = jobWithId s.jobList j ∧
      server.resultFiles j = s.resultFiles j ∧ server.jobId = s.jobId := by
  cases h with
  | append => exact ⟨rfl, Function.update_of_ne (Ne.symm hne) .., rfl⟩
  | complete => exact ⟨jobWithId_completed.trans (if_neg (Ne.symm hne)), rfl, rfl⟩
  | _ => exact ⟨rfl, rfl, rfl⟩

/-! ### Steps of the threads of the job -/

/-- A thread of the job that neither appends nor completes keeps the invariant, if what it
knows then is right, and if it or another thread is going to complete the job. -/
theorem Inv.moved (h : Inv j operation results s)
    (hsame : s'.jobList = s.jobList ∧ s'.resultFiles = s.resultFiles ∧ s'.jobId = s.jobId)
    (hsplit : handlersOf j s.handlers = front ++ t :: back)
    (hsplit' : handlersOf j s'.handlers = front ++ { t with pc := pc } :: back)
    (happended : t.pc ≠ .append) (happended' : pc ≠ .append)
    (hok : pc.Ok operation results (s.resultFiles j))
    (hcompletes : t.pc.Completes results →
      ∃ u ∈ handlersOf j s'.handlers, u.pc.Completes results) :
    Inv j operation results s' where
  job := by
    rw [hsame.1, hsame.2.1]
    obtain ⟨job, hjob, hclients, hoperation, hdone | ⟨hstatus, u, hu, hcomp⟩⟩ := h.job
    · exact ⟨job, hjob, hclients, hoperation, .inl hdone⟩
    · refine ⟨job, hjob, hclients, hoperation, .inr ⟨hstatus, ?_⟩⟩
      -- the thread that is going to complete the job may be the one that moved
      rw [hsplit, List.mem_append, List.mem_cons] at hu
      rcases hu with hu | rfl | hu
      · exact ⟨u, hsplit' ▸ List.mem_append_left _ hu, hcomp⟩
      · exact hcompletes hcomp
      · exact ⟨u, hsplit' ▸ List.mem_append_right _ (List.mem_cons_of_mem _ hu), hcomp⟩
  handled := by
    rw [← h.handled, hsplit, hsplit']
    simp
  file := by
    have hfile := h.file
    rw [hsplit] at hfile
    rw [hsame.2.1, hsplit']
    simpa [List.filter_append, List.filter_cons, ResultHandler.appended, happended,
      happended'] using hfile
  pcs := by
    intro u hu
    rw [hsame.2.1]
    rw [hsplit', List.mem_append, List.mem_cons] at hu
    rcases hu with hu | rfl | hu
    · exact h.pcs u (hsplit ▸ List.mem_append_left _ hu)
    · exact hok
    · exact h.pcs u (hsplit ▸ List.mem_append_right _ (List.mem_cons_of_mem _ hu))
  counter := hsame.2.2 ▸ h.counter

/-- A thread that counted lines counted some that are still there; and a thread that is past
the test has seen all the lines, so that there is none while one is missing. -/
theorem Pc.Ok.append {file : List ℤ} {value : ℤ} (hok : pc.Ok operation results file)
    (hless : file.length ≠ results.length) : pc.Ok operation results (file ++ [value]) := by
  cases pc with
  | decide numberOfResults =>
    have hle : numberOfResults ≤ file.length := hok
    rw [Pc.Ok, List.length_append]
    push_cast
    omega
  | getGroup | freeGroup groupId | evaluate => exact absurd hok hless
  | complete result => exact absurd hok.1 hless
  | _ => trivial

/-- A thread of the job appends its line. Not all lines were there, so that no thread is
past the test. -/
theorem Inv.append (h : Inv j operation results s)
    (hjobs : s'.jobList = s.jobList)
    (hfile : s'.resultFiles j = s.resultFiles j ++ [t.result])
    (hcounter : s'.jobId = s.jobId)
    (hsplit : handlersOf j s.handlers = front ++ t :: back)
    (hsplit' : handlersOf j s'.handlers = front ++ { t with pc := .freeClient } :: back)
    (happend : t.pc = .append) : Inv j operation results s' := by
  have hless : (s.resultFiles j).length ≠ results.length := by
    intro hall
    refine h.length_file_eq_iff.mp hall t ?_ happend
    rw [hsplit]
    exact List.mem_append_right _ List.mem_cons_self
  -- what the other threads know stays right
  have hpcs : ∀ u ∈ handlersOf j s.handlers, u.pc.Ok operation results (s'.resultFiles j) := by
    intro u hu
    rw [hfile]
    exact (h.pcs u hu).append hless
  constructor
  case job =>
    obtain ⟨job, hjob, hclients, hoperation, hdone | ⟨hstatus, -⟩⟩ := h.job
    · exact absurd hdone.file hless
    · -- this thread has yet to count, and will see its own line
      refine ⟨job, hjobs ▸ hjob, hclients, hoperation, .inr ⟨hstatus,
        { t with pc := .freeClient }, ?_, ?_⟩⟩
      · rw [hsplit']
        exact List.mem_append_right _ List.mem_cons_self
      · exact trivial
  case handled =>
    rw [← h.handled, hsplit, hsplit']
    simp
  case file =>
    have hold := h.file
    rw [hsplit] at hold
    rw [hfile, hsplit']
    -- the lines so far are those of the other threads
    have hold' : (s.resultFiles j).Perm
        (((front.filter ResultHandler.appended) ++ (back.filter ResultHandler.appended)).map
          ResultHandler.result) := by
      simpa [List.filter_append, List.filter_cons, ResultHandler.appended, happend] using hold
    refine (List.perm_append_singleton ..).trans ((hold'.cons _).trans ?_)
    simp [List.filter_append, ResultHandler.appended, List.perm_middle.symm]
  case pcs =>
    intro u hu
    rw [hsplit', List.mem_append, List.mem_cons] at hu
    rcases hu with hu | rfl | hu
    · exact hpcs u (hsplit ▸ List.mem_append_left _ hu)
    · trivial
    · exact hpcs u (hsplit ▸ List.mem_append_right _ (List.mem_cons_of_mem _ hu))
  case counter => exact hcounter ▸ h.counter

/-- A thread of the job completes it. -/
theorem Inv.complete {result : ℤ} (h : Inv j operation results s)
    (hjobs : s'.jobList = assignFields (Job.completed result) j s.jobList)
    (hfiles : s'.resultFiles = s.resultFiles) (hcounter : s'.jobId = s.jobId)
    (hsplit : handlersOf j s.handlers = front ++ t :: back)
    (hsplit' : handlersOf j s'.handlers = front ++ { t with pc := .finished } :: back)
    (hpc : t.pc = .complete result) : Inv j operation results s' := by
  have hok : t.pc.Ok operation results (s.resultFiles j) :=
    h.pcs t (hsplit ▸ List.mem_append_right _ List.mem_cons_self)
  rw [hpc] at hok
  constructor
  case job =>
    obtain ⟨job, hjob, hclients, hoperation, -⟩ := h.job
    refine ⟨job.completed result, ?_, hclients, hoperation, .inl ⟨rfl, ?_, hok.2⟩⟩
    · rw [hjobs, jobWithId_completed, if_pos rfl, hjob, Option.map_some]
    · rw [hfiles]
      exact hok.1
  case handled =>
    rw [← h.handled, hsplit, hsplit']
    simp
  case file =>
    -- the result of the thread is in the file since its first call
    have hfile := h.file
    rw [hsplit] at hfile
    rw [hfiles, hsplit']
    simpa [List.filter_append, List.filter_cons, ResultHandler.appended, hpc] using hfile
  case pcs =>
    intro u hu
    rw [hfiles]
    rw [hsplit', List.mem_append, List.mem_cons] at hu
    rcases hu with hu | rfl | hu
    · exact h.pcs u (hsplit ▸ List.mem_append_left _ hu)
    · trivial
    · exact h.pcs u (hsplit ▸ List.mem_append_right _ (List.mem_cons_of_mem _ hu))
  case counter => exact hcounter ▸ h.counter

/-- When not all lines are there, a thread that counts them leaves another that has yet to
append its own. -/
theorem Inv.exists_append (h : Inv j operation results s)
    (hless : (s.resultFiles j).length ≠ results.length) :
    ∃ u ∈ handlersOf j s.handlers, u.pc = .append := by
  by_contra hnone
  push Not at hnone
  exact hless (h.length_file_eq_iff.mpr hnone)

/-- A call of a thread of the job. -/
theorem Inv.next {server : Server} {handlers : List ResultHandler} (hlib : lib.Correct)
    (h : Inv j operation results s) (ht : t.jobId = j) (hnext : Next lib t s.toServer server pc)
    (hsplit : handlersOf j s.handlers = front ++ t :: back)
    (hsplit' : handlersOf j handlers = front ++ { t with pc := pc } :: back) :
    Inv j operation results { s with toServer := server, handlers := handlers } := by
  have hmem : t ∈ handlersOf j s.handlers :=
    hsplit ▸ List.mem_append_right _ List.mem_cons_self
  have hmem' : { t with pc := pc } ∈ handlersOf j handlers :=
    hsplit' ▸ List.mem_append_right _ List.mem_cons_self
  have hok := h.pcs t hmem
  obtain ⟨job, hjob, hclients, hoperation, -⟩ := h.job
  cases hnext with
  | append hpc =>
    refine h.append rfl ?_ rfl hsplit hsplit' hpc
    change Function.update s.resultFiles t.jobId (s.resultFiles t.jobId ++ [t.result]) j = _
    rw [ht, Function.update_self]
  | freeClient hpc =>
    exact h.moved ⟨rfl, rfl, rfl⟩ hsplit hsplit' (by simp [hpc]) (by simp) trivial
      fun _ => ⟨_, hmem', trivial⟩
  | count hpc =>
    refine h.moved ⟨rfl, rfl, rfl⟩ hsplit hsplit' (by simp [hpc]) (by simp) ?_ fun _ => ?_
    · rw [Pc.Ok, Server.countResults, ht]
    · by_cases hall : (s.resultFiles j).length = results.length
      · -- it counted all the lines, and is going to complete the job itself
        refine ⟨_, hmem', ?_⟩
        rw [Pc.Completes, Server.countResults, ht, hall]
      · -- another thread has yet to append its line
        obtain ⟨u, hu, happend⟩ := h.exists_append hall
        refine ⟨u, ?_, by rw [happend]; trivial⟩
        change u ∈ handlersOf j handlers
        rw [hsplit, List.mem_append, List.mem_cons] at hu
        rw [hsplit', List.mem_append, List.mem_cons]
        refine hu.imp_right (Or.imp_left ?_)
        rintro rfl
        rw [hpc] at happend
        cases happend
  | decide numberOfResults time hpc htime =>
    rw [timeToComputeFinalResult, ht, lookupJob_eq_some hjob] at htime
    obtain rfl := Option.some.inj htime
    rw [hpc] at hok
    have hcount : numberOfResults ≤ (s.resultFiles j).length := hok
    refine h.moved ⟨rfl, rfl, rfl⟩ hsplit hsplit' (by simp [hpc]) (by split <;> simp) ?_ ?_
    · split
      next hall =>
        -- it counted all the lines, and no more are there
        have hle := h.length_file_le
        have hnumber := of_decide_eq_true hall
        rw [Pc.Ok]
        omega
      next => trivial
    · intro hcompletes
      rw [hpc] at hcompletes
      -- the number that it counted passes the test
      have hnumber : numberOfResults = results.length := hcompletes
      refine ⟨_, hmem', ?_⟩
      simp [hnumber, hclients, Pc.Completes]
  | getGroup groupId hpc hgroup =>
    rw [hpc] at hok
    exact h.moved ⟨rfl, rfl, rfl⟩ hsplit hsplit' (by simp [hpc]) (by simp) hok
      fun _ => ⟨_, hmem', trivial⟩
  | freeGroup groupId hpc =>
    rw [hpc] at hok
    exact h.moved ⟨rfl, rfl, rfl⟩ hsplit hsplit' (by simp [hpc]) (by simp) hok
      fun _ => ⟨_, hmem', trivial⟩
  | evaluate result hpc hresult =>
    rw [hpc] at hok
    refine h.moved ⟨rfl, rfl, rfl⟩ hsplit hsplit' (by simp [hpc]) (by simp) ⟨hok, ?_⟩
      fun _ => ⟨_, hmem', trivial⟩
    -- the file has all the results, in the order in which they were appended
    rw [Server.evaluate, getJobOpFromId, ht, lookupJob_eq_some hjob, Option.bind_some] at hresult
    obtain ⟨minMax, hselect, rfl⟩ := Option.map_eq_some_iff.mp hresult
    refine isResult_of_perm hlib (hoperation ▸ hselect) (h.file_perm hok) ?_
    rw [← h.handled, hsplit]
    simp
  | complete result hpc =>
    refine h.complete ?_ rfl rfl hsplit hsplit' hpc
    rw [ht]

/-! ### Runs -/

/-- Every step keeps the invariant. -/
theorem Inv.step {a : Action} (hlib : lib.Correct) (h : Inv j operation results s)
    (hstep : step lib j a s = some s') : Inv j operation results s' := by
  cases a with
  | handler k =>
    obtain ⟨t, hk, hrest⟩ := Option.bind_eq_some_iff.mp hstep
    obtain ⟨⟨server, pc⟩, hnext, rfl⟩ := Option.map_eq_some_iff.mp hrest
    have hcall := next_cases hnext
    by_cases ht : t.jobId = j
    · obtain ⟨front, back, hsplit, hset⟩ :=
        Threads.exists_filter_set (p := fun t => t.jobId = j) hk (by simpa using ht)
      exact h.next hlib ht hcall hsplit (hset { t with pc := pc } (by simpa using ht))
    · obtain ⟨hjob, hfile, hcounter⟩ := hcall.of_ne ht
      refine h.of_same hjob hfile ?_ hcounter.ge
      exact Threads.filter_set_of_not hk (by simpa using ht) (by simpa using ht)
  | arrive fd result jobId =>
    rw [Completion.step] at hstep
    split at hstep
    next hother =>
      obtain rfl := Option.some.inj hstep
      refine h.of_same rfl rfl ?_ le_rfl
      simp [handlersOf, List.filter_append, hother.1]
    next => cases hstep
  | findGroup operation =>
    rw [Completion.step] at hstep
    split at hstep
    · obtain rfl := Option.some.inj hstep
      exact h.of_same rfl rfl rfl le_rfl
    · cases hstep
  | addJob =>
    rw [Completion.step] at hstep
    split at hstep
    next =>
      obtain rfl := Option.some.inj hstep
      refine h.of_same ?_ rfl rfl ?_
      · -- the id of the new job is above the counter
        have hcounter := h.counter
        change jobWithId (Multicast.addJob s.jobList (s.jobId + 1) _) j = _
        rw [jobWithId_addJob, if_neg (by omega)]
      · change s.jobId ≤ s.jobId + 1
        omega
    next => cases hstep
  | assignGroup =>
    rw [Completion.step] at hstep
    split at hstep
    next =>
      obtain rfl := Option.some.inj hstep
      exact h.of_same rfl rfl rfl le_rfl
    next => cases hstep
  | mark mgId arrClients =>
    rw [Completion.step] at hstep
    split at hstep
    next =>
      obtain rfl := Option.some.inj hstep
      exact h.of_same rfl rfl rfl le_rfl
    next => cases hstep
  | record mgId arrClients =>
    rw [Completion.step] at hstep
    split at hstep
    next hother =>
      obtain ⟨server, hserver, rfl⟩ := Option.map_eq_some_iff.mp hstep
      obtain rfl := Server.eq_of_recordJob hserver
      refine h.of_same ?_ rfl rfl le_rfl
      exact jobWithId_begun.trans (if_neg (Ne.symm hother.1))
    next => cases hstep

/-- A thread of the job that is not finished can make its next call: the job is listed and
its operation is one of the two. -/
theorem Inv.exists_step {k : ℕ} (h : Inv j operation results s)
    (hoperation : operation = jobMin ∨ operation = jobMax)
    (hk : s.handlers[k]? = some t) (ht : t.jobId = j) (hpc : t.pc ≠ .finished) :
    ∃ s', Completion.step lib j (.handler k) s = some s' := by
  suffices hnext : ∃ out, t.next lib s.toServer = some out by
    obtain ⟨out, hout⟩ := hnext
    rw [Completion.step, hk, Option.bind_some, hout]
    exact ⟨_, rfl⟩
  obtain ⟨job, hjob, -, rfl, -⟩ := h.job
  obtain ⟨minMax, hselect⟩ := lib.exists_select hoperation
  rw [ResultHandler.next, ht]
  cases hcase : t.pc with
  | decide numberOfResults =>
    simp only [timeToComputeFinalResult, lookupJob_eq_some hjob]
    exact ⟨_, rfl⟩
  | getGroup =>
    simp only [getGroupIdFromJob, lookupJob_eq_some hjob]
    exact ⟨_, rfl⟩
  | evaluate =>
    simp only [Server.evaluate_eq_some hjob hselect]
    exact ⟨_, rfl⟩
  | complete result =>
    simp only [Server.completeJob_eq_some hjob]
    exact ⟨_, rfl⟩
  | finished => exact absurd hcase hpc
  -- the other calls do not look at the job
  | _ => exact ⟨_, rfl⟩

/-- A call frees no group of another job. -/
theorem Next.jobId_of_freed {server : Server} {g : ℤ} (h : Next lib t s.toServer server pc)
    (hbusy : (s.multicastGroups g).groupStatus = .busy)
    (hfree : (server.multicastGroups g).groupStatus = .free) :
    (s.multicastGroups g).jobId = t.jobId := by
  cases h with
  | freeGroup groupId hpc =>
    change (updateGroupStatusToFree s.multicastGroups groupId t.jobId g).groupStatus = _ at hfree
    rw [updateGroupStatusToFree_apply] at hfree
    split at hfree
    next hgroup =>
      obtain ⟨rfl, hid⟩ := hgroup
      exact hid
    next =>
      rw [hbusy] at hfree
      cases hfree
  | _ =>
    have hsame : (s.multicastGroups g).groupStatus = .free := hfree
    rw [hbusy] at hsame
    cases hsame

/-- However the threads interleave, the job is complete only when all its lines are there;
when all its threads are finished it is complete with the minimum or the maximum of all
results; and no thread frees a group that another job has. -/
theorem completed_of_run {s₀ : Threads} (lib : MinMax) (hlib : lib.Correct)
    (h₀ : Awaiting j operation results s₀) (as : List Action)
    (hrun : run (Completion.step lib j) as s₀ = some s) :
    (∀ job, jobWithId s.jobList j = some job → job.status = .complete →
      (s.resultFiles j).length = results.length) ∧
    ((∀ t ∈ s.handlers, t.jobId = j → t.pc = .finished) →
      ∃ job, jobWithId s.jobList j = some job ∧ job.status = .complete ∧
        IsResult operation results job.result) ∧
    ∀ k t, s.handlers[k]? = some t → ∀ s', Completion.step lib j (.handler k) s = some s' →
      ∀ g, (s.multicastGroups g).groupStatus = .busy →
        (s'.multicastGroups g).groupStatus = .free → (s.multicastGroups g).jobId = t.jobId := by
  have h : Inv j operation results s :=
    run_invariant (fun _ _ _ hI hstep => hI.step hlib hstep) hrun h₀.inv
  refine ⟨?_, ?_, ?_⟩
  · intro job hjob hstatus
    obtain ⟨job', hjob', -, -, hdone | ⟨hprogress, -⟩⟩ := h.job
    · exact hdone.file
    · obtain rfl := Option.some.inj (hjob.symm.trans hjob')
      rw [hstatus] at hprogress
      cases hprogress
  · intro hfinished
    obtain ⟨job, hjob, -, -, hdone | ⟨-, t, ht, hcompletes⟩⟩ := h.job
    · exact ⟨job, hjob, hdone.status, hdone.result⟩
    · -- a thread that is going to complete the job is not finished
      obtain ⟨hmem, hid⟩ := List.mem_filter.mp ht
      rw [hfinished t hmem (of_decide_eq_true hid)] at hcompletes
      exact hcompletes.elim
  · intro k t hk s' hstep g hbusy hfree
    rw [Completion.step, hk, Option.bind_some] at hstep
    obtain ⟨⟨server, pc⟩, hnext, rfl⟩ := Option.map_eq_some_iff.mp hstep
    exact (next_cases hnext).jobId_of_freed hbusy hfree

/-- The client with descriptor 5 returns 7 and the one with 6 returns 4; both threads append
before either counts, and the group of the job goes to the next job before the second
thread reaches it. -/
def bothCount : List Action :=
  [.handler 0, .handler 1, .handler 0, .handler 0, .handler 1, .handler 1, .handler 0, .handler 1,
    .handler 0, .handler 0, .findGroup jobMax, .addJob, .assignGroup, .handler 1, .handler 1,
    .handler 0, .handler 0, .handler 1, .handler 1]

/-- Job 1 waits for its two results. -/
def awaitingTwo : Threads where
  clients := initializeClientArray
  clientThreadId := fun _ => none
  multicastGroups := Function.update initializeGroupArray 3
    { groupStatus := .busy, jobId := 1, numOfClients := 2, head := [6, 5] }
  jobList := [⟨1, jobMin, 3, 2, .inProgress, -1⟩]
  jobId := 1
  resultFiles := fun _ => []
  handlers := [⟨5, 7, 1, .append⟩, ⟨6, 4, 1, .append⟩]
  shell := .idle

theorem awaiting_awaitingTwo : Awaiting 1 jobMin [7, 4] awaitingTwo where
  job := ⟨_, rfl, rfl, rfl, rfl⟩
  operation := .inl rfl
  file := rfl
  results_ne_nil := by decide
  handled := rfl
  pcs := by decide
  counter := le_rfl

theorem completed_bothCount :
    ∃ s, run (Completion.step listMinMax 1) bothCount awaitingTwo = some s ∧
      (s.multicastGroups 3).jobId = 2 ∧ (s.multicastGroups 3).groupStatus = .busy ∧
      ∃ job, jobWithId s.jobList 1 = some job ∧ job.status = .complete ∧
        IsResult jobMin [7, 4] job.result := by
  have hrun : (run (Completion.step listMinMax 1) bothCount awaitingTwo).map
      (fun s => ((s.multicastGroups 3).jobId, (s.multicastGroups 3).groupStatus,
        s.handlers.map ResultHandler.pc)) =
          some (2, .busy, [.finished, .finished]) := by decide +kernel
  obtain ⟨s, hs, heq⟩ := Option.map_eq_some_iff.mp hrun
  simp only [Prod.mk.injEq] at heq
  obtain ⟨hid, hbusy, hpcs⟩ := heq
  refine ⟨s, hs, hid, hbusy, ?_⟩
  have hfinished : ∀ t ∈ s.handlers, t.pc = .finished := by
    intro t ht
    have hmem := List.mem_map_of_mem (f := ResultHandler.pc) ht
    rw [hpcs] at hmem
    simpa using hmem
  exact (completed_of_run listMinMax listMinMax_correct awaiting_awaitingTwo bothCount hs).2.1
    fun t ht _ => hfinished t ht

end Multicast.Completion
