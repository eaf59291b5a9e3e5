import Mathlib.Data.Int.ConditionallyCompleteOrder
import Mathlib.Data.List.MinMax
import Mathlib.Order.ConditionallyCompleteLattice.Basic
import Multicast.Server.Groups
import Multicast.Server.Jobs

/-!
# The server

The tables and lists of the server and the functions that work on several of them:
a registration, the timer, the start of a job, the part of a group handler before it
splits the input, and the handling of a result. The last two run on threads of their own,
so that each of their calls is a function here, and the whole is their composition.

## Main definitions

* `Multicast.Server` — the global state, with the result files
* `Multicast.handleGroupIdRegs` — a client registers for groups
* `Multicast.jobAddition` — a job is started
* `Multicast.storeReader` — the event loop creates a thread for a reader
* `Multicast.timerRound` — the timer removes a client, or ends the server
* `Multicast.groupHandler` — the bookkeeping of `multicast_Group_Handler`
* `Multicast.handleResult` — a result arrives
* `Multicast.MinMax` — the library that evaluates a result file

## Main results

* `Server.eq_of_handleResult` — what a result leaves
* `Server.handleResult_eq` — the two ways a result for a listed job can go

## Implementation notes

The counter `job_id` is an `int`; it counts the started jobs and is an integer here, so
that the model is exact for fewer than `2 ^ 31` of them.
-/

set_option autoImplicit false

namespace Multicast

/-- The global state. A file `Result_<id>` is the list of its lines. The entries of
`client_thread_id` that were never written hold no id. -/
structure Server where
  clients : Clients
  clientThreadId : ℤ → Option ℕ
  multicastGroups : MulticastGroups
  jobList : List Job
  jobId : ℤ
  resultFiles : ℤ → List ℤ

/-- The state in which `main` starts the threads. The result files of earlier runs were
removed. -/
def initialServer : Server where
  clients := initializeClientArray
  clientThreadId := fun _ => none
  multicastGroups := initializeGroupArray
  jobList := []
  jobId := 0
  resultFiles := fun _ => []

/-- `JOB_MIN`. -/
def jobMin : ℤ := 1

/-- `JOB_MAX`. -/
def jobMax : ℤ := 2

/-- `libminmax.so`: two functions of the numbers in a file. -/
structure MinMax where
  minimumOfNumbers : List ℤ → ℤ
  maximumOfNumbers : List ℤ → ℤ

/-- The library returns the minimum and the maximum of a file that is not empty. -/
structure MinMax.Correct (lib : MinMax) : Prop where
  minimum : ∀ numbers, numbers ≠ [] → numbers.minimum = lib.minimumOfNumbers numbers
  maximum : ∀ numbers, numbers ≠ [] → numbers.maximum = lib.maximumOfNumbers numbers

/-- A library that is correct. -/
def listMinMax : MinMax where
  minimumOfNumbers numbers :=
    if h : 0 < numbers.length then numbers.minimum_of_length_pos h else 0
  maximumOfNumbers numbers :=
    if h : 0 < numbers.length then numbers.maximum_of_length_pos h else 0

theorem listMinMax_correct : listMinMax.Correct where
  minimum numbers h := by simp [listMinMax, List.length_pos_iff.mpr h]
  maximum numbers h := by simp [listMinMax, List.length_pos_iff.mpr h]

/-- The function that the `switch` on the operation selects; none if the pointer is left
without a value. -/
def MinMax.select (lib : MinMax) (operation : ℤ) : Option (List ℤ → ℤ) :=
  if operation = jobMin then some lib.minimumOfNumbers
  else if operation = jobMax then some lib.maximumOfNumbers
  else none

theorem MinMax.exists_select {operation : ℤ} (lib : MinMax)
    (h : operation = jobMin ∨ operation = jobMax) :
    ∃ minMax, lib.select operation = some minMax := by
  rcases h with rfl | rfl
  · exact ⟨lib.minimumOfNumbers, rfl⟩
  · exact ⟨lib.maximumOfNumbers, rfl⟩

namespace Server

/-! ### Registrations and starts -/

/-- `Handle_group_id_regs` at time `now`, with the group ids of its message. -/
def handleGroupIdRegs (now : ℤ) (s : Server) (clientSocketFd : ℤ) (groupArray : List ℤ) :
    Server :=
  { s with
    multicastGroups := addAClientToGroups s.multicastGroups clientSocketFd groupArray
    clients := (addClient now s.clients clientSocketFd groupArray).2 }

/-- `job_addition`, up to the work it queues: the group of the job and the state. -/
def jobAddition (s : Server) (jobNumber : ℤ) : ℤ × Server :=
  let groupId := findFreeGroup s.multicastGroups
  let jobId := s.jobId + 1
  (groupId,
    { s with
      jobId := jobId
      jobList := addJob s.jobList jobId jobNumber
      multicastGroups := updateGroupWithJobAssigned s.multicastGroups groupId jobId })

/-! ### Activity and the timer -/

/-- The last line of `client_Communication`, at time `now`. -/
def recordActivity (now : ℤ) (s : Server) (clientSd : ℤ) : Server :=
  { s with
    clients := Function.update s.clients (hashFunc clientSd)
      { s.clients (hashFunc clientSd) with timestamp := now } }

/-- The call of `pthread_create` in `add_client_handler`: the id of the reader is stored under the
number of clients that were accepted so far. -/
def storeReader (s : Server) (clientCount : ℤ) (thread : ℕ) : Server :=
  { s with clientThreadId := Function.update s.clientThreadId clientCount (some thread) }

/-- The slots that `timer_handler` visits. -/
def totalClients : ℤ := 255000

/-- One round of the loop of `timer_handler`, for the slot `i` at time `now`. The entry of
`client_thread_id` is a pointer to the thread; `pthread_cancel` ends the server where it was
never written. -/
def timerRound (now : ℤ) (s : Server) (i : ℤ) : Option Server :=
  if (s.clients i).clientSocketFd ≠ -1 ∧ now - (s.clients i).timestamp > 120 then
    (s.clientThreadId i).map fun _ =>
      { s with clients := (removeClient s.clients (s.clients i).clientSocketFd).2 }
  else some s

/-! ### A group handler -/

/-- The call of `find_free_clients_in_a_group` in `multicast_Group_Handler`. -/
def freeClients (s : Server) (mgId : ℤ) : Option (List ℤ) :=
  findFreeClientsInAGroup s.clients s.multicastGroups mgId

/-- The call of `update_client_with_job_assigned`. The id of the job is read from the
group. -/
def markClients (s : Server) (mgId : ℤ) (arrClients : List ℤ) : Server :=
  { s with
    clients := updateClientWithJobAssigned s.clients s.multicastGroups
      (s.multicastGroups mgId).jobId mgId arrClients }

/-- The call of `update_job_status_and_group`. -/
def recordJob (s : Server) (mgId : ℤ) (arrClients : List ℤ) : Option Server :=
  (updateJobStatusAndGroup s.jobList (s.multicastGroups mgId).jobId mgId arrClients.length).map
    fun out => { s with jobList := out.2 }

/-- The bookkeeping of `multicast_Group_Handler`. -/
def groupHandler (s : Server) (mgId : ℤ) : Option Server :=
  (s.freeClients mgId).bind fun arrClients =>
    (s.markClients mgId arrClients).recordJob mgId arrClients

/-! ### A result -/

/-- The line that `Handle_result` appends to the file of the job. -/
def appendResult (s : Server) (jobId result : ℤ) : Server :=
  { s with
    resultFiles := Function.update s.resultFiles jobId (s.resultFiles jobId ++ [result]) }

/-- The call of `update_client_status_to_free`. -/
def freeClient (s : Server) (clientSocketFd jobId : ℤ) : Server :=
  { s with clients := updateClientStatusToFree s.clients clientSocketFd jobId }

/-- The lines that `wc` counts. -/
def countResults (s : Server) (jobId : ℤ) : ℤ := (s.resultFiles jobId).length

/-- The call of `update_group_status_to_free`. -/
def freeGroup (s : Server) (groupId jobId : ℤ) : Server :=
  { s with multicastGroups := updateGroupStatusToFree s.multicastGroups groupId jobId }

/-- The call of the library on the file of the job. -/
def evaluate (lib : MinMax) (s : Server) (jobId : ℤ) : Option ℤ :=
  (getJobOpFromId s.jobList jobId).bind fun job =>
    (lib.select job).map fun minMax => minMax (s.resultFiles jobId)

/-- The call of `update_job_status_to_completed`. -/
def completeJob (s : Server) (jobId result : ℤ) : Option Server :=
  (updateJobStatusToCompleted s.jobList jobId result).map fun out => { s with jobList := out.2 }

/-- What `Handle_result` does when all results are there. -/
def finishJob (lib : MinMax) (s : Server) (jobId : ℤ) : Option Server :=
  (getGroupIdFromJob s.jobList jobId).bind fun groupId =>
    ((s.freeGroup groupId jobId).evaluate lib jobId).bind fun result =>
      (s.freeGroup groupId jobId).completeJob jobId result

/-- `Handle_result`. -/
def handleResult (lib : MinMax) (s : Server) (clientSocketFd result jobId : ℤ) : Option Server :=
  let s := (s.appendResult jobId result).freeClient clientSocketFd jobId
  (timeToComputeFinalResult s.jobList jobId (s.countResults jobId)).bind fun time =>
    if time then s.finishJob lib jobId else some s

variable {s s' : Server} {mgId j jobId result fd groupId now : ℤ} {lib : MinMax} {found : Job}
variable {arrClients groups : List ℤ}

/-! ### The timer -/

/-- A round that goes on leaves a slot alone, or cancels its reader and removes the client. -/
theorem timerRound_cases {i : ℤ} (h : s.timerRound now i = some s') :
    ¬ ((s.clients i).clientSocketFd ≠ -1 ∧ now - (s.clients i).timestamp > 120) ∧ s' = s ∨
      ((s.clients i).clientSocketFd ≠ -1 ∧ now - (s.clients i).timestamp > 120) ∧
        s.clientThreadId i ≠ none ∧
        s' = { s with clients := (removeClient s.clients (s.clients i).clientSocketFd).2 } := by
  rw [timerRound] at h
  split at h
  next hexpired =>
    obtain ⟨thread, hthread, rfl⟩ := Option.map_eq_some_iff.mp h
    exact .inr ⟨hexpired, by rw [hthread]; simp, rfl⟩
  next hnot => exact .inl ⟨hnot, (Option.some.inj h).symm⟩

/-! ### The client table after a registration -/

/-- A registration in an empty slot writes the record of the client. -/
theorem clients_register_of_free (hfree : (s.clients (hashFunc fd)).clientSocketFd = -1) :
    (s.handleGroupIdRegs now fd groups).clients = Function.update s.clients (hashFunc fd)
      { s.clients (hashFunc fd) with
        clientSocketFd := fd
        msg := none
        groupsJoined := groups
        numberOfGroups := groups.length
        timestamp := now } := congrArg Prod.snd (addClient_of_free hfree)

/-- A registration in a slot that is taken changes no record. -/
theorem clients_register_of_taken (htaken : (s.clients (hashFunc fd)).clientSocketFd ≠ -1) :
    (s.handleGroupIdRegs now fd groups).clients = s.clients :=
  congrArg Prod.snd (addClient_of_taken htaken)

/-! ### Listed ids -/

/-- `recordJob` on a listed id. -/
theorem recordJob_eq_some (h : jobWithId s.jobList (s.multicastGroups mgId).jobId = some found) :
    s.recordJob mgId arrClients = some { s with
      jobList := assignFields (Job.begun mgId arrClients.length)
        (s.multicastGroups mgId).jobId s.jobList } := by
  rw [recordJob, updateJobStatusAndGroup, updateJob_eq_some h, Option.map_some]

/-- What `recordJob` leaves, if it does not crash. -/
theorem eq_of_recordJob (h : s.recordJob mgId arrClients = some s') :
    s' = { s with
      jobList := assignFields (Job.begun mgId arrClients.length)
        (s.multicastGroups mgId).jobId s.jobList } := by
  obtain ⟨out, hout, rfl⟩ := Option.map_eq_some_iff.mp h
  rw [snd_of_updateJob hout]

/-- What `completeJob` leaves, if it does not crash. -/
theorem eq_of_completeJob (h : s.completeJob jobId result = some s') :
    s' = { s with jobList := assignFields (Job.completed result) jobId s.jobList } := by
  obtain ⟨out, hout, rfl⟩ := Option.map_eq_some_iff.mp h
  rw [snd_of_updateJob hout]

/-- `completeJob` on a listed id. -/
theorem completeJob_eq_some (h : jobWithId s.jobList jobId = some found) :
    s.completeJob jobId result = some { s with
      jobList := assignFields (Job.completed result) jobId s.jobList } := by
  rw [completeJob, updateJobStatusToCompleted, updateJob_eq_some h, Option.map_some]

/-- `evaluate` on a listed id with one of the two operations. -/
theorem evaluate_eq_some (h : jobWithId s.jobList jobId = some found) {minMax : List ℤ → ℤ}
    (hop : lib.select found.jobOperation = some minMax) :
    s.evaluate lib jobId = some (minMax (s.resultFiles jobId)) := by
  rw [evaluate, getJobOpFromId, lookupJob_eq_some h, Option.bind_some, hop, Option.map_some]

theorem countResults_appendResult {value : ℤ} :
    ((s.appendResult jobId value).freeClient fd jobId).countResults jobId =
      (s.resultFiles jobId).length + 1 := by
  simp [countResults, appendResult, freeClient]

/-- What a result leaves, if its handling does not crash: its line is appended and its
sender freed, and then either nothing else happens or a group is freed and the job
complete. -/
theorem eq_of_handleResult {value : ℤ} (h : s.handleResult lib fd value jobId = some s') :
    ∃ time, timeToComputeFinalResult s.jobList jobId ((s.resultFiles jobId).length + 1) =
        some time ∧
      (time = false ∧ s' = (s.appendResult jobId value).freeClient fd jobId ∨
        time = true ∧ ∃ groupId finalResult, s' =
          { (s.appendResult jobId value).freeClient fd jobId with
            multicastGroups := updateGroupStatusToFree s.multicastGroups groupId jobId
            jobList := assignFields (Job.completed finalResult) jobId s.jobList }) := by
  rw [handleResult, countResults_appendResult] at h
  obtain ⟨time, htime, hrest⟩ := Option.bind_eq_some_iff.mp h
  refine ⟨time, htime, ?_⟩
  cases time with
  | false => exact .inl ⟨rfl, (Option.some.inj hrest).symm⟩
  | true =>
    obtain ⟨groupId, -, hfinish⟩ := Option.bind_eq_some_iff.mp hrest
    obtain ⟨finalResult, -, hcomplete⟩ := Option.bind_eq_some_iff.mp hfinish
    exact .inr ⟨rfl, groupId, finalResult, eq_of_completeJob hcomplete⟩

/-- A result for a listed job with one of the two operations: its line is appended, its
sender freed, and if the lines are as many as the clients of the job, the group is freed
and the job complete. -/
theorem handleResult_eq {minMax : List ℤ → ℤ} {value : ℤ}
    (h : jobWithId s.jobList jobId = some found)
    (hop : lib.select found.jobOperation = some minMax) :
    s.handleResult lib fd value jobId = some
      (let s' := (s.appendResult jobId value).freeClient fd jobId
      if found.numberOfClients = (s.resultFiles jobId).length + 1 then
        { s' with
          multicastGroups := updateGroupStatusToFree s.multicastGroups found.groupId jobId
          jobList := assignFields (Job.completed (minMax (s.resultFiles jobId ++ [value]))) jobId
            s.jobList }
      else s') := by
  rw [handleResult, timeToComputeFinalResult, countResults_appendResult,
    lookupJob_eq_some (by exact h), Option.bind_some]
  simp only [decide_eq_true_eq]
  split
  · -- all results are there: every further call finds the job
    rw [finishJob, getGroupIdFromJob, lookupJob_eq_some (by exact h), Option.bind_some,
      evaluate_eq_some (by exact h) hop, Option.bind_some, completeJob_eq_some (by exact h)]
    simp [freeGroup, appendResult, freeClient]
  · rfl

end Server

end Multicast
