import Multicast.Server.Dispatch
import Multicast.Server.Lookups
import Multicast.Server.Start
import Multicast.Transfer.Split

/-!
# The tasks of a group handler

A group handler uses the number of the clients that it found three times: it records the
number in the job, it divides the input by it, and it queues as many tasks. Between the
first and the second use a zero becomes a one. A handler that found no client records that
the job has none and queues one task all the same, for the socket that it reads from an
array without entries.

## Main definitions

* `Multicast.ClientArgument` — what a task is told
* `Server.multicastGroupHandler` — a whole group handler, with the tasks that it queues
* `Server.DispatchMatches` — the tasks are those that the job is recorded to have

## Main results

* `map_clientSocketId_tasks` — the sockets of the tasks
* `dispatchMatches_iff` — they match the record exactly if a member is free
-/

set_option autoImplicit false

namespace Multicast

open Dispatch

/-- `struct client_argument`, as far as a task reads it. The name of the piece is the number
in front of `_in_file` and the digits behind it. -/
structure ClientArgument where
  clientSocketId : ℤ
  fileName : ℤ × List ℕ
  i : ℕ
  mgId : ℤ
  jobOperation : ℤ
deriving DecidableEq

namespace Server

/-- The number of tasks: `size`, after the zero was replaced. -/
def taskCount (arrClients : List ℤ) : ℕ :=
  if arrClients.length = 0 then 1 else arrClients.length

/-- The argument of a task. Behind its end the array of the clients holds anything. -/
def clientArgument (uninitialised : ℤ) (s : Server) (arguments : MgArgument)
    (arrClients : List ℤ) (i : ℕ) : ClientArgument where
  clientSocketId := arrClients.getD i uninitialised
  fileName := ((s.multicastGroups arguments.groupId).jobId, taskSuffix i)
  i := i
  mgId := arguments.groupId
  jobOperation := arguments.jobId

/-- The tasks that a handler queues. -/
def tasks (uninitialised : ℤ) (s : Server) (arguments : MgArgument) (arrClients : List ℤ) :
    List ClientArgument :=
  (List.range (taskCount arrClients)).map (s.clientArgument uninitialised arguments arrClients)

/-- `multicast_Group_Handler`: the state that it leaves, and the tasks that it queues. -/
def multicastGroupHandler (uninitialised : ℤ) (s : Server) (arguments : MgArgument) :
    Option (Server × List ClientArgument) :=
  (s.freeClients arguments.groupId).bind fun arrClients =>
    ((s.markClients arguments.groupId arrClients).recordJob arguments.groupId arrClients).map
      fun s => (s, s.tasks uninitialised arguments arrClients)

/-- The client was free, and now it is busy with a job. -/
def JustMarked (s s' : Server) (fd j : ℤ) : Prop :=
  isFreeClient s.clients fd ∧ BusyWith s' fd j

/-- The handler returns; its tasks are as many as the clients that are recorded for the job,
and each is for a client that the handler made busy with it. -/
def DispatchMatches (uninitialised : ℤ) (s : Server) (arguments : MgArgument) : Prop :=
  ∃ s' tasks job, s.multicastGroupHandler uninitialised arguments = some (s', tasks) ∧
    jobWithId s'.jobList (s.multicastGroups arguments.groupId).jobId = some job ∧
      (tasks.length : ℤ) = job.numberOfClients ∧
        ∀ task ∈ tasks,
          JustMarked s s' task.clientSocketId (s.multicastGroups arguments.groupId).jobId

variable {s s' : Server} {arguments : MgArgument} {arrClients : List ℤ} {uninitialised fd : ℤ}

/-! ### The tasks -/

theorem length_tasks :
    (s.tasks uninitialised arguments arrClients).length = taskCount arrClients := by
  rw [tasks, List.length_map, List.length_range]

/-- The sockets of the tasks are those that a handler which runs step by step has. -/
theorem map_clientSocketId_tasks :
    (s.tasks uninitialised arguments arrClients).map ClientArgument.clientSocketId =
      Dispatch.tasks uninitialised arrClients := by
  rw [tasks, List.map_map, taskCount, Dispatch.tasks]
  by_cases hnil : arrClients = []
  · rw [hnil]
    rfl
  · rw [if_neg hnil, if_neg (mt List.length_eq_zero_iff.mp hnil)]
    apply List.ext_getElem
    · rw [List.length_map, List.length_range]
    · intro i hi hlt
      simp [clientArgument, hlt]

/-- The state that a handler leaves when its job is listed. -/
def begun (s : Server) (mgId : ℤ) (arrClients : List ℤ) : Server :=
  { s.markClients mgId arrClients with
    jobList := assignFields (Job.begun mgId arrClients.length) (s.multicastGroups mgId).jobId
      s.jobList }

/-- A handler that finds clients, for a job that is listed. -/
theorem multicastGroupHandler_eq_some {job : Job}
    (hfound : s.freeClients arguments.groupId = some arrClients)
    (hjob : jobWithId s.jobList (s.multicastGroups arguments.groupId).jobId = some job) :
    s.multicastGroupHandler uninitialised arguments =
      some (s.begun arguments.groupId arrClients,
        s.tasks uninitialised arguments arrClients) := by
  have hrecord : (s.markClients arguments.groupId arrClients).recordJob arguments.groupId
      arrClients = some (s.begun arguments.groupId arrClients) := recordJob_eq_some hjob
  rw [multicastGroupHandler, hfound, Option.bind_some, hrecord]
  rfl

/-- What a handler leaves and queues, if it does not crash. -/
theorem eq_of_multicastGroupHandler {tasks : List ClientArgument}
    (h : s.multicastGroupHandler uninitialised arguments = some (s', tasks)) :
    ∃ arrClients, s.freeClients arguments.groupId = some arrClients ∧
      s' = s.begun arguments.groupId arrClients ∧
      tasks = s.tasks uninitialised arguments arrClients := by
  obtain ⟨arrClients, hfound, hrest⟩ := Option.bind_eq_some_iff.mp h
  obtain ⟨server, hrecord, heq⟩ := Option.map_eq_some_iff.mp hrest
  obtain rfl := eq_of_recordJob hrecord
  obtain ⟨rfl, rfl⟩ := Prod.mk.inj heq
  exact ⟨arrClients, hfound, rfl, rfl⟩

/-- The job with the number of clients that were found. -/
theorem jobWithId_jobList_begun {g : ℤ} :
    jobWithId (s.begun g arrClients).jobList (s.multicastGroups g).jobId =
      (jobWithId s.jobList (s.multicastGroups g).jobId).map
        (Job.begun g arrClients.length) := by
  rw [begun, jobWithId_begun, if_pos rfl]

/-! ### The match -/

/-- A handler that finds clients makes them busy. -/
theorem justMarked_of_mem (hfound : s.freeClients arguments.groupId = some arrClients)
    (hfd : fd ∈ arrClients) : JustMarked s (s.begun arguments.groupId arrClients) fd
      (s.multicastGroups arguments.groupId).jobId := by
  obtain ⟨hmember, hfree⟩ := (mem_findFreeClientsInAGroup hfound).mp hfd
  exact ⟨hfree, busyWith_markClients (t := ⟨arguments.groupId, .waiting⟩) hmember hfree hfd⟩

/-- One run of a handler on a group with members queues as many tasks as it records
clients, each for a client that it made busy, if and only if the job is listed and a member
is free. -/
theorem dispatchMatches_iff (uninitialised : ℤ) (s : Server) (arguments : MgArgument)
    (hne : (s.multicastGroups arguments.groupId).head ≠ []) :
    DispatchMatches uninitialised s arguments ↔
      Listed s.jobList (s.multicastGroups arguments.groupId).jobId ∧
        ∃ fd ∈ (s.multicastGroups arguments.groupId).head, isFreeClient s.clients fd := by
  constructor
  · rintro ⟨s', tasks, job, hrun, hjob, hcount, -⟩
    obtain ⟨arrClients, hfound, rfl, rfl⟩ := eq_of_multicastGroupHandler hrun
    rw [jobWithId_jobList_begun] at hjob
    obtain ⟨listed, hlisted, rfl⟩ := Option.map_eq_some_iff.mp hjob
    refine ⟨⟨listed, mem_of_jobWithId hlisted⟩, ?_⟩
    -- without a client there would be a task that was not recorded
    have hclients : arrClients ≠ [] := by
      rintro rfl
      rw [length_tasks] at hcount
      cases hcount
    obtain ⟨fd, hfd⟩ := List.exists_mem_of_ne_nil arrClients hclients
    exact ⟨fd, (mem_findFreeClientsInAGroup hfound).mp hfd⟩
  · rintro ⟨hlisted, fd, hmember, hfree⟩
    obtain ⟨job, hjob⟩ := exists_jobWithId_of_listed hlisted
    have hfound : s.freeClients arguments.groupId = some _ := findFreeClientsInAGroup_of_ne_nil hne
    generalize List.filter _ _ = arrClients at hfound
    have hclients : arrClients ≠ [] :=
      List.ne_nil_of_mem ((mem_findFreeClientsInAGroup hfound).mpr ⟨hmember, hfree⟩)
    refine ⟨_, _, _, multicastGroupHandler_eq_some hfound hjob,
      jobWithId_jobList_begun.trans (congrArg _ hjob), ?_, ?_⟩
    · rw [length_tasks, taskCount, if_neg (mt List.length_eq_zero_iff.mp hclients)]
      rfl
    · intro task htask
      have hsocket := List.mem_map_of_mem (f := ClientArgument.clientSocketId) htask
      rw [map_clientSocketId_tasks, Dispatch.tasks, if_neg hclients] at hsocket
      exact justMarked_of_mem hfound hsocket

end Server

/-- A client joined group 1, and a job was started for it. -/
def startedServer : Server := ((initialServer.handleGroupIdRegs 0 5 [1]).jobAddition jobMin).2

theorem dispatchMatches_startedServer : startedServer.DispatchMatches 0 ⟨1, jobMin, ['f']⟩ := by
  apply (Server.dispatchMatches_iff 0 startedServer ⟨1, jobMin, ['f']⟩ (by decide +kernel)).mpr
  exact ⟨by decide +kernel, 5, by decide +kernel, by decide +kernel⟩

/-- A reader was created while five clients were accepted. -/
def silentServer : Server := (initialServer.handleGroupIdRegs 0 5 [1]).storeReader 5 0

/-- The timer has removed the client when the job is started; the list of the group still has
it. -/
def desertedServer : Server :=
  (silentServer.timerRound 121 5).elim silentServer fun s => (s.jobAddition jobMin).2

/-- One task is queued for a job without clients. -/
theorem not_dispatchMatches_desertedServer :
    (desertedServer.multicastGroups 1).head = [5] ∧
      ¬ desertedServer.DispatchMatches 0 ⟨1, jobMin, ['f']⟩ := by
  refine ⟨by decide +kernel, ?_⟩
  rintro ⟨s', tasks, job, hrun, hjob, hcount, -⟩
  have hnumbers : (desertedServer.multicastGroupHandler 0 ⟨1, jobMin, ['f']⟩).map
      (fun out => (out.2.length, (jobWithId out.1.jobList 1).map Job.numberOfClients)) =
        some (1, some 0) := by decide +kernel
  have hid : (desertedServer.multicastGroups 1).jobId = 1 := by decide +kernel
  rw [hrun, Option.map_some, Option.some.injEq, Prod.mk.injEq] at hnumbers
  obtain ⟨hone, hzero⟩ := hnumbers
  rw [hid] at hjob
  rw [hjob, Option.map_some, Option.some.injEq, ← hcount, hone] at hzero
  cases hzero

end Multicast
