import Multicast.Lib.StepRun
import Multicast.Server.State

/-!
# A client serves one job at a time

Each group handler first looks which clients of its group are free, then makes them busy,
then records the job and sends it to them. The three calls are steps here, and the steps
of several handlers can fall in any order. A client that belongs to two groups may be
found free by both handlers before either makes it busy.

If the clients that a handler found are still free when it makes them busy, no client
serves two jobs. A handler that found no client sends the job to whatever descriptor the
empty array happens to hold, so that it has to have found one.

## Main definitions

* `Multicast.Dispatch.GroupHandler`, `Stage` — a handler, and where it is
* `Action`, `step` — the steps of all handlers, and results
* `Serves`, `OneJob` — a client was sent a job that is not over for it
* `StillFree` — the condition on the steps

## Main results

* `Inv.step` — steps that meet the condition keep the invariant
* `oneJob_of_meets` — runs of such steps
* `not_oneJob_bothFind` — a run that is not
-/

set_option autoImplicit false

namespace Multicast.Dispatch

open StepRun

/-! ### Group handlers -/

/-- Where a thread in `multicast_Group_Handler` is, with the clients that it found; after
the last call, the clients that it sent the job to. -/
inductive Stage where
  | waiting
  | found (arrClients : List ℤ)
  | marked (arrClients : List ℤ)
  | dispatched (arrClients tasks : List ℤ)
deriving DecidableEq

/-- A thread in `multicast_Group_Handler`. -/
structure GroupHandler where
  mgId : ℤ
  stage : Stage
deriving DecidableEq

/-- The `client_socket_id` of each task. There is one task even if no client was found; its
descriptor is read from an array without entries, that holds anything there. -/
def tasks (uninitialised : ℤ) (arrClients : List ℤ) : List ℤ :=
  if arrClients = [] then [uninitialised] else arrClients

/-- The next call of a handler. -/
def GroupHandler.next (uninitialised : ℤ) (t : GroupHandler) (s : Server) :
    Option (Server × Stage) :=
  match t.stage with
  | .waiting => (s.freeClients t.mgId).map fun arrClients => (s, .found arrClients)
  | .found arrClients => some (s.markClients t.mgId arrClients, .marked arrClients)
  | .marked arrClients =>
    (s.recordJob t.mgId arrClients).map fun s =>
      (s, .dispatched arrClients (tasks uninitialised arrClients))
  | .dispatched _ _ => none

/-- A handler that runs alone does the bookkeeping of `multicast_Group_Handler`. -/
theorem exists_run_of_groupHandler {server server' : Server} {t : GroupHandler}
    (uninitialised : ℤ) (h : server.groupHandler t.mgId = some server') :
    ∃ calls arrClients, run
      (fun (_ : Unit) out => GroupHandler.next uninitialised { t with stage := out.2 } out.1)
      calls (server, .waiting) =
        some (server', .dispatched arrClients (tasks uninitialised arrClients)) := by
  obtain ⟨arrClients, hfound, hrecord⟩ := Option.bind_eq_some_iff.mp h
  refine ⟨[(), (), ()], arrClients, ?_⟩
  simp [run, GroupHandler.next, hfound, hrecord]

/-- The server, the group handlers, and which clients returned a result for which jobs. -/
structure Pool extends Server where
  handlers : List GroupHandler
  returned : List (ℤ × ℤ)

/-- What can happen. -/
inductive Action where
  | handler (k : ℕ) (uninitialised : ℤ)
  | result (clientSocketFd value jobId : ℤ)

/-- One step. A result names a job of the list. -/
def step (lib : MinMax) : Action → Pool → Option Pool
  | .handler k uninitialised, s =>
    s.handlers[k]?.bind fun t => (t.next uninitialised s.toServer).map fun out =>
      { s with toServer := out.1, handlers := s.handlers.set k { t with stage := out.2 } }
  | .result clientSocketFd value jobId, s =>
    if (jobWithId s.jobList jobId).isSome then
      (s.handleResult lib clientSocketFd value jobId).map fun server =>
        { s with toServer := server, returned := (clientSocketFd, jobId) :: s.returned }
    else none

/-! ### The property and the condition -/

/-- The job of a handler is the one of its group. -/
def jobOf (s : Server) (t : GroupHandler) : ℤ := (s.multicastGroups t.mgId).jobId

/-- The clients that a handler sent its job to. -/
def Stage.dispatchedTo : Stage → List ℤ
  | .dispatched _ tasks => tasks
  | .waiting | .found _ | .marked _ => []

/-- A client was sent a job that is not complete, and it has not returned a result. -/
def Serves (s : Pool) (fd j : ℤ) : Prop :=
  (∃ t ∈ s.handlers, jobOf s.toServer t = j ∧ fd ∈ t.stage.dispatchedTo) ∧
    (∃ job ∈ jobWithId s.jobList j, job.status ≠ .complete) ∧ (fd, j) ∉ s.returned

instance (s : Pool) (fd j : ℤ) : Decidable (Serves s fd j) :=
  inferInstanceAs (Decidable (_ ∧ _ ∧ _))

/-- No client serves two jobs. -/
def OneJob (s : Pool) : Prop := ∀ fd j j', Serves s fd j → Serves s fd j' → j = j'

/-- The condition on a call. -/
def Stage.StillFree (s : Server) : Stage → Prop
  | .found arrClients => ∀ fd ∈ arrClients, isFreeClient s.clients fd
  | .marked arrClients => arrClients ≠ []
  | .waiting | .dispatched _ _ => True

/-- The condition on a step. The clients that a handler makes busy are free, as they were
when it found them; and a handler that sends its job found a client. -/
def StillFree : Action → Pool → Prop
  | .handler k _, s => ∀ t ∈ s.handlers[k]?, t.stage.StillFree s.toServer
  | .result .., _ => True

instance (s : Server) : ∀ stage : Stage, Decidable (stage.StillFree s)
  | .found _ => inferInstanceAs (Decidable (∀ _ ∈ _, _))
  | .marked _ => inferInstanceAs (Decidable (¬ _))
  | .waiting => .isTrue trivial
  | .dispatched _ _ => .isTrue trivial

instance : ∀ (a : Action) (s : Pool), Decidable (StillFree a s)
  | .handler _ _, _ => inferInstanceAs (Decidable (∀ _ ∈ _, _))
  | .result .., _ => .isTrue trivial

/-! ### The invariant -/

/-- The clients that a handler made busy. -/
def Stage.assigned : Stage → List ℤ
  | .marked arrClients => arrClients
  | .dispatched arrClients _ => arrClients
  | .waiting | .found _ => []

/-- The slot of a client belongs to it, and is busy with a job. -/
def BusyWith (s : Server) (fd j : ℤ) : Prop :=
  (s.clients (hashFunc fd)).clientSocketFd = fd ∧
    (s.clients (hashFunc fd)).clientStatus = .busy ∧ (s.clients (hashFunc fd)).jobId = j

/-- The invariant. Handlers found members of their groups; the clients that they made busy
returned a result, or are still busy with that job; and they sent the job to these. -/
structure Inv (s : Pool) : Prop where
  found : ∀ t ∈ s.handlers, ∀ arrClients, t.stage = .found arrClients →
    ∀ fd ∈ arrClients, fd ∈ (s.multicastGroups t.mgId).head
  held : ∀ t ∈ s.handlers, ∀ fd ∈ t.stage.assigned,
    (fd, jobOf s.toServer t) ∈ s.returned ∨ BusyWith s.toServer fd (jobOf s.toServer t)
  sent : ∀ t ∈ s.handlers, ∀ fd ∈ t.stage.dispatchedTo, fd ∈ t.stage.assigned

variable {lib : MinMax} {s s' : Pool} {server server' : Server} {fd j value : ℤ}
variable {t : GroupHandler} {arrClients : List ℤ}

theorem Inv.oneJob (h : Inv s) : OneJob s := by
  rintro fd j j' ⟨⟨t, ht, rfl, hfd⟩, -, hopen⟩ ⟨⟨t', ht', rfl, hfd'⟩, -, hopen'⟩
  -- the slot of the client has both jobs
  have hbusy := (h.held t ht fd (h.sent t ht fd hfd)).resolve_left hopen
  have hbusy' := (h.held t' ht' fd (h.sent t' ht' fd hfd')).resolve_left hopen'
  exact hbusy.2.2.symm.trans hbusy'.2.2

/-- At first all handlers wait. -/
theorem inv_of_waiting (h : ∀ t ∈ s.handlers, t.stage = .waiting) : Inv s where
  found t ht arrClients hstage := by
    rw [h t ht] at hstage
    cases hstage
  held t ht fd hfd := by
    rw [h t ht] at hfd
    exact absurd hfd List.not_mem_nil
  sent t ht fd hfd := by
    rw [h t ht] at hfd
    exact absurd hfd List.not_mem_nil

/-! ### Steps -/

/-- A client that is busy with another job is left alone by a handler whose clients are
free. -/
theorem BusyWith.markClients {mgId : ℤ} (hfree : ∀ fd ∈ arrClients, isFreeClient server.clients fd)
    (h : BusyWith server fd j) : BusyWith (server.markClients mgId arrClients) fd j := by
  obtain ⟨hslot, hbusy, hjob⟩ := h
  -- it is not free, and so is not one of those that were found
  have hnot : fd ∉ arrClients := by
    intro hmem
    have hstatus := (isFreeClient_iff.mp (hfree fd hmem)).2
    rw [hbusy] at hstatus
    cases hstatus
  rw [BusyWith, Server.markClients]
  simp only [updateClientWithJobAssigned_apply, hslot, hnot, false_and, and_false, if_false]
  exact ⟨trivial, hbusy, hjob⟩

/-- The clients that a handler makes busy. -/
theorem busyWith_markClients (hmember : fd ∈ (server.multicastGroups t.mgId).head)
    (hfree : isFreeClient server.clients fd) (hfd : fd ∈ arrClients) :
    BusyWith (server.markClients t.mgId arrClients) fd (jobOf server t) := by
  have hslot := (isFreeClient_iff.mp hfree).1
  rw [BusyWith, Server.markClients]
  simp only [updateClientWithJobAssigned_apply, hslot, hfd, hmember, and_self, if_true]
  exact ⟨trivial, trivial, rfl⟩

/-- What a result changes, apart from files and jobs: the sender becomes free if it is busy
with the job, and a group may become free. -/
theorem eq_of_handleResult (h : server.handleResult lib fd value j = some server') :
    server'.clients = updateClientStatusToFree server.clients fd j ∧
      ∀ g, (server'.multicastGroups g).jobId = (server.multicastGroups g).jobId ∧
        (server'.multicastGroups g).head = (server.multicastGroups g).head := by
  obtain ⟨time, -, ⟨-, rfl⟩ | ⟨-, groupId, result, rfl⟩⟩ := Server.eq_of_handleResult h
  · exact ⟨rfl, fun _ => ⟨rfl, rfl⟩⟩
  · exact ⟨rfl, fun _ => ⟨jobId_updateGroupStatusToFree, head_updateGroupStatusToFree⟩⟩

/-- A client that is busy with a job stays so when another returns a result, or when it
returns one for another job. -/
theorem BusyWith.handleResult {fd' j' : ℤ} (h : BusyWith server fd j)
    (hresult : server.handleResult lib fd' value j' = some server') (hne : (fd, j) ≠ (fd', j')) :
    BusyWith server' fd j := by
  obtain ⟨hslot, hbusy, hjob⟩ := h
  rw [BusyWith, (eq_of_handleResult hresult).1]
  refine ⟨by simpa using hslot, ?_, by simpa using hjob⟩
  rw [clientStatus_updateClientStatusToFree_of_ne, hbusy]
  by_cases hfd : fd = fd'
  · -- it is the sender, and the result is for another job
    refine .inr (.inr ?_)
    rw [hjob]
    rintro rfl
    exact hne (congrArg₂ Prod.mk hfd rfl)
  · -- its slot belongs to it, and so to nobody else
    refine .inr (.inl ?_)
    rwa [hslot]

/-- A result keeps the invariant. -/
theorem Inv.result {fd' j' : ℤ} (h : Inv s)
    (hresult : s.handleResult lib fd' value j' = some server') :
    Inv { s with toServer := server', returned := (fd', j') :: s.returned } := by
  obtain ⟨-, hgroups⟩ := eq_of_handleResult hresult
  have hjobOf : ∀ t, jobOf server' t = jobOf s.toServer t := fun t => (hgroups t.mgId).1
  constructor
  case found =>
    intro t ht arr hstage fd hfd
    change fd ∈ (server'.multicastGroups t.mgId).head
    rw [(hgroups t.mgId).2]
    exact h.found t ht arr hstage fd hfd
  case held =>
    intro t ht fd hfd
    change (fd, jobOf server' t) ∈ (fd', j') :: s.returned ∨ BusyWith server' fd (jobOf server' t)
    rw [hjobOf]
    by_cases hsame : (fd, jobOf s.toServer t) = (fd', j')
    · -- this is the result that the client owed
      exact .inl (hsame ▸ List.mem_cons_self)
    · rcases h.held t ht fd hfd with hreturned | hbusy
      · exact .inl (List.mem_cons_of_mem _ hreturned)
      · exact .inr (hbusy.handleResult hresult hsame)
  case sent => exact h.sent

/-- A handler's call keeps the invariant, if what it found and whom it made busy is as the
invariant says, and the clients of the others stay busy. -/
theorem Inv.handler {k : ℕ} {stage : Stage} (h : Inv s) (hk : s.handlers[k]? = some t)
    (hgroups : server'.multicastGroups = s.multicastGroups)
    (hfound : ∀ arr, stage = .found arr → ∀ fd ∈ arr, fd ∈ (s.multicastGroups t.mgId).head)
    (hassigned : ∀ fd ∈ stage.assigned, fd ∈ t.stage.assigned ∨
      BusyWith server' fd (jobOf s.toServer t))
    (hsent : ∀ fd ∈ stage.dispatchedTo, fd ∈ stage.assigned)
    (hbusy : ∀ fd j, BusyWith s.toServer fd j → BusyWith server' fd j) :
    Inv { s with toServer := server', handlers := s.handlers.set k { t with stage := stage } } := by
  have hjobOf : ∀ t, jobOf server' t = jobOf s.toServer t := fun t => by rw [jobOf, hgroups, jobOf]
  have hheld : ∀ u ∈ s.handlers, ∀ fd ∈ u.stage.assigned,
      (fd, jobOf s.toServer u) ∈ s.returned ∨ BusyWith server' fd (jobOf s.toServer u) :=
    fun u hu fd hfd => (h.held u hu fd hfd).imp_right (hbusy fd _)
  have ht : t ∈ s.handlers := List.mem_of_getElem? hk
  constructor
  case found =>
    intro u hu arr hstage
    change ∀ fd ∈ arr, fd ∈ (server'.multicastGroups u.mgId).head
    rw [hgroups]
    rcases List.mem_or_eq_of_mem_set hu with hu | rfl
    · exact h.found u hu arr hstage
    · exact hfound arr hstage
  case held =>
    intro u hu fd hfd
    change (fd, jobOf server' u) ∈ s.returned ∨ BusyWith server' fd (jobOf server' u)
    rw [hjobOf]
    rcases List.mem_or_eq_of_mem_set hu with hu | rfl
    · exact hheld u hu fd hfd
    · -- the thread that made the step holds what it held, and what it marked now
      rcases hassigned fd hfd with hold | hnew
      · exact hheld t ht fd hold
      · exact .inr hnew
  case sent =>
    intro u hu
    rcases List.mem_or_eq_of_mem_set hu with hu | rfl
    · exact h.sent u hu
    · exact hsent

/-- A step that meets the condition keeps the invariant. -/
theorem Inv.step {a : Action} (h : Inv s) (hok : StillFree a s)
    (hstep : step lib a s = some s') : Inv s' := by
  cases a with
  | result fd value j =>
    rw [Dispatch.step] at hstep
    split at hstep
    · obtain ⟨server', hresult, rfl⟩ := Option.map_eq_some_iff.mp hstep
      exact h.result hresult
    · cases hstep
  | handler k uninitialised =>
    obtain ⟨t, hk, hrest⟩ := Option.bind_eq_some_iff.mp hstep
    obtain ⟨⟨server', stage⟩, hnext, rfl⟩ := Option.map_eq_some_iff.mp hrest
    have hfree := hok t hk
    have ht : t ∈ s.handlers := List.mem_of_getElem? hk
    rw [GroupHandler.next] at hnext
    cases hstage : t.stage with
    | waiting =>
      simp only [hstage, Option.map_eq_some_iff, Prod.mk.injEq] at hnext
      obtain ⟨arrClients, hclients, rfl, rfl⟩ := hnext
      refine h.handler hk rfl ?_ (by simp [Stage.assigned]) (by simp [Stage.dispatchedTo])
        fun _ _ hbusy => hbusy
      -- only members are found
      rintro arr ⟨⟩ fd hfd
      exact ((mem_findFreeClientsInAGroup hclients).mp hfd).1
    | found arrClients =>
      simp only [hstage, Option.some.injEq, Prod.mk.injEq] at hnext
      obtain ⟨rfl, rfl⟩ := hnext
      rw [hstage] at hfree
      -- clients that are free are not those that another handler keeps busy
      refine h.handler hk rfl (by simp) ?_ (by simp [Stage.dispatchedTo])
        fun _ _ hbusy => hbusy.markClients hfree
      intro fd hfd
      exact .inr (busyWith_markClients (h.found t ht arrClients hstage fd hfd) (hfree fd hfd) hfd)
    | marked arrClients =>
      simp only [hstage, Option.map_eq_some_iff, Prod.mk.injEq] at hnext
      obtain ⟨server, hrecord, rfl, rfl⟩ := hnext
      obtain rfl := Server.eq_of_recordJob hrecord
      rw [hstage] at hfree
      refine h.handler hk rfl (by simp) ?_ ?_ fun _ _ hbusy => hbusy
      · intro fd hfd
        rw [hstage]
        exact .inl hfd
      · -- a client was found, so that the job is sent to those that were
        intro fd hfd
        rwa [Stage.dispatchedTo, tasks, if_neg hfree] at hfd
    | dispatched arrClients tasks =>
      simp only [hstage] at hnext
      cases hnext

/-- In every run whose steps meet the condition, no client serves two jobs. -/
theorem oneJob_of_meets (lib : MinMax) (s₀ : Pool) (h₀ : ∀ t ∈ s₀.handlers, t.stage = .waiting)
    (as : List Action) (hok : Meets (Dispatch.step lib) StillFree as s₀)
    (hrun : run (Dispatch.step lib) as s₀ = some s) : OneJob s :=
  (hok.run_invariant (fun _ _ _ hI hfree hstep => hI.step hfree hstep) hrun
    (inv_of_waiting h₀)).oneJob

/-- The client with descriptor 5 belongs to both groups; each has a job. -/
def sharedClient : Pool where
  clients := (addClient 0 initializeClientArray 5 [1, 2]).2
  clientThreadId := fun _ => none
  multicastGroups :=
    updateGroupWithJobAssigned
      (updateGroupWithJobAssigned (addAClientToGroups initializeGroupArray 5 [1, 2]) 1 1) 2 2
  jobList := addJob (addJob [] 1 jobMin) 2 jobMax
  jobId := 2
  resultFiles := fun _ => []
  handlers := [⟨1, .waiting⟩, ⟨2, .waiting⟩]
  returned := []

/-- One handler is done, and the client has returned its result, before the other starts. -/
def oneAfterTheOther : List Action :=
  [.handler 0 0, .handler 0 0, .handler 0 0, .result 5 7 1,
    .handler 1 0, .handler 1 0, .handler 1 0]

theorem oneJob_oneAfterTheOther :
    ∃ s, run (Dispatch.step listMinMax) oneAfterTheOther sharedClient = some s ∧
      s.handlers = [⟨1, .dispatched [5] [5]⟩, ⟨2, .dispatched [5] [5]⟩] ∧ OneJob s := by
  have hrun : (run (Dispatch.step listMinMax) oneAfterTheOther sharedClient).map
      (fun s => s.handlers) =
        some [⟨1, .dispatched [5] [5]⟩, ⟨2, .dispatched [5] [5]⟩] := by decide +kernel
  have hok : Meets (Dispatch.step listMinMax) StillFree oneAfterTheOther sharedClient := by
    decide +kernel
  obtain ⟨s, hs, hhandlers⟩ := Option.map_eq_some_iff.mp hrun
  exact ⟨s, hs, hhandlers, oneJob_of_meets listMinMax sharedClient (by decide)
    oneAfterTheOther hok hs⟩

/-- Both handlers find the client before either makes it busy. -/
def bothFind : List Action :=
  [.handler 0 0, .handler 1 0, .handler 0 0, .handler 1 0, .handler 0 0, .handler 1 0]

/-- The client serves both jobs. -/
theorem not_oneJob_bothFind :
    ∃ s, run (Dispatch.step listMinMax) bothFind sharedClient = some s ∧ ¬ OneJob s := by
  have hrun : (run (Dispatch.step listMinMax) bothFind sharedClient).map
      (fun s => (decide (Serves s 5 1), decide (Serves s 5 2))) = some (true, true) := by
    decide +kernel
  obtain ⟨s, hs, heq⟩ := Option.map_eq_some_iff.mp hrun
  obtain ⟨hfirst, hsecond⟩ := Prod.mk.inj heq
  refine ⟨s, hs, fun h => ?_⟩
  exact absurd (h 5 1 2 (of_decide_eq_true hfirst) (of_decide_eq_true hsecond)) (by decide)

end Multicast.Dispatch
