import Multicast.Lib.StepRun
import Multicast.Server.State

/-!
# The status of a new client

The status of a slot is written when a client gets a job and when it returns the result,
and by nothing else. A client that registers takes the slot with the status that it has:
the one that the last client left there.

While a slot is empty its status cannot change, for the lists of the groups have no client
with the descriptor of an empty slot. So a new client is free exactly as long as no client
is removed that is busy.

## Main definitions

* `Multicast.NewClients.Action`, `step` — registrations, jobs, results and removals
* `NewClientsFree` — whoever registers next is free, and found in its groups
* `RemovesFree` — the steps that keep it so

## Main results

* `newClientsFree_iff` — new clients are free exactly if empty slots are
* `newClientsFree_along_iff` — they are in every state of a run exactly if all its steps
  meet the condition
* `not_newClientsFree_removedBusy` — a run that does not
-/

set_option autoImplicit false

namespace Multicast.NewClients

open StepRun

/-! ### Runs -/

/-- What can happen to a slot. -/
inductive Action where
  | register (now clientSocketFd : ℤ) (groups : List ℤ)
  | assign (jobId groupId : ℤ) (clientsAssigned : List ℤ)
  | result (clientSocketFd jobId : ℤ)
  | remove (clientSocketFd : ℤ)

/-- One step. Descriptors are those of open connections, and groups are groups that
exist. -/
def step : Action → Server → Option Server
  | .register now clientSocketFd groups, s =>
    if 0 ≤ clientSocketFd ∧ ValidGroups groups then
      some (s.handleGroupIdRegs now clientSocketFd groups)
    else none
  | .assign jobId groupId clientsAssigned, s =>
    if 0 ≤ groupId ∧ groupId < numberOfGroups then
      some { s with
        clients := updateClientWithJobAssigned s.clients s.multicastGroups jobId groupId
          clientsAssigned }
    else none
  | .result clientSocketFd jobId, s =>
    if 0 ≤ clientSocketFd then some (s.freeClient clientSocketFd jobId) else none
  | .remove clientSocketFd, s =>
    if 0 ≤ clientSocketFd then some { s with clients := (removeClient s.clients clientSocketFd).2 }
    else none

/-! ### The property and the condition -/

/-- Whoever registers next, and gets a slot, is free and found in each of its groups. -/
def NewClientsFree (s : Server) : Prop :=
  ∀ now fd groups, 0 ≤ fd → ValidGroups groups → (addClient now s.clients fd groups).1 = 0 →
    ((s.handleGroupIdRegs now fd groups).clients (hashFunc fd)).clientStatus = .free ∧
      ∀ g ∈ groups, ∃ found,
        (s.handleGroupIdRegs now fd groups).freeClients g = some found ∧ fd ∈ found

/-- The condition on a step: a client that is removed is free. -/
def RemovesFree : Action → Server → Prop
  | .remove fd, s => (s.clients (hashFunc fd)).clientSocketFd = fd →
    (s.clients (hashFunc fd)).clientStatus = .free
  | .register .., _ | .assign .., _ | .result .., _ => True

/-- The slots of open descriptors that are empty have the status of a free client. -/
def EmptySlotsFree (s : Server) : Prop :=
  ∀ fd, 0 ≤ fd → (s.clients (hashFunc fd)).clientSocketFd = -1 →
    (s.clients (hashFunc fd)).clientStatus = .free

/-- The members of groups have open descriptors. -/
def MembersOpen (s : Server) : Prop := ∀ g, ∀ fd ∈ (s.multicastGroups g).head, 0 ≤ fd

variable {s s' : Server} {now fd jobId groupId : ℤ} {groups clientsAssigned : List ℤ}

/-- A client that gets an empty slot is found in the groups that it named, if the slot had
the status of a free client. -/
theorem exists_found_register {g : ℤ} (hslot : (s.clients (hashFunc fd)).clientSocketFd = -1)
    (hstatus : (s.clients (hashFunc fd)).clientStatus = .free) (hg : g ∈ groups) :
    ∃ found, (s.handleGroupIdRegs now fd groups).freeClients g = some found ∧ fd ∈ found := by
  have hmember : fd ∈ ((s.handleGroupIdRegs now fd groups).multicastGroups g).head :=
    mem_head_addAClientToGroups.mpr (.inr ⟨rfl, hg⟩)
  refine ⟨_, findFreeClientsInAGroup_of_ne_nil (List.ne_nil_of_mem hmember), ?_⟩
  refine List.mem_filter.mpr ⟨hmember, ?_⟩
  rw [isFreeClient_iff, Server.clients_register_of_free hslot, Function.update_self]
  exact ⟨rfl, hstatus⟩

/-- New clients are free if and only if empty slots are. -/
theorem newClientsFree_iff : NewClientsFree s ↔ EmptySlotsFree s := by
  constructor
  · intro h fd hfd hslot
    -- a client without groups would get the slot
    have hcode : (addClient 0 s.clients fd []).1 = 0 := by rw [addClient_of_free hslot]
    have hfree := (h 0 fd [] hfd (by simp [ValidGroups]) hcode).1
    rw [Server.clients_register_of_free hslot, Function.update_self] at hfree
    exact hfree
  · intro h now fd groups hfd _ hcode
    have hslot : (s.clients (hashFunc fd)).clientSocketFd = -1 := by
      by_contra htaken
      rw [addClient_of_taken htaken] at hcode
      cases hcode
    refine ⟨?_, fun g hg => exists_found_register hslot (h fd hfd hslot) hg⟩
    rw [Server.clients_register_of_free hslot, Function.update_self]
    exact h fd hfd hslot

/-! ### The steps -/

theorem EmptySlotsFree.register (h : EmptySlotsFree s) (hfd : 0 ≤ fd) :
    EmptySlotsFree (s.handleGroupIdRegs now fd groups) := by
  intro x hx
  by_cases hslot : (s.clients (hashFunc fd)).clientSocketFd = -1
  · rw [Server.clients_register_of_free hslot]
    by_cases hhash : hashFunc x = hashFunc fd
    · -- the slot is not empty any more
      rw [hhash, Function.update_self]
      intro hempty
      change fd = -1 at hempty
      omega
    · rw [Function.update_of_ne hhash]
      exact h x hx
  · rw [Server.clients_register_of_taken hslot]
    exact h x hx

/-- An empty slot belongs to no member, and so gets no job. -/
theorem EmptySlotsFree.assign (h : EmptySlotsFree s) (hmembers : MembersOpen s) :
    EmptySlotsFree
      { s with
        clients := updateClientWithJobAssigned s.clients s.multicastGroups jobId groupId
          clientsAssigned } := by
  intro x hx
  simp only [updateClientWithJobAssigned_apply]
  split
  next hassigned =>
    intro hempty
    change (s.clients (hashFunc x)).clientSocketFd = -1 at hempty
    have hopen := hmembers groupId _ hassigned.2.2
    omega
  next => exact h x hx

theorem EmptySlotsFree.result (h : EmptySlotsFree s) : EmptySlotsFree (s.freeClient fd jobId) := by
  intro x hx hempty
  have hslot : (s.clients (hashFunc x)).clientSocketFd = -1 := by
    rwa [Server.freeClient, clientSocketFd_updateClientStatusToFree] at hempty
  rw [Server.freeClient]
  change (updateClientStatusToFree s.clients fd jobId (hashFunc x)).clientStatus = .free
  rw [updateClientStatusToFree]
  split
  · by_cases hhash : hashFunc x = hashFunc fd
    · rw [hhash, Function.update_self]
    · rw [Function.update_of_ne hhash]
      exact h x hx hslot
  · exact h x hx hslot

/-- A removal leaves the status of the client in the slot. -/
theorem emptySlotsFree_remove_iff (h : EmptySlotsFree s) (hfd : 0 ≤ fd) :
    EmptySlotsFree { s with clients := (removeClient s.clients fd).2 } ↔
      RemovesFree (.remove fd) s := by
  by_cases hslot : (s.clients (hashFunc fd)).clientSocketFd = fd
  · rw [RemovesFree, removeClient_of_eq hslot]
    constructor
    · intro hempty _
      simpa using hempty fd hfd
    · intro hfree x hx
      by_cases hhash : hashFunc x = hashFunc fd
      · simpa [hhash] using hfree hslot
      · simpa [Function.update_of_ne hhash] using h x hx
  · rw [RemovesFree, removeClient_of_ne hslot]
    exact iff_of_true h fun hcontra => absurd hcontra hslot

/-! ### Runs -/

theorem membersOpen_step {a : Action} (h : MembersOpen s) (hstep : step a s = some s') :
    MembersOpen s' := by
  cases a with
  | register now fd groups =>
    obtain ⟨hguard, rfl⟩ := by simpa [step] using hstep
    intro g x hx
    rcases mem_head_addAClientToGroups.mp hx with hx | ⟨rfl, -⟩
    · exact h g x hx
    · exact hguard.1
  | assign jobId groupId clientsAssigned =>
    obtain ⟨-, rfl⟩ := by simpa [step] using hstep
    exact h
  | result fd jobId =>
    obtain ⟨-, rfl⟩ := by simpa [step] using hstep
    exact h
  | remove fd =>
    obtain ⟨-, rfl⟩ := by simpa [step] using hstep
    exact h

/-- A step leaves new clients free exactly if it meets the condition. -/
theorem newClientsFree_step_iff {a : Action} (hmembers : MembersOpen s) (h : NewClientsFree s)
    (hstep : step a s = some s') : NewClientsFree s' ↔ RemovesFree a s := by
  rw [newClientsFree_iff] at h ⊢
  cases a with
  | register now fd groups =>
    obtain ⟨hguard, rfl⟩ := by simpa [step] using hstep
    exact iff_of_true (h.register hguard.1) trivial
  | assign jobId groupId clientsAssigned =>
    obtain ⟨-, rfl⟩ := by simpa [step] using hstep
    exact iff_of_true (h.assign hmembers) trivial
  | result fd jobId =>
    obtain ⟨-, rfl⟩ := by simpa [step] using hstep
    exact iff_of_true h.result trivial
  | remove fd =>
    obtain ⟨hfd, rfl⟩ := by simpa [step] using hstep
    exact emptySlotsFree_remove_iff h hfd

theorem membersOpen_initialServer : MembersOpen initialServer :=
  fun _ _ hfd => absurd hfd List.not_mem_nil

theorem newClientsFree_initialServer : NewClientsFree initialServer :=
  newClientsFree_iff.mpr fun _ _ _ => rfl

/-- New clients are free in every state of a run if and only if every client that the run
removes is free. -/
theorem newClientsFree_along_iff (as : List Action) :
    Along step NewClientsFree as initialServer ↔ Meets step RemovesFree as initialServer :=
  along_iff_meets (fun _ _ _ hmembers hstep => membersOpen_step hmembers hstep)
    (fun _ _ _ hmembers h hstep => newClientsFree_step_iff hmembers h hstep)
    membersOpen_initialServer newClientsFree_initialServer

/-- A client gets a job and is removed before it returns the result. -/
def removedBusy : List Action := [.register 0 5 [1], .assign 1 1 [5], .remove 5]

/-- The next client with its descriptor would be busy. -/
theorem not_newClientsFree_removedBusy :
    ∃ s, run step removedBusy initialServer = some s ∧ ¬ NewClientsFree s := by
  have hrun : (run step removedBusy initialServer).map
      (fun s => ((addClient 0 s.clients 5 [1]).1,
        ((s.handleGroupIdRegs 0 5 [1]).clients (hashFunc 5)).clientStatus)) =
        some (0, .busy) := by decide +kernel
  obtain ⟨s, hs, heq⟩ := Option.map_eq_some_iff.mp hrun
  obtain ⟨hcode, hbusy⟩ := Prod.mk.inj heq
  refine ⟨s, hs, fun h => ?_⟩
  have hfree := (h 0 5 [1] (by decide) (by decide) hcode).1
  rw [hbusy] at hfree
  cases hfree

end Multicast.NewClients
