import Mathlib.Data.Nat.Notation
import Mathlib.Tactic.Tauto
import Multicast.Server.Clients

/-!
# The multicast groups

A group keeps its status, the job that it works on and the list of its members, the
last one that joined first. Joining adds an entry to the list of every group that is
named, as often as it is named; whether the client gets a slot in the client table is
decided elsewhere.

## Main definitions

* `Multicast.Group` — a group
* `Multicast.addAClientToGroups`, `removeClientFromGroups` — a client joins and leaves
* `Multicast.findFreeGroup` — the group for the next job
* `Multicast.findFreeClientsInAGroup` — the members that are free
* `Multicast.updateClientWithJobAssigned` — members become busy

## Main results

* `mem_head_addAClientToGroups` — the members after a client joined
* `findFreeGroup_spec` — a group that is found is free and not empty
* `mem_findFreeClientsInAGroup` — the clients that are found
* `updateClientWithJobAssigned_apply` — the slots that become busy
-/

set_option autoImplicit false

namespace Multicast

/-- `struct group`. The linked list `head` is the list of its descriptors. -/
structure Group where
  groupStatus : Status
  jobId : ℤ
  numOfClients : ℤ
  head : List ℤ
deriving DecidableEq

/-- `multicast_groups`. -/
abbrev MulticastGroups := ℤ → Group

/-- `NUMBER_OF_GROUPS`. -/
def numberOfGroups : ℕ := 1000

/-- The ids of groups that exist. -/
def ValidGroups (groups : List ℤ) : Prop := ∀ g ∈ groups, 0 ≤ g ∧ g < numberOfGroups

instance (groups : List ℤ) : Decidable (ValidGroups groups) :=
  inferInstanceAs (Decidable (∀ g ∈ groups, 0 ≤ g ∧ g < numberOfGroups))

/-- `initialize_group_array`. -/
def initializeGroupArray : MulticastGroups := fun _ =>
  { groupStatus := .free
    jobId := -1
    numOfClients := 0
    head := [] }

/-- One round of the loop of `add_a_client_to_groups`. -/
def addAClientToGroup (clientSocketFd : ℤ) (multicastGroups : MulticastGroups) (g : ℤ) :
    MulticastGroups :=
  Function.update multicastGroups g
    { multicastGroups g with
      numOfClients := (multicastGroups g).numOfClients + 1
      head := clientSocketFd :: (multicastGroups g).head }

/-- `add_a_client_to_groups`. -/
def addAClientToGroups (multicastGroups : MulticastGroups) (clientSocketFd : ℤ)
    (groups : List ℤ) : MulticastGroups :=
  groups.foldl (addAClientToGroup clientSocketFd) multicastGroups

/-- One round of the loop of `remove_client_from_groups`: the first entry of the client
goes, the count of the members stays. -/
def removeClientFromGroup (clientSocketFd : ℤ) (multicastGroups : MulticastGroups) (g : ℤ) :
    MulticastGroups :=
  Function.update multicastGroups g
    { multicastGroups g with head := (multicastGroups g).head.erase clientSocketFd }

/-- `remove_client_from_groups`. -/
def removeClientFromGroups (multicastGroups : MulticastGroups) (clientSocketFd : ℤ)
    (groupsJoined : List ℤ) : MulticastGroups :=
  groupsJoined.foldl (removeClientFromGroup clientSocketFd) multicastGroups

/-- `find_free_group`. -/
def findFreeGroup (multicastGroups : MulticastGroups) : ℤ :=
  match (List.range numberOfGroups).find? fun i : ℕ =>
      (multicastGroups i).groupStatus = .free ∧ (multicastGroups i).head ≠ [] with
  | some i => (i : ℤ)
  | none => -1

/-- The test that both loops of `find_free_clients_in_a_group` make. -/
def isFreeClient (clients : Clients) (fd : ℤ) : Bool :=
  (clients (hashFunc fd)).clientSocketFd = fd ∧ (clients (hashFunc fd)).clientStatus = .free

/-- `find_free_clients_in_a_group`: the array that is filled, its size being the number
of entries; none if the function leaves both outputs as they are. -/
def findFreeClientsInAGroup (clients : Clients) (multicastGroups : MulticastGroups)
    (groupId : ℤ) : Option (List ℤ) :=
  if (multicastGroups groupId).head ≠ [] then
    some ((multicastGroups groupId).head.filter (isFreeClient clients))
  else none

/-- `update_group_with_job_assigned`. -/
def updateGroupWithJobAssigned (multicastGroups : MulticastGroups) (groupId jobId : ℤ) :
    MulticastGroups :=
  Function.update multicastGroups groupId
    { multicastGroups groupId with jobId := jobId, groupStatus := .busy }

/-- `update_group_status_to_free`. -/
def updateGroupStatusToFree (multicastGroups : MulticastGroups) (groupId jobId : ℤ) :
    MulticastGroups :=
  if (multicastGroups groupId).jobId = jobId then
    Function.update multicastGroups groupId
      { multicastGroups groupId with groupStatus := .free }
  else multicastGroups

/-- `is_client_present`. -/
def isClientPresent (clientSocketFd : ℤ) (clientsAssigned : List ℤ) : Bool :=
  clientsAssigned.contains clientSocketFd

/-- One round of the loop of `update_client_with_job_assigned`. -/
def assignJob (jobId : ℤ) (clientsAssigned : List ℤ) (clients : Clients) (fd : ℤ) : Clients :=
  if isClientPresent fd clientsAssigned ∧ (clients (hashFunc fd)).clientSocketFd = fd then
    Function.update clients (hashFunc fd)
      { clients (hashFunc fd) with jobId := jobId, clientStatus := .busy }
  else clients

/-- `update_client_with_job_assigned`. -/
def updateClientWithJobAssigned (clients : Clients) (multicastGroups : MulticastGroups)
    (jobId groupId : ℤ) (clientsAssigned : List ℤ) : Clients :=
  (multicastGroups groupId).head.foldl (assignJob jobId clientsAssigned) clients

variable {clients : Clients} {multicastGroups : MulticastGroups}
variable {fd fd' g g' i jobId : ℤ} {groups assigned : List ℤ}

/-! ### Joining -/

theorem addAClientToGroups_cons :
    addAClientToGroups multicastGroups fd (g :: groups) =
      addAClientToGroups (addAClientToGroup fd multicastGroups g) fd groups := rfl

/-- Joining changes the members and their number, nothing else. -/
theorem addAClientToGroups_apply (multicastGroups : MulticastGroups) (fd : ℤ)
    (groups : List ℤ) (g : ℤ) :
    ∃ head num, addAClientToGroups multicastGroups fd groups g =
      { multicastGroups g with head := head, numOfClients := num } := by
  induction groups generalizing multicastGroups with
  | nil => exact ⟨_, _, rfl⟩
  | cons g' groups ih =>
    rw [addAClientToGroups_cons]
    obtain ⟨head, num, heq⟩ := ih (addAClientToGroup fd multicastGroups g')
    refine ⟨head, num, ?_⟩
    rw [heq, addAClientToGroup]
    by_cases hg : g = g'
    · simp [hg]
    · simp [Function.update_of_ne hg]

@[simp] theorem groupStatus_addAClientToGroups :
    (addAClientToGroups multicastGroups fd groups g).groupStatus =
      (multicastGroups g).groupStatus := by
  obtain ⟨head, num, heq⟩ := addAClientToGroups_apply multicastGroups fd groups g
  rw [heq]

@[simp] theorem jobId_addAClientToGroups :
    (addAClientToGroups multicastGroups fd groups g).jobId = (multicastGroups g).jobId := by
  obtain ⟨head, num, heq⟩ := addAClientToGroups_apply multicastGroups fd groups g
  rw [heq]

/-- The client is added once for each time that the group is named. -/
theorem head_addAClientToGroups :
    (addAClientToGroups multicastGroups fd groups g).head =
      List.replicate (groups.count g) fd ++ (multicastGroups g).head := by
  induction groups generalizing multicastGroups with
  | nil => rfl
  | cons g' groups ih =>
    rw [addAClientToGroups_cons, ih, addAClientToGroup]
    by_cases hg : g = g'
    · subst hg
      rw [Function.update_self, List.count_cons_self, List.replicate_succ']
      simp
    · rw [Function.update_of_ne hg, List.count_cons_of_ne (Ne.symm hg)]

/-- So is the number of the members. -/
theorem numOfClients_addAClientToGroups :
    (addAClientToGroups multicastGroups fd groups g).numOfClients =
      (multicastGroups g).numOfClients + groups.count g := by
  induction groups generalizing multicastGroups with
  | nil => simp [addAClientToGroups]
  | cons g' groups ih =>
    rw [addAClientToGroups_cons, ih, addAClientToGroup]
    by_cases hg : g = g'
    · subst hg
      rw [Function.update_self, List.count_cons_self]
      push_cast
      omega
    · rw [Function.update_of_ne hg, List.count_cons_of_ne (Ne.symm hg)]

/-- The members of a group after a client joined. -/
theorem mem_head_addAClientToGroups :
    i ∈ (addAClientToGroups multicastGroups fd groups g).head ↔
      i ∈ (multicastGroups g).head ∨ (i = fd ∧ g ∈ groups) := by
  rw [head_addAClientToGroups, List.mem_append, List.mem_replicate, Ne, List.count_eq_zero, not_not]
  tauto

/-- A group that has members keeps them. -/
theorem head_addAClientToGroups_ne_nil (h : (multicastGroups g).head ≠ []) :
    (addAClientToGroups multicastGroups fd groups g).head ≠ [] := by
  obtain ⟨i, hi⟩ := List.exists_mem_of_ne_nil _ h
  exact List.ne_nil_of_mem (mem_head_addAClientToGroups.mpr (.inl hi))

/-! ### The group for a job -/

/-- What `find_free_group` finds: `-1`, or the index of a group that is free and has
members. -/
theorem findFreeGroup_spec (h : findFreeGroup multicastGroups ≠ -1) :
    (multicastGroups (findFreeGroup multicastGroups)).groupStatus = .free ∧
      (multicastGroups (findFreeGroup multicastGroups)).head ≠ [] ∧
      0 ≤ findFreeGroup multicastGroups ∧ findFreeGroup multicastGroups < numberOfGroups := by
  unfold findFreeGroup at h ⊢
  -- the number of groups does not matter, and `simp` would evaluate the list
  generalize numberOfGroups = n at h ⊢
  split at h
  next i hfound =>
    have hfree := List.find?_some hfound
    have hmem := List.mem_of_find?_eq_some hfound
    simp only [decide_eq_true_eq] at hfree
    rw [List.mem_range] at hmem
    exact ⟨hfree.1, hfree.2, by omega, by omega⟩
  next => exact absurd rfl h

@[simp] theorem updateGroupWithJobAssigned_self :
    updateGroupWithJobAssigned multicastGroups g jobId g =
      { multicastGroups g with jobId := jobId, groupStatus := .busy } :=
  Function.update_self ..

theorem updateGroupWithJobAssigned_of_ne (h : g' ≠ g) :
    updateGroupWithJobAssigned multicastGroups g jobId g' = multicastGroups g' :=
  Function.update_of_ne h ..

/-- Freeing a group changes its status, when it works on the job. -/
theorem updateGroupStatusToFree_apply (g' : ℤ) :
    updateGroupStatusToFree multicastGroups g jobId g' =
      if g' = g ∧ (multicastGroups g).jobId = jobId then
        { multicastGroups g' with groupStatus := .free }
      else multicastGroups g' := by
  rw [updateGroupStatusToFree]
  by_cases hg : g' = g
  · subst hg
    split <;> simp_all
  · split
    · rw [Function.update_of_ne hg, if_neg (fun h => hg h.1)]
    · rw [if_neg (fun h => hg h.1)]

@[simp] theorem jobId_updateGroupStatusToFree :
    (updateGroupStatusToFree multicastGroups g jobId g').jobId = (multicastGroups g').jobId := by
  rw [updateGroupStatusToFree_apply]
  split <;> rfl

@[simp] theorem head_updateGroupStatusToFree :
    (updateGroupStatusToFree multicastGroups g jobId g').head = (multicastGroups g').head := by
  rw [updateGroupStatusToFree_apply]
  split <;> rfl

/-! ### The free members -/

theorem isFreeClient_iff : isFreeClient clients fd ↔
    (clients (hashFunc fd)).clientSocketFd = fd ∧
      (clients (hashFunc fd)).clientStatus = .free := by
  simp [isFreeClient]

/-- Who is free after one slot was written. -/
theorem isFreeClient_update {info : ClientInfo} :
    isFreeClient (Function.update clients i info) fd ↔
      if hashFunc fd = i then info.clientSocketFd = fd ∧ info.clientStatus = .free
      else isFreeClient clients fd := by
  rw [isFreeClient_iff]
  by_cases hhash : hashFunc fd = i
  · rw [if_pos hhash, hhash, Function.update_self]
  · rw [if_neg hhash, Function.update_of_ne hhash, isFreeClient_iff]

/-- A result makes its sender free if it is the one of the job in its slot. -/
theorem isFreeClient_result :
    isFreeClient (updateClientStatusToFree clients fd jobId) fd' ↔
      isFreeClient clients fd' ∨ (fd' = fd ∧ (clients (hashFunc fd)).clientSocketFd = fd ∧
        (clients (hashFunc fd)).jobId = jobId) := by
  rw [updateClientStatusToFree]
  split
  next hmatch =>
    rw [isFreeClient_update]
    by_cases hhash : hashFunc fd' = hashFunc fd
    · -- whoever is free in this slot is the sender
      rw [if_pos hhash]
      constructor
      · rintro ⟨hslot, -⟩
        exact .inr ⟨hslot.symm.trans hmatch.1, hmatch⟩
      · rintro (hfree | ⟨rfl, -⟩)
        · rw [isFreeClient_iff, hhash] at hfree
          exact ⟨hfree.1, rfl⟩
        · exact ⟨hmatch.1, rfl⟩
    · rw [if_neg hhash]
      refine (or_iff_left ?_).symm
      rintro ⟨rfl, -⟩
      exact hhash rfl
  next hmatch => exact (or_iff_left fun h => hmatch h.2).symm

/-- The clients that are found are the free members. -/
theorem mem_findFreeClientsInAGroup {found : List ℤ}
    (h : findFreeClientsInAGroup clients multicastGroups g = some found) :
    fd ∈ found ↔ fd ∈ (multicastGroups g).head ∧ isFreeClient clients fd := by
  rw [findFreeClientsInAGroup] at h
  split at h
  · obtain rfl := Option.some.inj h
    exact List.mem_filter
  · cases h

theorem findFreeClientsInAGroup_of_ne_nil (h : (multicastGroups g).head ≠ []) :
    findFreeClientsInAGroup clients multicastGroups g =
      some ((multicastGroups g).head.filter (isFreeClient clients)) := if_pos h

/-! ### Members become busy -/

private theorem assignJob_apply (fd i : ℤ) :
    assignJob jobId assigned clients fd i =
      if i = hashFunc fd ∧ fd ∈ assigned ∧ (clients i).clientSocketFd = fd then
        { clients i with jobId := jobId, clientStatus := .busy }
      else clients i := by
  rw [assignJob]
  by_cases hi : i = hashFunc fd
  · subst hi
    simp only [isClientPresent, List.contains_iff_mem, true_and]
    split <;> simp
  · simp only [hi, false_and, if_false]
    split
    · exact Function.update_of_ne hi ..
    · rfl

private theorem foldl_assignJob_apply (fds : List ℤ) (clients : Clients) (i : ℤ) :
    fds.foldl (assignJob jobId assigned) clients i =
      if i = hashFunc (clients i).clientSocketFd ∧ (clients i).clientSocketFd ∈ assigned ∧
          (clients i).clientSocketFd ∈ fds then
        { clients i with jobId := jobId, clientStatus := .busy }
      else clients i := by
  induction fds generalizing clients with
  | nil => simp
  | cons fd fds ih =>
    rw [List.foldl_cons, ih]
    by_cases hhere : i = hashFunc fd ∧ fd ∈ assigned ∧ (clients i).clientSocketFd = fd
    · -- the slot is marked now, and a second mark would change nothing
      obtain ⟨hi, hassigned, rfl⟩ := hhere
      have hmember : i = hashFunc (clients i).clientSocketFd ∧
          (clients i).clientSocketFd ∈ assigned ∧
          (clients i).clientSocketFd ∈ (clients i).clientSocketFd :: fds :=
        ⟨hi, hassigned, List.mem_cons_self⟩
      have hassign : assignJob jobId assigned clients (clients i).clientSocketFd i =
          { clients i with jobId := jobId, clientStatus := .busy } := by
        rw [assignJob_apply, if_pos ⟨hi, hassigned, rfl⟩]
      rw [hassign, if_pos hmember]
      split <;> rfl
    · -- this entry of the list does not concern the slot
      rw [assignJob_apply, if_neg hhere]
      refine if_congr ?_ rfl rfl
      rw [List.mem_cons]
      constructor
      · rintro ⟨hi, hassigned, hmem⟩
        exact ⟨hi, hassigned, .inr hmem⟩
      · rintro ⟨hi, hassigned, rfl | hmem⟩
        · exact absurd ⟨hi, hassigned, rfl⟩ hhere
        · exact ⟨hi, hassigned, hmem⟩

/-- The slots that become busy: those of the members that are assigned. -/
theorem updateClientWithJobAssigned_apply (i : ℤ) :
    updateClientWithJobAssigned clients multicastGroups jobId g assigned i =
      if i = hashFunc (clients i).clientSocketFd ∧ (clients i).clientSocketFd ∈ assigned ∧
          (clients i).clientSocketFd ∈ (multicastGroups g).head then
        { clients i with jobId := jobId, clientStatus := .busy }
      else clients i :=
  foldl_assignJob_apply _ _ _

/-- A job makes its clients busy, and frees nobody. -/
theorem isFreeClient_assign :
    isFreeClient (updateClientWithJobAssigned clients multicastGroups jobId g assigned) fd ↔
      isFreeClient clients fd ∧ ¬(fd ∈ assigned ∧ fd ∈ (multicastGroups g).head) := by
  rw [isFreeClient_iff, updateClientWithJobAssigned_apply]
  split
  next hassigned =>
    -- the slot has a client of the job, and only that one could be free in it
    refine iff_of_false (fun h => nomatch h.2) ?_
    rintro ⟨hfree, hnot⟩
    rw [(isFreeClient_iff.mp hfree).1] at hassigned
    exact hnot hassigned.2
  next hassigned =>
    rw [← isFreeClient_iff]
    refine (and_iff_left_of_imp fun hfree hmem => hassigned ?_).symm
    rw [(isFreeClient_iff.mp hfree).1]
    exact ⟨rfl, hmem⟩

end Multicast
