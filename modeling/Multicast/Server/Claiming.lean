import Multicast.Server.State

/-!
# Claiming the free members of a group

A group handler collects the free members of its group, in two walks over the list: the
first counts them, the second fills an array of that many entries. It marks them busy with
its job. Each of them is marked free again when its result arrives.

## Main definitions

* `Multicast.countFreeClients`, `fillFreeClients` — the two walks
* `Multicast.Claiming.claim`, `release` — the clients become busy, and free again
* `ClaimsFree` — what claiming the clients that were found does

## Main results

* `twoPasses_eq` — the array is filled, and holds the free members in order
* `claimsFree_freeClients` — the free members of every group with members can be claimed
-/

set_option autoImplicit false

namespace Multicast

/-- The first loop of `find_free_clients_in_a_group`. -/
def countFreeClients (clients : Clients) : List ℤ → ℕ → ℕ
  | [], count => count
  | fd :: curr, count =>
    countFreeClients clients curr (if isFreeClient clients fd then count + 1 else count)

/-- The second loop, from the entry `j` on. An entry that was not written has no value; none
if the loop writes behind the array. -/
def fillFreeClients (clients : Clients) :
    List ℤ → ℕ → List (Option ℤ) → Option (List (Option ℤ))
  | [], _, freeClients => some freeClients
  | fd :: curr, j, freeClients =>
    if isFreeClient clients fd then
      if j < freeClients.length then
        fillFreeClients clients curr (j + 1)
          (freeClients.set j (some (clients (hashFunc fd)).clientSocketFd))
      else none
    else fillFreeClients clients curr j freeClients

/-- Both loops over the members of a group: the size and the array. -/
def twoPasses (clients : Clients) (head : List ℤ) : Option (ℕ × List (Option ℤ)) :=
  let count := countFreeClients clients head 0
  (fillFreeClients clients head 0 (List.replicate count none)).map fun arr => (count, arr)

namespace Claiming

/-- The call of `update_client_with_job_assigned` with the array that was filled. -/
def claim (s : Server) (jobId groupId : ℤ) (clientsAssigned : List ℤ) : Server :=
  { s with
    clients := updateClientWithJobAssigned s.clients s.multicastGroups jobId groupId
      clientsAssigned }

/-- A call of `update_client_status_to_free` for each of the clients. -/
def release (s : Server) (jobId : ℤ) (clientsAssigned : List ℤ) : Server :=
  clientsAssigned.foldl (fun s fd => s.freeClient fd jobId) s

/-- The clients `found` are the free members of the group, each as often as it is listed;
claiming them changes their records and nothing else, so that no free member is left; and
releasing them brings the same members back. -/
structure ClaimsFree (s : Server) (g jobId : ℤ) (found : List ℤ) : Prop where
  found_eq : found = (s.multicastGroups g).head.filter fun fd =>
    (s.clients (hashFunc fd)).clientSocketFd = fd ∧ (s.clients (hashFunc fd)).clientStatus = .free
  twoPasses_eq :
    twoPasses s.clients (s.multicastGroups g).head = some (found.length, found.map some)
  clients_claim : ∀ i, (claim s jobId g found).clients i =
    if ∃ fd ∈ found, hashFunc fd = i then
      { s.clients i with jobId := jobId, clientStatus := .busy }
    else s.clients i
  claim_eq : claim s jobId g found = { s with clients := (claim s jobId g found).clients }
  freeClients_claim : (claim s jobId g found).freeClients g = some []
  freeClients_release :
    (release (claim s jobId g found) jobId found).freeClients g = some found

variable {s : Server} {found fds : List ℤ} {fd g jobId : ℤ}

/-! ### The two walks -/

theorem countFreeClients_eq (clients : Clients) (head : List ℤ) (count : ℕ) :
    countFreeClients clients head count =
      count + (head.filter (isFreeClient clients)).length := by
  induction head generalizing count with
  | nil => rfl
  | cons fd head ih =>
    rw [countFreeClients, ih, List.filter_cons]
    split
    · rw [List.length_cons]
      omega
    · rfl

/-- The second walk, when it has written `front`, has as many entries left as it meets free
members. -/
theorem fillFreeClients_eq (clients : Clients) (head front : List ℤ) :
    fillFreeClients clients head front.length
        (front.map some ++ List.replicate (head.filter (isFreeClient clients)).length none) =
      some ((front ++ head.filter (isFreeClient clients)).map some) := by
  induction head generalizing front with
  | nil => simp [fillFreeClients]
  | cons fd head ih =>
    rw [fillFreeClients, List.filter_cons]
    split
    next hfree =>
      have hroom : front.length < (front.map some ++ List.replicate
          (fd :: head.filter (isFreeClient clients)).length (none : Option ℤ)).length := by
        simp
      -- the entry is the next one that has no value
      have hset : (front.map some ++ List.replicate
          (fd :: head.filter (isFreeClient clients)).length none).set front.length (some fd) =
          (front ++ [fd]).map some ++
            List.replicate (head.filter (isFreeClient clients)).length none := by
        simp [List.replicate_succ]
      have hlength : front.length + 1 = (front ++ [fd]).length := by
        rw [List.length_append, List.length_singleton]
      rw [if_pos hroom, (isFreeClient_iff.mp hfree).1, hset, hlength, ih, List.append_assoc]
      rfl
    next => exact ih front

/-- The second walk fills the array of the first with the free members. -/
theorem twoPasses_eq (clients : Clients) (head : List ℤ) :
    twoPasses clients head =
      some ((head.filter (isFreeClient clients)).length,
        (head.filter (isFreeClient clients)).map some) := by
  have hcount := countFreeClients_eq clients head 0
  rw [Nat.zero_add] at hcount
  have hfill := fillFreeClients_eq clients head []
  rw [List.map_nil, List.nil_append, List.length_nil, List.nil_append] at hfill
  rw [twoPasses, hcount, hfill]
  rfl

/-! ### Claiming and releasing -/

/-- The slots of the clients that are claimed. -/
theorem clients_claim (hfound : s.freeClients g = some found) (i : ℤ) :
    (claim s jobId g found).clients i =
      if ∃ fd ∈ found, hashFunc fd = i then
        { s.clients i with jobId := jobId, clientStatus := .busy }
      else s.clients i := by
  refine (updateClientWithJobAssigned_apply i).trans (if_congr ?_ rfl rfl)
  constructor
  · rintro ⟨hi, hmem, -⟩
    exact ⟨_, hmem, hi.symm⟩
  · rintro ⟨fd, hmem, rfl⟩
    -- the slot of a client that was found has its descriptor
    obtain ⟨hmember, hfree⟩ := (mem_findFreeClientsInAGroup hfound).mp hmem
    rw [(isFreeClient_iff.mp hfree).1]
    exact ⟨rfl, hmem, hmember⟩

/-- Who is free after the clients were released. -/
theorem isFreeClient_release :
    isFreeClient (release s jobId fds).clients fd ↔
      isFreeClient s.clients fd ∨ (fd ∈ fds ∧ (s.clients (hashFunc fd)).clientSocketFd = fd ∧
        (s.clients (hashFunc fd)).jobId = jobId) := by
  induction fds generalizing s with
  | nil => simp [release]
  | cons fd' fds ih =>
    have hstep : release s jobId (fd' :: fds) = release (s.freeClient fd' jobId) jobId fds := rfl
    rw [hstep, ih, Server.freeClient]
    simp only [isFreeClient_result, clientSocketFd_updateClientStatusToFree,
      jobId_updateClientStatusToFree, List.mem_cons]
    constructor
    · rintro ((hfree | ⟨rfl, hslot⟩) | ⟨hmem, hslot⟩)
      · exact .inl hfree
      · exact .inr ⟨.inl rfl, hslot⟩
      · exact .inr ⟨.inr hmem, hslot⟩
    · rintro (hfree | ⟨rfl | hmem, hslot⟩)
      · exact .inl (.inl hfree)
      · exact .inl (.inr ⟨rfl, hslot⟩)
      · exact .inr ⟨hmem, hslot⟩

theorem multicastGroups_release :
    (release s jobId fds).multicastGroups = s.multicastGroups := by
  induction fds generalizing s with
  | nil => rfl
  | cons fd fds ih => exact ih

/-- A member that is found is not free while it is claimed. -/
theorem isFreeClient_claim (hfound : s.freeClients g = some found) :
    isFreeClient (claim s jobId g found).clients fd ↔ isFreeClient s.clients fd ∧ fd ∉ found := by
  rw [claim, isFreeClient_assign]
  refine and_congr_right fun _ => not_congr (and_iff_left_of_imp fun hmem => ?_)
  exact ((mem_findFreeClientsInAGroup hfound).mp hmem).1

/-- Claiming and releasing leaves everyone as free as before. -/
theorem isFreeClient_release_claim (hfound : s.freeClients g = some found) :
    isFreeClient (release (claim s jobId g found) jobId found).clients fd ↔
      isFreeClient s.clients fd := by
  rw [isFreeClient_release, isFreeClient_claim hfound]
  constructor
  · rintro (⟨hfree, -⟩ | ⟨hmem, -⟩)
    · exact hfree
    · exact ((mem_findFreeClientsInAGroup hfound).mp hmem).2
  · intro hfree
    by_cases hmem : fd ∈ found
    · -- its record has the id of the job, and its descriptor still
      refine .inr ⟨hmem, ?_⟩
      rw [clients_claim hfound, if_pos ⟨fd, hmem, rfl⟩]
      exact ⟨(isFreeClient_iff.mp hfree).1, rfl⟩
    · exact .inl ⟨hfree, hmem⟩

/-- The free members of a group that has members are found, claimed and released, whatever
the tables and the list of the group are. -/
theorem claimsFree_freeClients (s : Server) (g jobId : ℤ)
    (hhead : (s.multicastGroups g).head ≠ []) :
    ∃ found, s.freeClients g = some found ∧ ClaimsFree s g jobId found := by
  have hfound : s.freeClients g = some _ := findFreeClientsInAGroup_of_ne_nil hhead
  refine ⟨_, hfound, rfl, twoPasses_eq .., clients_claim hfound, rfl, ?_, ?_⟩
  · -- a member that is still free would have been found, and be busy
    refine (findFreeClientsInAGroup_of_ne_nil hhead).trans (congrArg some ?_)
    refine List.filter_eq_nil_iff.mpr fun fd hmember hfree => ?_
    obtain ⟨hbefore, hnot⟩ := (isFreeClient_claim hfound).mp hfree
    exact hnot (List.mem_filter.mpr ⟨hmember, hbefore⟩)
  · have hgroups : (release (claim s jobId g
        ((s.multicastGroups g).head.filter (isFreeClient s.clients))) jobId
        ((s.multicastGroups g).head.filter (isFreeClient s.clients))).multicastGroups =
        s.multicastGroups := multicastGroups_release
    rw [Server.freeClients, findFreeClientsInAGroup_of_ne_nil (by rw [hgroups]; exact hhead),
      hgroups]
    refine congrArg some (List.filter_congr fun fd _ => ?_)
    exact Bool.eq_iff_iff.mpr (isFreeClient_release_claim hfound)

/-- Client 5 named group 1 twice. Client 255005 has the same slot and did not get it, and
client 6 joined last. -/
def crowdedServer : Server :=
  ((initialServer.handleGroupIdRegs 0 5 [1, 1]).handleGroupIdRegs 0 255005 [1]).handleGroupIdRegs
    0 6 [1]

/-- Client 5 is found and claimed twice, client 255005 not at all. -/
theorem claimsFree_crowdedServer :
    crowdedServer.freeClients 1 = some [6, 5, 5] ∧ ClaimsFree crowdedServer 1 1 [6, 5, 5] := by
  have hevaluated : crowdedServer.freeClients 1 = some [6, 5, 5] := by decide
  obtain ⟨found, hfound, hclaims⟩ := claimsFree_freeClients crowdedServer 1 1 (by decide)
  obtain rfl := Option.some.inj (hfound.symm.trans hevaluated)
  exact ⟨hfound, hclaims⟩

end Claiming

end Multicast
