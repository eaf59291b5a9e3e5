import Multicast.Server.State
import Multicast.Words

/-!
# Registrations

A registration carries the ids of the groups as words in network order. Its handler first
adds the client to the lists of these groups and then to the client table. Only the second
call can fail, and nothing looks at its answer: a client whose slot is taken is in the
lists all the same.

## Main definitions

* `Multicast.groupIds` — the ids in the payload of a message
* `Multicast.AllOrNothing` — a registration is made as a whole, or changes nothing

## Main results

* `groupIds_groupsPayload` — the ids that were sent are the ids that are read
* `allOrNothing_iff` — a registration is made as a whole, or changes nothing, exactly if
  the slot is empty or no group is named
-/

set_option autoImplicit false

namespace Multicast

/-! ### The message -/

/-- The words of a payload as `int`s. Bytes behind the last whole word are not counted. -/
def groupArray : List UInt8 → List ℤ
  | b₀ :: b₁ :: b₂ :: b₃ :: rest => (ntohl [b₀, b₁, b₂, b₃]).toInt :: groupArray rest
  | _ => []

/-- The ids that `Handle_group_id_regs` passes on. The size is an `int`: a payload of
`2 ^ 31` bytes or more has a negative one, and no id is read. -/
def groupIds (payload : List UInt8) : List ℤ :=
  if payload.length < 2 ^ 31 then groupArray payload else []

/-- The payload with which a client names its groups. -/
def groupsPayload (groups : List ℤ) : List UInt8 :=
  groups.flatMap fun g => htonl (BitVec.ofInt 32 g)

/-- `Handle_group_id_regs` on a payload. -/
def Server.handleGroupIdPayload (now : ℤ) (s : Server) (clientSocketFd : ℤ)
    (payload : List UInt8) : Server :=
  s.handleGroupIdRegs now clientSocketFd (groupIds payload)

variable {s : Server} {now fd g : ℤ} {groups : List ℤ}

theorem toInt_ofInt_of_valid (h : 0 ≤ g ∧ g < numberOfGroups) :
    (BitVec.ofInt 32 g).toInt = g := by
  have hbound : g < 1000 := h.2
  rw [BitVec.toInt_ofInt]
  exact Int.bmod_eq_of_le (by omega) (by omega)

theorem length_groupArray : ∀ payload : List UInt8,
    (groupArray payload).length = payload.length / 4
  | b₀ :: b₁ :: b₂ :: b₃ :: rest => by
    rw [groupArray, List.length_cons, length_groupArray rest]
    simp only [List.length_cons]
    omega
  | [] | [_] | [_, _] | [_, _, _] => by simp [groupArray]

/-- The words that are read are those that were sent. -/
theorem groupArray_flatMap_htonl (ids : List Word) :
    groupArray (ids.flatMap htonl) = ids.map BitVec.toInt := by
  induction ids with
  | nil => rfl
  | cons id ids ih =>
    have hword := ntohl_htonl id
    rw [htonl] at hword
    rw [List.flatMap_cons, List.map_cons, htonl]
    change (ntohl _).toInt :: groupArray (ids.flatMap htonl) = _
    rw [hword, ih]

theorem groupArray_groupsPayload (h : ValidGroups groups) :
    groupArray (groupsPayload groups) = groups := by
  have hpayload : groupsPayload groups = (groups.map (BitVec.ofInt 32)).flatMap htonl := by
    rw [groupsPayload, List.flatMap_map]
  rw [hpayload, groupArray_flatMap_htonl, List.map_map]
  exact (List.map_congr_left fun g hg => toInt_ofInt_of_valid (h g hg)).trans (List.map_id' groups)

/-- The ids that a client sends are those that the server reads, when there are few enough
for an `int`. -/
theorem groupIds_groupsPayload (h : ValidGroups groups) (hlen : groups.length < 2 ^ 29) :
    groupIds (groupsPayload groups) = groups := by
  have hbytes : (groupsPayload groups).length = 4 * groups.length := by
    simp [groupsPayload, List.length_flatMap, Nat.mul_comm]
  rw [groupIds, if_pos (by omega), groupArray_groupsPayload h]

/-! ### All or nothing -/

/-- Each group has the client added once for every time that it is named, and the record of
the client lists exactly the groups that were named. -/
structure Registered (s s' : Server) (fd : ℤ) (groups : List ℤ) : Prop where
  members : ∀ g, (s'.multicastGroups g).head =
    List.replicate (groups.count g) fd ++ (s.multicastGroups g).head
  number : ∀ g, (s'.multicastGroups g).numOfClients =
    (s.multicastGroups g).numOfClients + groups.count g
  slot : (s'.clients (hashFunc fd)).clientSocketFd = fd
  record : (s'.clients (hashFunc fd)).groupsJoined = groups ∧
    (s'.clients (hashFunc fd)).numberOfGroups = groups.length

/-- The client table and the members of all groups are as they were. -/
structure Unregistered (s s' : Server) : Prop where
  clients : s'.clients = s.clients
  members : ∀ g, (s'.multicastGroups g).head = (s.multicastGroups g).head
  number : ∀ g, (s'.multicastGroups g).numOfClients = (s.multicastGroups g).numOfClients

/-- `add_client` succeeds and the registration is made, or it fails and nothing changes. -/
def AllOrNothing (now : ℤ) (s : Server) (fd : ℤ) (groups : List ℤ) : Prop :=
  ((addClient now s.clients fd groups).1 = 0 ∧
      Registered s (s.handleGroupIdRegs now fd groups) fd groups) ∨
    ((addClient now s.clients fd groups).1 = -1 ∧
      Unregistered s (s.handleGroupIdRegs now fd groups))

theorem registered_of_free (hfree : (s.clients (hashFunc fd)).clientSocketFd = -1) :
    Registered s (s.handleGroupIdRegs now fd groups) fd groups := by
  constructor
  case members => exact fun g => head_addAClientToGroups
  case number => exact fun g => numOfClients_addAClientToGroups
  all_goals simp [Server.clients_register_of_free hfree]

/-- A registration that names a group changes the members of that group. -/
theorem not_unregistered_of_ne_nil (hne : groups ≠ []) :
    ¬ Unregistered s (s.handleGroupIdRegs now fd groups) := by
  intro h
  obtain ⟨g, hg⟩ := List.exists_mem_of_ne_nil groups hne
  have hnumber := h.number g
  have hcount := List.count_pos_iff.mpr hg
  rw [Server.handleGroupIdRegs, numOfClients_addAClientToGroups] at hnumber
  omega

theorem unregistered_of_taken (htaken : (s.clients (hashFunc fd)).clientSocketFd ≠ -1) :
    Unregistered s (s.handleGroupIdRegs now fd []) where
  clients := Server.clients_register_of_taken htaken
  members _ := rfl
  number _ := rfl

/-- A registration is made as a whole, or changes nothing, if and only if the slot of the
client is empty or the message names no group. -/
theorem allOrNothing_iff (now : ℤ) (s : Server) (fd : ℤ) (groups : List ℤ) :
    AllOrNothing now s fd groups ↔
      (s.clients (hashFunc fd)).clientSocketFd = -1 ∨ groups = [] := by
  by_cases hfree : (s.clients (hashFunc fd)).clientSocketFd = -1
  · refine iff_of_true (.inl ⟨?_, registered_of_free hfree⟩) (.inl hfree)
    rw [addClient_of_free hfree]
  · rw [AllOrNothing, addClient_of_taken hfree]
    constructor
    · rintro (⟨hcode, -⟩ | ⟨-, hsame⟩)
      · cases hcode
      · exact .inr (not_imp_not.mp not_unregistered_of_ne_nil hsame)
    · rintro (hslot | rfl)
      · exact absurd hslot hfree
      · exact .inr ⟨rfl, unregistered_of_taken hfree⟩

/-- A client that registered for group 1. -/
def registeredServer : Server := initialServer.handleGroupIdRegs 0 5 [1]

/-- It registers again, for group 2, and is in the list of that group then. -/
theorem not_allOrNothing_registeredServer : ¬ AllOrNothing 1 registeredServer 5 [2] := by
  have hcode : (addClient 1 registeredServer.clients 5 [2]).1 = -1 := by decide +kernel
  rintro (⟨hzero, -⟩ | ⟨-, hsame⟩)
  · rw [hcode] at hzero
    cases hzero
  · exact not_unregistered_of_ne_nil (List.cons_ne_nil 2 []) hsame

end Multicast
