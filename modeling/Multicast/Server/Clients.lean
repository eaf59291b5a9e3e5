import Mathlib.Data.Int.Notation
import Mathlib.Logic.Function.Basic

/-!
# The client table

`clients` is an array with a slot for every remainder of a descriptor. A slot with
the descriptor `-1` is empty. An index into the array is an integer here, and so is
a descriptor; slots outside the array are never written for a descriptor that a
client can have.

## Main definitions

* `Multicast.ClientInfo` — a slot
* `Multicast.hashFunc` — the slot of a descriptor
* `Multicast.addClient`, `removeClient` — a client comes and goes
* `Multicast.updateClientStatusToFree` — a client returned its result

## Main results

* `addClient_of_free`, `addClient_of_taken` — the two ways a registration can go
* `removeClient_of_eq`, `removeClient_of_ne` — and a removal
* `removeClient_apply`, `removeClient_of_place` — the slots after a removal
-/

set_option autoImplicit false

namespace Multicast

/-- `enum STATUS`. -/
inductive Status where
  | free
  | busy
deriving DecidableEq, Repr

/-- `struct client_info`. The array `groups_joined` is the list of its entries, empty
for a null pointer; the thread id is read by no function of the table. -/
structure ClientInfo where
  clientSocketFd : ℤ
  clientStatus : Status
  jobId : ℤ
  msg : Option String
  groupsJoined : List ℤ
  numberOfGroups : ℤ
  timestamp : ℤ
deriving DecidableEq

/-- `clients`. -/
abbrev Clients := ℤ → ClientInfo

/-- `initialize_client_array`, on an array that is zero. -/
def initializeClientArray : Clients := fun _ =>
  { clientSocketFd := -1
    clientStatus := .free
    jobId := 0
    msg := none
    groupsJoined := []
    numberOfGroups := 0
    timestamp := 0 }

/-- `hash_func`. -/
def hashFunc (socketFd : ℤ) : ℤ := socketFd.tmod 255000

/-- `add_client` at time `now`: the return value and the table. -/
def addClient (now : ℤ) (clients : Clients) (socketFd : ℤ) (groups : List ℤ) : ℤ × Clients :=
  let i := hashFunc socketFd
  if (clients i).clientSocketFd = -1 then
    (0, Function.update clients i
      { clients i with
        clientSocketFd := socketFd
        msg := none
        groupsJoined := groups
        numberOfGroups := groups.length
        timestamp := now })
  else (-1, clients)

/-- `remove_client`. The status and the job of the slot stay. -/
def removeClient (clients : Clients) (socketFd : ℤ) : ℤ × Clients :=
  let i := hashFunc socketFd
  if (clients i).clientSocketFd = socketFd then
    (0, Function.update clients i
      { clients i with
        clientSocketFd := -1
        msg := none
        groupsJoined := []
        numberOfGroups := 0 })
  else (-1, clients)

/-- The record that `remove_client` leaves in the slot of a client. -/
def ClientInfo.removed (info : ClientInfo) : ClientInfo :=
  { info with
    clientSocketFd := -1
    msg := none
    groupsJoined := []
    numberOfGroups := 0 }

/-- `update_client_status_to_free`. -/
def updateClientStatusToFree (clients : Clients) (clientSocketFd jobId : ℤ) : Clients :=
  let i := hashFunc clientSocketFd
  if (clients i).clientSocketFd = clientSocketFd ∧ (clients i).jobId = jobId then
    Function.update clients i { clients i with clientStatus := .free }
  else clients

variable {clients : Clients} {now fd jobId : ℤ} {groups : List ℤ} {i : ℤ}

theorem addClient_of_free (h : (clients (hashFunc fd)).clientSocketFd = -1) :
    addClient now clients fd groups = (0, Function.update clients (hashFunc fd)
      { clients (hashFunc fd) with
        clientSocketFd := fd
        msg := none
        groupsJoined := groups
        numberOfGroups := groups.length
        timestamp := now }) := if_pos h

theorem addClient_of_taken (h : (clients (hashFunc fd)).clientSocketFd ≠ -1) :
    addClient now clients fd groups = (-1, clients) := if_neg h

theorem removeClient_of_eq (h : (clients (hashFunc fd)).clientSocketFd = fd) :
    removeClient clients fd = (0, Function.update clients (hashFunc fd)
      { clients (hashFunc fd) with
        clientSocketFd := -1
        msg := none
        groupsJoined := []
        numberOfGroups := 0 }) := if_pos h

theorem removeClient_of_ne (h : (clients (hashFunc fd)).clientSocketFd ≠ fd) :
    removeClient clients fd = (-1, clients) := if_neg h

/-- A removal empties the slot of the descriptor, if it holds the descriptor. -/
theorem removeClient_apply (clients : Clients) (fd i : ℤ) :
    (removeClient clients fd).2 i =
      if hashFunc fd = i ∧ (clients i).clientSocketFd = fd then (clients i).removed
      else clients i := by
  by_cases hi : hashFunc fd = i
  · subst hi
    by_cases hslot : (clients (hashFunc fd)).clientSocketFd = fd
    · rw [if_pos ⟨rfl, hslot⟩, removeClient_of_eq hslot]
      exact Function.update_self ..
    · rw [if_neg fun h => hslot h.2, removeClient_of_ne hslot]
  · rw [if_neg fun h => hi h.1, removeClient]
    split
    · exact Function.update_of_ne (Ne.symm hi) ..
    · rfl

/-- A client in its place: the slot that is emptied is the one in which it was found. -/
theorem removeClient_of_place (hplace : hashFunc (clients i).clientSocketFd = i) :
    (removeClient clients (clients i).clientSocketFd).2 =
      Function.update clients i (clients i).removed := by
  funext j
  rw [removeClient_apply, hplace]
  by_cases hj : i = j
  · subst hj
    rw [if_pos ⟨rfl, rfl⟩, Function.update_self]
  · rw [if_neg fun h => hj h.1, Function.update_of_ne (Ne.symm hj)]

/-! ### What freeing a client leaves alone -/

@[simp] theorem clientSocketFd_updateClientStatusToFree :
    (updateClientStatusToFree clients fd jobId i).clientSocketFd = (clients i).clientSocketFd := by
  rw [updateClientStatusToFree]
  split
  · by_cases hi : i = hashFunc fd
    · simp [hi]
    · simp [Function.update_of_ne hi]
  · rfl

@[simp] theorem jobId_updateClientStatusToFree :
    (updateClientStatusToFree clients fd jobId i).jobId = (clients i).jobId := by
  rw [updateClientStatusToFree]
  split
  · by_cases hi : i = hashFunc fd
    · simp [hi]
    · simp [Function.update_of_ne hi]
  · rfl

/-- A client that is busy with another job, or in another slot, stays busy. -/
theorem clientStatus_updateClientStatusToFree_of_ne
    (h : i ≠ hashFunc fd ∨ (clients i).clientSocketFd ≠ fd ∨ (clients i).jobId ≠ jobId) :
    (updateClientStatusToFree clients fd jobId i).clientStatus = (clients i).clientStatus := by
  rw [updateClientStatusToFree]
  split
  next hmatch =>
    by_cases hi : i = hashFunc fd
    · -- the slot that is freed meets none of the three
      subst hi
      rcases h with h | h | h
      · exact absurd rfl h
      · exact absurd hmatch.1 h
      · exact absurd hmatch.2 h
    · rw [Function.update_of_ne hi]
  next => rfl

end Multicast
