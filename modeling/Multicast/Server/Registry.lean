import Multicast.Lib.DirectMapped
import Multicast.Lib.StepRun
import Multicast.Server.Groups

/-!
# The client table as a registry

Four functions write the client table. Each of them takes the slot from the remainder of a
descriptor, which many descriptors share, and looks at the descriptor in the slot before it
writes. The table is then a set of descriptors, with a record for each: a client is added if
no other one with its remainder is there, removed if it is there itself, and the records of
other clients are never touched.

## Main definitions

* `Multicast.Registry.Action`, `call`, `step` — the calls of the four functions
* `descriptor`, `Registered` — who has a record
* `SoundRegistry` — what the table is for, in one state: where the records are, and what
  every call that could come next does
* `specStep` — the calls, on a set of descriptors

## Main results

* `Consistent.call` — the four functions keep the records in order
* `registered_run` — the table follows the set of descriptors
* `soundRegistry_along` — in every state of every run the table is a sound registry
-/

set_option autoImplicit false

namespace Multicast.Registry

open StepRun DirectMapped

/-! ### Runs -/

/-- The calls that write the table. -/
inductive Action where
  | add (now socketFd : ℤ) (groups : List ℤ)
  | remove (socketFd : ℤ)
  | assign (multicastGroups : MulticastGroups) (jobId groupId : ℤ) (clientsAssigned : List ℤ)
  | setFree (clientSocketFd jobId : ℤ)

/-- The return value and the table. Two of the functions return nothing. -/
def call : Action → Clients → ℤ × Clients
  | .add now socketFd groups, clients => addClient now clients socketFd groups
  | .remove socketFd, clients => removeClient clients socketFd
  | .assign multicastGroups jobId groupId clientsAssigned, clients =>
    (0, updateClientWithJobAssigned clients multicastGroups jobId groupId clientsAssigned)
  | .setFree clientSocketFd jobId, clients =>
    (0, updateClientStatusToFree clients clientSocketFd jobId)

/-- The descriptors that a call is about. A job is about the members of its group that are
assigned. -/
def descriptors : Action → List ℤ
  | .add _ socketFd _ => [socketFd]
  | .remove socketFd => [socketFd]
  | .assign multicastGroups _ groupId clientsAssigned =>
    (multicastGroups groupId).head.filter (isClientPresent · clientsAssigned)
  | .setFree clientSocketFd _ => [clientSocketFd]

/-- The descriptors of a call can be those of clients. -/
def Open (a : Action) : Prop := ∀ fd ∈ descriptors a, 0 ≤ fd

instance (a : Action) : Decidable (Open a) :=
  inferInstanceAs (Decidable (∀ fd ∈ descriptors a, 0 ≤ fd))

/-- One step. -/
def step (a : Action) (clients : Clients) : Option Clients :=
  if Open a then some (call a clients).2 else none

/-! ### The property -/

/-- The descriptor in a slot, if it is taken. -/
def descriptor (info : ClientInfo) : Option ℤ :=
  if info.clientSocketFd = -1 then none else some info.clientSocketFd

/-- A descriptor has a record. -/
def Registered (clients : Clients) (fd : ℤ) : Prop := fd ∈ keys descriptor clients

/-- Records are where they belong, with the number of their groups; a client is added if no
descriptor with its remainder is registered, and removed if it is registered itself; a call
that fails changes nothing, and no call changes a record that it is not about. -/
structure SoundRegistry (clients : Clients) : Prop where
  placed : ∀ i fd, descriptor (clients i) = some fd → 0 ≤ fd ∧ fd % 255000 = i
  counted : ∀ i fd, descriptor (clients i) = some fd →
    (clients i).numberOfGroups = (clients i).groupsJoined.length
  add_iff : ∀ now fd groups, 0 ≤ fd → ((call (.add now fd groups) clients).1 = 0 ↔
    ¬ ∃ fd', Registered clients fd' ∧ fd' % 255000 = fd % 255000)
  remove_iff : ∀ fd, 0 ≤ fd → ((call (.remove fd) clients).1 = 0 ↔ Registered clients fd)
  eq_of_failed : ∀ a, (call a clients).1 ≠ 0 → (call a clients).2 = clients
  eq_of_other : ∀ a i fd, Open a → descriptor (clients i) = some fd → fd ∉ descriptors a →
    (call a clients).2 i = clients i

/-- What the calls are for: they change a set of descriptors. -/
def specCall : Action → Set ℤ → Set ℤ
  | .add _ fd _, registered =>
    {x | x ∈ registered ∨ x = fd ∧ ¬ ∃ fd' ∈ registered, fd' % 255000 = fd % 255000}
  | .remove fd, registered => {x | x ∈ registered ∧ x ≠ fd}
  | .assign .., registered | .setFree .., registered => registered

/-- One step, on the set. -/
def specStep (a : Action) (registered : Set ℤ) : Option (Set ℤ) :=
  if Open a then some (specCall a registered) else none

/-- The invariant. -/
structure Consistent (clients : Clients) : Prop where
  sound : Sound hashFunc descriptor clients
  nonneg : ∀ i fd, descriptor (clients i) = some fd → 0 ≤ fd
  counted : ∀ i fd, descriptor (clients i) = some fd →
    (clients i).numberOfGroups = (clients i).groupsJoined.length

variable {clients clients' : Clients} {a : Action} {fd fd' i jobId g now : ℤ} {groups : List ℤ}
variable {info : ClientInfo} {multicastGroups : MulticastGroups} {assigned : List ℤ}

/-! ### Descriptors and slots -/

theorem descriptor_eq_none_iff : descriptor info = none ↔ info.clientSocketFd = -1 := by
  rw [descriptor]
  split <;> simp [*]

theorem descriptor_eq_some_iff :
    descriptor info = some fd ↔ info.clientSocketFd = fd ∧ fd ≠ -1 := by
  rw [descriptor]
  split
  next h =>
    refine iff_of_false nofun ?_
    rintro ⟨rfl, hne⟩
    exact hne h
  next h =>
    rw [Option.some.injEq]
    refine (and_iff_left_of_imp ?_).symm
    rintro rfl
    exact h

theorem hashFunc_of_nonneg (h : 0 ≤ fd) : hashFunc fd = fd % 255000 := Int.tmod_eq_emod_of_nonneg h

/-! ### The invariant -/

theorem consistent_initializeClientArray : Consistent initializeClientArray where
  sound _ _ h := nomatch h
  nonneg _ _ h := nomatch h
  counted _ _ h := nomatch h

/-- A record may be written where it belongs. -/
theorem Consistent.update (h : Consistent clients)
    (hinfo : ∀ fd, descriptor info = some fd →
      hashFunc fd = i ∧ 0 ≤ fd ∧ info.numberOfGroups = info.groupsJoined.length) :
    Consistent (Function.update clients i info) where
  sound := h.sound.update fun fd hfd => (hinfo fd hfd).1
  nonneg j fd hfd := by
    by_cases hj : j = i
    · rw [hj, Function.update_self] at hfd
      exact (hinfo fd hfd).2.1
    · rw [Function.update_of_ne hj] at hfd
      exact h.nonneg j fd hfd
  counted j fd hfd := by
    by_cases hj : j = i
    · rw [hj, Function.update_self] at hfd ⊢
      exact (hinfo fd hfd).2.2
    · rw [Function.update_of_ne hj] at hfd ⊢
      exact h.counted j fd hfd

/-- Two tables differ at most in what clients do. -/
def SameClients (clients clients' : Clients) : Prop :=
  ∀ i, ∃ status jobId, clients' i = { clients i with clientStatus := status, jobId := jobId }

theorem SameClients.descriptor_eq (h : SameClients clients clients') (i : ℤ) :
    descriptor (clients' i) = descriptor (clients i) := by
  obtain ⟨status, jobId, heq⟩ := h i
  rw [heq]
  rfl

theorem Consistent.of_sameClients (h : Consistent clients) (hsame : SameClients clients clients') :
    Consistent clients' where
  sound := h.sound.of_key_eq hsame.descriptor_eq
  nonneg i fd hfd := h.nonneg i fd ((hsame.descriptor_eq i).symm.trans hfd)
  counted i fd hfd := by
    rw [hsame.descriptor_eq] at hfd
    obtain ⟨status, jobId, heq⟩ := hsame i
    rw [heq]
    exact h.counted i fd hfd

theorem sameClients_assign : SameClients clients
    (updateClientWithJobAssigned clients multicastGroups jobId g assigned) := by
  intro i
  rw [updateClientWithJobAssigned_apply]
  split
  · exact ⟨_, _, rfl⟩
  · exact ⟨_, _, rfl⟩

theorem sameClients_setFree :
    SameClients clients (updateClientStatusToFree clients fd jobId) := by
  intro i
  rw [updateClientStatusToFree]
  split
  · by_cases hi : i = hashFunc fd
    · rw [hi, Function.update_self]
      exact ⟨_, _, rfl⟩
    · rw [Function.update_of_ne hi]
      exact ⟨_, _, rfl⟩
  · exact ⟨_, _, rfl⟩

theorem Consistent.add (h : Consistent clients) (hfd : 0 ≤ fd) :
    Consistent (addClient now clients fd groups).2 := by
  by_cases hslot : (clients (hashFunc fd)).clientSocketFd = -1
  · rw [addClient_of_free hslot]
    apply h.update
    intro fd' hfd'
    obtain ⟨rfl, -⟩ := descriptor_eq_some_iff.mp hfd'
    exact ⟨rfl, hfd, rfl⟩
  · rw [addClient_of_taken hslot]
    exact h

theorem Consistent.remove (h : Consistent clients) : Consistent (removeClient clients fd).2 := by
  by_cases hslot : (clients (hashFunc fd)).clientSocketFd = fd
  · rw [removeClient_of_eq hslot]
    apply h.update
    intro fd' hfd'
    obtain ⟨rfl, hne⟩ := descriptor_eq_some_iff.mp hfd'
    exact absurd rfl hne
  · rw [removeClient_of_ne hslot]
    exact h

/-- The four functions keep the records in order. -/
theorem Consistent.call (h : Consistent clients) (hopen : Open a) :
    Consistent (Registry.call a clients).2 := by
  cases a with
  | add now fd groups => exact h.add (hopen fd List.mem_cons_self)
  | remove fd => exact h.remove
  | assign multicastGroups jobId g assigned => exact h.of_sameClients sameClients_assign
  | setFree fd jobId => exact h.of_sameClients sameClients_setFree

theorem Consistent.step (h : Consistent clients) (hstep : step a clients = some clients') :
    Consistent clients' := by
  obtain ⟨hopen, hcall⟩ := Option.ite_none_right_eq_some.mp hstep
  obtain rfl := Option.some.inj hcall
  exact h.call hopen

/-! ### What the calls answer -/

theorem addClient_eq_zero_iff : (addClient now clients fd groups).1 = 0 ↔
    descriptor (clients (hashFunc fd)) = none := by
  rw [descriptor_eq_none_iff]
  by_cases hslot : (clients (hashFunc fd)).clientSocketFd = -1
  · rw [addClient_of_free hslot]
    exact iff_of_true rfl hslot
  · rw [addClient_of_taken hslot]
    exact iff_of_false nofun hslot

theorem removeClient_eq_zero_iff : (removeClient clients fd).1 = 0 ↔
    (clients (hashFunc fd)).clientSocketFd = fd := by
  by_cases hslot : (clients (hashFunc fd)).clientSocketFd = fd
  · rw [removeClient_of_eq hslot]
    exact iff_of_true rfl hslot
  · rw [removeClient_of_ne hslot]
    exact iff_of_false nofun hslot

/-- A slot is taken exactly if a descriptor with its remainder is registered. -/
theorem Consistent.eq_none_iff (h : Consistent clients) (hfd : 0 ≤ fd) :
    descriptor (clients (hashFunc fd)) = none ↔
      ¬ ∃ fd', Registered clients fd' ∧ fd' % 255000 = fd % 255000 := by
  rw [h.sound.eq_none_iff]
  refine not_congr (exists_congr fun fd' => and_congr_right ?_)
  rintro ⟨i, hi⟩
  rw [hashFunc_of_nonneg hfd, hashFunc_of_nonneg (h.nonneg i fd' hi)]

theorem Consistent.registered_iff (h : Consistent clients) (hfd : 0 ≤ fd) :
    Registered clients fd ↔ (clients (hashFunc fd)).clientSocketFd = fd := by
  rw [Registered, h.sound.mem_keys_iff, descriptor_eq_some_iff]
  exact and_iff_left (by omega)

theorem eq_of_failed (hfailed : (call a clients).1 ≠ 0) : (call a clients).2 = clients := by
  cases a with
  | add now fd groups =>
    exact congrArg Prod.snd (addClient_of_taken
      (mt (fun h => addClient_eq_zero_iff.mpr (descriptor_eq_none_iff.mpr h)) hfailed))
  | remove fd =>
    exact congrArg Prod.snd (removeClient_of_ne (mt removeClient_eq_zero_iff.mpr hfailed))
  | assign multicastGroups jobId g assigned | setFree fd jobId => exact absurd rfl hfailed

/-- A call reads the descriptor in a slot before it writes there. -/
theorem eq_of_other (hi : descriptor (clients i) = some fd) (hother : fd ∉ descriptors a) :
    (call a clients).2 i = clients i := by
  obtain ⟨hfd, hne⟩ := descriptor_eq_some_iff.mp hi
  cases a with
  | add now fd' groups =>
    by_cases hslot : (clients (hashFunc fd')).clientSocketFd = -1
    · have hslots : i ≠ hashFunc fd' := by
        rintro rfl
        exact hne (hfd.symm.trans hslot)
      rw [call, addClient_of_free hslot]
      exact Function.update_of_ne hslots ..
    · rw [call, addClient_of_taken hslot]
  | remove fd' =>
    rw [call, removeClient_apply]
    refine if_neg ?_
    -- the record that is removed is the one of the client
    rintro ⟨-, rfl⟩
    exact hother (hfd ▸ List.mem_cons_self)
  | assign multicastGroups jobId g assigned =>
    -- the record of a client that the handler assigned would have been written
    refine (updateClientWithJobAssigned_apply i).trans (if_neg ?_)
    rintro ⟨-, hassigned, hmember⟩
    rw [hfd] at hassigned hmember
    exact hother (List.mem_filter.mpr ⟨hmember, List.contains_iff_mem.mpr hassigned⟩)
  | setFree fd' jobId =>
    rw [call, updateClientStatusToFree]
    split
    next hmatch =>
      -- the slot is written for its own descriptor only
      refine Function.update_of_ne ?_ ..
      rintro rfl
      exact hother (List.mem_singleton.mpr (hfd.symm.trans hmatch.1))
    next => rfl

/-! ### Runs -/

theorem Consistent.soundRegistry (h : Consistent clients) : SoundRegistry clients where
  placed i fd hfd := by
    have hnonneg := h.nonneg i fd hfd
    refine ⟨hnonneg, ?_⟩
    rw [← hashFunc_of_nonneg hnonneg]
    exact h.sound i fd hfd
  counted := h.counted
  add_iff now fd groups hfd := addClient_eq_zero_iff.trans (h.eq_none_iff hfd)
  remove_iff fd hfd := removeClient_eq_zero_iff.trans (h.registered_iff hfd).symm
  eq_of_failed _ := eq_of_failed
  eq_of_other _ _ _ _ hi := eq_of_other hi

/-! ### The set of descriptors -/

theorem keys_addClient (h : Consistent clients) (hfd : 0 ≤ fd) :
    keys descriptor (addClient now clients fd groups).2 =
      specCall (.add now fd groups) (keys descriptor clients) := by
  have hfree := h.eq_none_iff hfd
  ext x
  by_cases hslot : (clients (hashFunc fd)).clientSocketFd = -1
  · have hnone := descriptor_eq_none_iff.mpr hslot
    rw [addClient_of_free hslot]
    refine (h.sound.mem_keys_fill_iff hnone ?_).trans ?_
    · exact descriptor_eq_some_iff.mpr ⟨rfl, by omega⟩
    · exact or_comm.trans (or_congr_right (and_iff_left (hfree.mp hnone)).symm)
  · rw [addClient_of_taken hslot]
    refine (or_iff_left ?_).symm
    rintro ⟨-, hnot⟩
    exact hslot (descriptor_eq_none_iff.mp (hfree.mpr hnot))

theorem keys_removeClient (h : Consistent clients) (hfd : 0 ≤ fd) :
    keys descriptor (removeClient clients fd).2 =
      specCall (.remove fd) (keys descriptor clients) := by
  ext x
  by_cases hslot : (clients (hashFunc fd)).clientSocketFd = fd
  · rw [removeClient_of_eq hslot]
    refine h.sound.mem_keys_clear_iff ?_ rfl
    exact descriptor_eq_some_iff.mpr ⟨hslot, by omega⟩
  · rw [removeClient_of_ne hslot]
    refine (and_iff_left_of_imp ?_).symm
    rintro hx rfl
    exact hslot ((h.registered_iff hfd).mp hx)

/-- A call changes the set of the registered descriptors as it should. -/
theorem specCall_keys (h : Consistent clients) (hopen : Open a) :
    specCall a (keys descriptor clients) = keys descriptor (call a clients).2 := by
  cases a with
  | add now fd groups => exact (keys_addClient h (hopen fd List.mem_cons_self)).symm
  | remove fd => exact (keys_removeClient h (hopen fd List.mem_cons_self)).symm
  | assign multicastGroups jobId g assigned =>
    exact (keys_eq_of_key_eq sameClients_assign.descriptor_eq).symm
  | setFree fd jobId => exact (keys_eq_of_key_eq sameClients_setFree.descriptor_eq).symm

theorem specStep_keys (h : Consistent clients) (hstep : step a clients = some clients') :
    specStep a (keys descriptor clients) = some (keys descriptor clients') := by
  obtain ⟨hopen, hcall⟩ := Option.ite_none_right_eq_some.mp hstep
  obtain rfl := Option.some.inj hcall
  rw [specStep, if_pos hopen, specCall_keys h hopen]

/-- The table follows the set of descriptors: at the end of every run, who is registered is
what the calls made of the empty set. -/
theorem registered_run {as : List Action}
    (hrun : run step as initializeClientArray = some clients) :
    run specStep as ∅ = some (keys descriptor clients) := by
  have hempty : keys descriptor initializeClientArray = ∅ := by
    ext fd
    exact iff_of_false (fun ⟨_, hi⟩ => nomatch hi) id
  have hfollow : ∀ (a : Action) (clients clients' : Clients) (registered : Set ℤ),
      Consistent clients ∧ registered = keys descriptor clients →
        step a clients = some clients' →
          True ∧ ∃ registered', specStep a registered = some registered' ∧
            Consistent clients' ∧ registered' = keys descriptor clients' := by
    rintro a clients clients' _ ⟨h, rfl⟩ hstep
    exact ⟨trivial, _, specStep_keys h hstep, h.step hstep, rfl⟩
  obtain ⟨-, registered, hspec, -, rfl⟩ :=
    exists_run_of_simulates hfollow hrun ⟨consistent_initializeClientArray, hempty.symm⟩
  exact hspec

/-- In every state of every run the table is a sound registry, and at the end who is registered is
what the calls made of the empty set. -/
theorem soundRegistry_along (as : List Action) :
    Along step SoundRegistry as initializeClientArray ∧
      ∀ clients, run step as initializeClientArray = some clients →
        run specStep as ∅ = some (keys descriptor clients) := by
  refine ⟨?_, fun _ hrun => registered_run hrun⟩
  apply along_iff_forall_prefix.mpr
  rintro front back clients rfl hrun
  have hconsistent : Consistent clients :=
    run_invariant (fun _ _ _ h hstep => h.step hstep) hrun consistent_initializeClientArray
  exact hconsistent.soundRegistry

/-- Two clients want one slot. The second one gets it after the first one left. -/
def oneSlot : List Action := [.add 0 5 [1], .add 0 255005 [2], .remove 5, .add 0 255005 [2]]

theorem soundRegistry_along_oneSlot :
    ∃ clients, run step oneSlot initializeClientArray = some clients ∧
      run specStep oneSlot ∅ = some (keys descriptor clients) ∧
        Registered clients 255005 ∧ ¬ Registered clients 5 := by
  obtain ⟨clients, hrun, hslot⟩ : ∃ clients, run step oneSlot initializeClientArray =
      some clients ∧ (clients 5).clientSocketFd = 255005 := ⟨_, rfl, rfl⟩
  obtain ⟨halong, hregistered⟩ := soundRegistry_along oneSlot
  have hsound := along_iff_forall_prefix.mp halong oneSlot [] clients (List.append_nil _).symm hrun
  refine ⟨clients, hrun, hregistered clients hrun, ⟨5, ?_⟩, ?_⟩
  · exact descriptor_eq_some_iff.mpr ⟨hslot, by decide⟩
  · rintro ⟨i, hi⟩
    obtain ⟨-, rfl⟩ := hsound.placed i 5 hi
    exact absurd (hslot.symm.trans (descriptor_eq_some_iff.mp hi).1) (by decide)

end Multicast.Registry
