import Multicast.Lib.StepRun
import Multicast.Server.State

/-!
# Members and their records

Who belongs to a group is stored twice: in the list of the group, and in the array that
the client's slot keeps. A registration writes both, the list always and the slot only if
it is empty. The timer clears a slot and no list.

So the two agree until a descriptor registers again for a group that its slot does not
name, or for any group while its slot belongs to another, or until the timer removes a
client that had joined a group; and they agree exactly that long.

## Main definitions

* `Multicast.Membership.Action`, `step` — registrations, activity, and the timer
* `ListsAgree` — lists and records say the same
* `KeepsLists` — the steps that keep them so

## Main results

* `listsAgree_step_iff` — one step keeps the agreement exactly if it meets the condition
* `listsAgree_along_iff` — so a run keeps it exactly if all its steps do
* `not_listsAgree_expired` — a run that does not
-/

set_option autoImplicit false

namespace Multicast.Membership

open StepRun

/-! ### Runs -/

/-- What can happen to members and records, and the creation of a reader. -/
inductive Action where
  | register (now clientSocketFd : ℤ) (groups : List ℤ)
  | activity (now clientSd : ℤ)
  | readable (clientCount : ℤ) (thread : ℕ)
  | timer (now i : ℤ)

/-- One step. A registration comes over a descriptor that is open, and names groups that
exist. -/
def step : Action → Server → Option Server
  | .register now clientSocketFd groups, s =>
    if 0 ≤ clientSocketFd ∧ ValidGroups groups then
      some (s.handleGroupIdRegs now clientSocketFd groups)
    else none
  | .activity now clientSd, s =>
    if 0 ≤ clientSd then some (s.recordActivity now clientSd) else none
  | .readable clientCount thread, s => some (s.storeReader clientCount thread)
  | .timer now i, s =>
    if 0 ≤ i ∧ i < Server.totalClients then s.timerRound now i else none

/-! ### The property and the condition -/

/-- The record of a client names a group. -/
def Joined (s : Server) (fd g : ℤ) : Prop :=
  (s.clients (hashFunc fd)).clientSocketFd = fd ∧ g ∈ (s.clients (hashFunc fd)).groupsJoined

instance (s : Server) (fd g : ℤ) : Decidable (Joined s fd g) :=
  inferInstanceAs (Decidable (_ ∧ _))

/-- The list of a group has the clients whose records name the group, and the free clients
that are found in a group are clients that joined it. -/
structure ListsAgree (s : Server) : Prop where
  mem_head_iff : ∀ g fd, 0 ≤ fd → (fd ∈ (s.multicastGroups g).head ↔ Joined s fd g)
  joined_of_found : ∀ g found, s.freeClients g = some found → ∀ fd ∈ found, 0 ≤ fd → Joined s fd g

/-- The condition on a step. A client registers while its slot is empty, or for groups that
its record names already; and a client that the timer removes had joined no group. -/
def KeepsLists : Action → Server → Prop
  | .register _ fd groups, s =>
    (s.clients (hashFunc fd)).clientSocketFd = -1 ∨ ∀ g ∈ groups, Joined s fd g
  | .activity _ _, _ | .readable _ _, _ => True
  | .timer now i, s =>
    (s.clients i).clientSocketFd ≠ -1 ∧ now - (s.clients i).timestamp > 120 →
      (s.clients i).groupsJoined = []

/-- A slot that is taken belongs to a descriptor with that remainder. -/
def Placed (s : Server) : Prop :=
  ∀ i, (s.clients i).clientSocketFd ≠ -1 →
    hashFunc (s.clients i).clientSocketFd = i ∧ 0 ≤ (s.clients i).clientSocketFd

variable {s s' : Server} {now fd i g x : ℤ} {groups : List ℤ} {clientCount : ℤ} {thread : ℕ}

/-- The second half of the agreement follows from the first. -/
theorem listsAgree_iff :
    ListsAgree s ↔ ∀ g fd, 0 ≤ fd → (fd ∈ (s.multicastGroups g).head ↔ Joined s fd g) := by
  refine ⟨fun h => h.mem_head_iff, fun h => ⟨h, ?_⟩⟩
  intro g found hfound fd hfd hopen
  exact (h g fd hopen).mp ((mem_findFreeClientsInAGroup hfound).mp hfd).1

/-! ### The client table after a step -/

theorem clients_recordActivity :
    (s.recordActivity now fd).clients = Function.update s.clients (hashFunc fd)
      { s.clients (hashFunc fd) with timestamp := now } := rfl

/-- The slot that the timer looks at is the one that it clears. -/
theorem clients_timerRound (hP : Placed s)
    (hexpired : (s.clients i).clientSocketFd ≠ -1 ∧ now - (s.clients i).timestamp > 120)
    (h : s.timerRound now i = some s') :
    s'.clients = Function.update s.clients i
      { s.clients i with
        clientSocketFd := -1
        msg := none
        groupsJoined := []
        numberOfGroups := 0 } := by
  rcases Server.timerRound_cases h with ⟨hnot, -⟩ | ⟨-, -, rfl⟩
  · exact absurd hexpired hnot
  · exact removeClient_of_place (hP i hexpired.1).1

/-- The groups keep their lists. -/
theorem multicastGroups_timerRound (h : s.timerRound now i = some s') :
    s'.multicastGroups = s.multicastGroups := by
  rcases Server.timerRound_cases h with ⟨-, rfl⟩ | ⟨-, -, rfl⟩ <;> rfl

/-- And it leaves one alone whose client is not expired. -/
theorem timerRound_of_not_expired
    (hnot : ¬ ((s.clients i).clientSocketFd ≠ -1 ∧ now - (s.clients i).timestamp > 120))
    (h : s.timerRound now i = some s') : s' = s := by
  rcases Server.timerRound_cases h with ⟨-, rfl⟩ | ⟨hexpired, -⟩
  · rfl
  · exact absurd hexpired hnot

/-! ### Registrations -/

theorem mem_head_register :
    x ∈ ((s.handleGroupIdRegs now fd groups).multicastGroups g).head ↔
      x ∈ (s.multicastGroups g).head ∨ (x = fd ∧ g ∈ groups) := mem_head_addAClientToGroups

/-- A registration in a slot that is taken changes no record. -/
theorem joined_register_of_taken (htaken : (s.clients (hashFunc fd)).clientSocketFd ≠ -1) :
    Joined (s.handleGroupIdRegs now fd groups) x g ↔ Joined s x g := by
  rw [Joined, Joined, Server.clients_register_of_taken htaken]

/-- A registration in an empty slot writes the record of the client. -/
theorem joined_register_of_free (hfree : (s.clients (hashFunc fd)).clientSocketFd = -1)
    (hx : 0 ≤ x) :
    Joined (s.handleGroupIdRegs now fd groups) x g ↔
      Joined s x g ∨ (x = fd ∧ g ∈ groups) := by
  rw [Joined, Joined, Server.clients_register_of_free hfree]
  by_cases hhash : hashFunc x = hashFunc fd
  · -- no other client had the slot
    have hnone : ¬ (s.clients (hashFunc fd)).clientSocketFd = x := by
      rw [hfree]
      omega
    rw [hhash, Function.update_self]
    simp only [hnone, false_and, false_or]
    exact and_congr_left fun _ => eq_comm
  · have hne : x ≠ fd := fun h => hhash (congrArg hashFunc h)
    simp only [Function.update_of_ne hhash, hne, false_and, or_false]

theorem listsAgree_register_iff (h : ListsAgree s) (hfd : 0 ≤ fd) :
    ListsAgree (s.handleGroupIdRegs now fd groups) ↔ KeepsLists (.register now fd groups) s := by
  rw [listsAgree_iff, KeepsLists]
  simp only [mem_head_register]
  by_cases hslot : (s.clients (hashFunc fd)).clientSocketFd = -1
  · -- lists and record get the same groups
    refine iff_of_true ?_ (.inl hslot)
    intro g x hx
    rw [joined_register_of_free hslot hx, h.mem_head_iff g x hx]
  · -- only the lists change, by entries that the record may not have
    simp only [joined_register_of_taken hslot, hslot, false_or]
    constructor
    · intro hagree g hg
      exact (hagree g fd hfd).mp (.inr ⟨rfl, hg⟩)
    · intro hjoined g x hx
      rw [h.mem_head_iff g x hx]
      apply or_iff_left_of_imp
      rintro ⟨rfl, hg⟩
      exact hjoined g hg

/-! ### Activity and the timer -/

/-- Activity changes a timestamp, and no record. -/
theorem joined_recordActivity : Joined (s.recordActivity now fd) x g ↔ Joined s x g := by
  rw [Joined, Joined, clients_recordActivity]
  by_cases hhash : hashFunc x = hashFunc fd
  · rw [hhash, Function.update_self]
  · rw [Function.update_of_ne hhash]

theorem listsAgree_activity_iff (h : ListsAgree s) :
    ListsAgree (s.recordActivity now fd) ↔ KeepsLists (.activity now fd) s := by
  refine iff_of_true (listsAgree_iff.mpr fun g x hx => ?_) trivial
  rw [joined_recordActivity]
  exact h.mem_head_iff g x hx

/-- The timer clears the record of the client in the slot, and no other. -/
theorem joined_timerRound (hP : Placed s) (hx : 0 ≤ x)
    (hexpired : (s.clients i).clientSocketFd ≠ -1 ∧ now - (s.clients i).timestamp > 120)
    (h : s.timerRound now i = some s') :
    Joined s' x g ↔ Joined s x g ∧ x ≠ (s.clients i).clientSocketFd := by
  rw [Joined, Joined, clients_timerRound hP hexpired h]
  by_cases hhash : hashFunc x = i
  · -- whoever has this slot is the client that is removed
    rw [hhash, Function.update_self]
    have hne : ¬ (-1 : ℤ) = x := by omega
    simp only [hne, false_and, false_iff]
    rintro ⟨⟨heq, -⟩, hother⟩
    exact hother heq.symm
  · rw [Function.update_of_ne hhash]
    have hne : x ≠ (s.clients i).clientSocketFd := by
      rintro rfl
      exact hhash (hP i hexpired.1).1
    exact (and_iff_left hne).symm

/-- A reader changes no list and no record. -/
theorem listsAgree_readable_iff (h : ListsAgree s) :
    ListsAgree (s.storeReader clientCount thread) ↔
      KeepsLists (.readable clientCount thread) s :=
  iff_of_true ⟨h.mem_head_iff, h.joined_of_found⟩ trivial

theorem listsAgree_timer_iff (hP : Placed s) (h : ListsAgree s)
    (hround : s.timerRound now i = some s') : ListsAgree s' ↔ KeepsLists (.timer now i) s := by
  rw [KeepsLists]
  by_cases hexpired : (s.clients i).clientSocketFd ≠ -1 ∧ now - (s.clients i).timestamp > 120
  · obtain ⟨hplace, hopen⟩ := hP i hexpired.1
    -- the groups that still list the client are those that its record named
    have hjoined : ∀ g, Joined s (s.clients i).clientSocketFd g ↔
        g ∈ (s.clients i).groupsJoined := by
      intro g
      rw [Joined, hplace]
      exact and_iff_right rfl
    simp only [forall_prop_of_true hexpired]
    rw [listsAgree_iff, multicastGroups_timerRound hround]
    constructor
    · -- a group that the record named still lists the client, and no record says so now
      intro hagree
      apply List.eq_nil_iff_forall_not_mem.mpr
      intro g hg
      have hmem := (h.mem_head_iff g _ hopen).mpr ((hjoined g).mpr hg)
      exact ((joined_timerRound hP hopen hexpired hround).mp ((hagree g _ hopen).mp hmem)).2 rfl
    · intro hnone g x hx
      rw [h.mem_head_iff g x hx, joined_timerRound hP hx hexpired hround]
      refine (and_iff_left_of_imp ?_).symm
      rintro hmem rfl
      rw [hjoined, hnone] at hmem
      exact absurd hmem List.not_mem_nil
  · rw [timerRound_of_not_expired hexpired hround]
    exact iff_of_true h fun hcontra => absurd hcontra hexpired

/-! ### Slots -/

theorem Placed.register (hP : Placed s) (hfd : 0 ≤ fd) :
    Placed (s.handleGroupIdRegs now fd groups) := by
  intro i
  by_cases hslot : (s.clients (hashFunc fd)).clientSocketFd = -1
  · rw [Server.clients_register_of_free hslot]
    by_cases hi : i = hashFunc fd
    · rw [hi, Function.update_self]
      exact fun _ => ⟨rfl, hfd⟩
    · rw [Function.update_of_ne hi]
      exact hP i
  · rw [Server.clients_register_of_taken hslot]
    exact hP i

theorem Placed.activity (hP : Placed s) : Placed (s.recordActivity now fd) := by
  intro i
  rw [clients_recordActivity]
  by_cases hi : i = hashFunc fd
  · rw [hi, Function.update_self]
    exact hP (hashFunc fd)
  · rw [Function.update_of_ne hi]
    exact hP i

theorem Placed.timer (hP : Placed s) (hround : s.timerRound now i = some s') : Placed s' := by
  by_cases hexpired : (s.clients i).clientSocketFd ≠ -1 ∧ now - (s.clients i).timestamp > 120
  · intro i'
    rw [clients_timerRound hP hexpired hround]
    by_cases hi : i' = i
    · rw [hi, Function.update_self]
      exact fun hne => absurd rfl hne
    · rw [Function.update_of_ne hi]
      exact hP i'
  · rw [timerRound_of_not_expired hexpired hround]
    exact hP

/-! ### Runs -/

theorem placed_step {a : Action} (hP : Placed s) (hstep : step a s = some s') : Placed s' := by
  cases a with
  | register now fd groups =>
    obtain ⟨hguard, rfl⟩ := by simpa [step] using hstep
    exact hP.register hguard.1
  | activity now fd =>
    obtain ⟨-, rfl⟩ := by simpa [step] using hstep
    exact hP.activity
  | readable clientCount thread =>
    obtain rfl := Option.some.inj hstep
    exact hP
  | timer now i =>
    obtain ⟨-, hround⟩ := by simpa [step] using hstep
    exact hP.timer hround

/-- A step keeps the agreement exactly if it meets the condition. -/
theorem listsAgree_step_iff {a : Action} (hP : Placed s) (h : ListsAgree s)
    (hstep : step a s = some s') : ListsAgree s' ↔ KeepsLists a s := by
  cases a with
  | register now fd groups =>
    obtain ⟨hguard, rfl⟩ := by simpa [step] using hstep
    exact listsAgree_register_iff h hguard.1
  | activity now fd =>
    obtain ⟨-, rfl⟩ := by simpa [step] using hstep
    exact listsAgree_activity_iff h
  | readable clientCount thread =>
    obtain rfl := Option.some.inj hstep
    exact listsAgree_readable_iff h
  | timer now i =>
    obtain ⟨-, hround⟩ := by simpa [step] using hstep
    exact listsAgree_timer_iff hP h hround

theorem placed_initialServer : Placed initialServer := fun _ hne => absurd rfl hne

theorem listsAgree_initialServer : ListsAgree initialServer := by
  refine listsAgree_iff.mpr fun g fd hfd => iff_of_false List.not_mem_nil ?_
  rintro ⟨heq, -⟩
  have hslot : (-1 : ℤ) = fd := heq
  omega

/-- Lists and records agree in every state of a run exactly if every step of it meets the
condition. -/
theorem listsAgree_along_iff (as : List Action) :
    Along step ListsAgree as initialServer ↔ Meets step KeepsLists as initialServer :=
  along_iff_meets (fun _ _ _ hP hstep => placed_step hP hstep)
    (fun _ _ _ hP h hstep => listsAgree_step_iff hP h hstep)
    placed_initialServer listsAgree_initialServer

/-- A client joins a group, is silent for more than two minutes, and is removed. A reader was
created while five clients were accepted. -/
def expired : List Action := [.register 0 5 [1], .readable 5 0, .timer 121 5]

/-- The list of the group still has the client. -/
theorem not_listsAgree_expired :
    ∃ s, run step expired initialServer = some s ∧ ¬ ListsAgree s := by
  have hrun : (run step expired initialServer).map
      (fun s => (decide (5 ∈ (s.multicastGroups 1).head), decide (Joined s 5 1))) =
        some (true, false) := by decide +kernel
  obtain ⟨s, hs, heq⟩ := Option.map_eq_some_iff.mp hrun
  obtain ⟨hmem, hjoined⟩ := Prod.mk.inj heq
  refine ⟨s, hs, fun h => ?_⟩
  exact of_decide_eq_false hjoined ((h.mem_head_iff 1 5 (by decide)).mp (of_decide_eq_true hmem))

end Multicast.Membership
