import Multicast.Server.NewClients
import Multicast.Server.Tasks

/-!
# Clients that are found twice

Joining a group adds an entry to its list whether the list has one already or not. A
message can name a group twice, a client can send a second message, and a descriptor can
come back after the timer removed its client, which left the entries where they were. A
client that is in a list twice is found twice when it is free, and gets two tasks that
write to its socket at the same time.

A client that is busy is not found at all. So the entries count when a client becomes free:
when it registers in a slot that has this status, and when it returns its result.

## Main definitions

* `Multicast.Duplicates.FoundOnce` — nobody is found twice, and gets two tasks
* `KeepsOnce` — the steps that keep it so

## Main results

* `foundOnce_iff` — nobody is found twice exactly if the lists have free clients once
* `foundOnce_along_iff` — so it is in every state of a run exactly if all its steps meet
  the condition
* `not_foundOnce_namedTwice` — a run of which this is not true
-/

set_option autoImplicit false

namespace Multicast.Duplicates

open StepRun NewClients

/-- The clients that are found in a group are different, and so are the sockets of the tasks
that its handler queues. -/
structure FoundOnce (s : Server) : Prop where
  found : ∀ g found, s.freeClients g = some found → found.Nodup
  tasks : ∀ uninitialised arguments s' tasks,
    s.multicastGroupHandler uninitialised arguments = some (s', tasks) →
      (tasks.map ClientArgument.clientSocketId).Nodup

/-- The lists have a client at most once, with the entries that a message adds. -/
def EntersOnce (s : Server) (fd : ℤ) (groups : List ℤ) : Prop :=
  ∀ g, groups.count g + (s.multicastGroups g).head.count fd ≤ 1

/-- The condition on a step. Whoever is free after it, and has its slot, is in each list at
most once. -/
def KeepsOnce : Action → Server → Prop
  | .register _ fd groups, s =>
    (s.clients (hashFunc fd)).clientSocketFd = -1 ∨ (s.clients (hashFunc fd)).clientSocketFd = fd →
      (s.clients (hashFunc fd)).clientStatus = .free → EntersOnce s fd groups
  | .result fd jobId, s =>
    (s.clients (hashFunc fd)).clientSocketFd = fd → (s.clients (hashFunc fd)).jobId = jobId →
      EntersOnce s fd []
  | .assign .., _ | .remove _, _ => True

variable {s s' : Server} {clients : Clients} {multicastGroups : MulticastGroups}
variable {now fd jobId groupId x : ℤ} {groups clientsAssigned : List ℤ}

/-- Nobody is found twice if and only if the lists have the free clients once. -/
theorem foundOnce_iff : FoundOnce s ↔
    ∀ g fd, isFreeClient s.clients fd → (s.multicastGroups g).head.count fd ≤ 1 := by
  constructor
  · intro h g fd hfree
    by_cases hnil : (s.multicastGroups g).head = []
    · simp [hnil]
    · -- what is found in a group is its list without the clients that are busy
      have hnodup := h.found g _ (findFreeClientsInAGroup_of_ne_nil hnil)
      have hcount := List.nodup_iff_count_le_one.mp hnodup fd
      rwa [List.count_filter hfree] at hcount
  · intro h
    have hfound : ∀ g found, s.freeClients g = some found → found.Nodup := by
      intro g found hfound
      apply List.nodup_iff_count_le_one.mpr
      intro fd
      by_cases hmem : fd ∈ found
      · have hfree := ((mem_findFreeClientsInAGroup hfound).mp hmem).2
        rw [Server.freeClients, findFreeClientsInAGroup] at hfound
        split at hfound
        · obtain rfl := Option.some.inj hfound
          rw [List.count_filter hfree]
          exact h g fd hfree
        · cases hfound
      · rw [List.count_eq_zero_of_not_mem hmem]
        exact Nat.zero_le 1
    -- the handler queues its tasks for what it found, one for each
    refine ⟨hfound, fun uninitialised arguments s' tasks hrun => ?_⟩
    obtain ⟨arrClients, hclients, rfl, rfl⟩ := Server.eq_of_multicastGroupHandler hrun
    rw [Server.map_clientSocketId_tasks, Dispatch.tasks]
    split
    · exact List.nodup_singleton uninitialised
    · exact hfound _ _ hclients

/-! ### Who is free after a step -/

/-- No client of an empty slot is free. -/
theorem not_isFreeClient_of_empty (hfd : 0 ≤ fd) (hhash : hashFunc x = hashFunc fd)
    (hslot : (clients (hashFunc fd)).clientSocketFd = -1) : ¬ isFreeClient clients x := by
  rw [isFreeClient_iff, hhash, hslot]
  rintro ⟨rfl, -⟩
  have hopen : 0 ≤ hashFunc fd := Int.tmod_nonneg 255000 hfd
  rw [← hhash] at hopen
  exact absurd hopen (by decide)

/-- A registration makes its sender free if it leaves it in a slot with this status. -/
theorem isFreeClient_register (hfd : 0 ≤ fd) :
    isFreeClient (s.handleGroupIdRegs now fd groups).clients x ↔
      isFreeClient s.clients x ∨ (x = fd ∧
        ((s.clients (hashFunc fd)).clientSocketFd = -1 ∨
          (s.clients (hashFunc fd)).clientSocketFd = fd) ∧
        (s.clients (hashFunc fd)).clientStatus = .free) := by
  by_cases hslot : (s.clients (hashFunc fd)).clientSocketFd = -1
  · rw [Server.clients_register_of_free hslot, isFreeClient_update]
    by_cases hhash : hashFunc x = hashFunc fd
    · -- nobody was free in this slot, and now it has the client that registered
      have hnot := not_isFreeClient_of_empty hfd hhash hslot
      rw [if_pos hhash, or_iff_right hnot]
      constructor
      · rintro ⟨rfl, hstatus⟩
        exact ⟨rfl, .inl hslot, hstatus⟩
      · rintro ⟨rfl, -, hstatus⟩
        exact ⟨rfl, hstatus⟩
    · rw [if_neg hhash]
      refine (or_iff_left ?_).symm
      rintro ⟨rfl, -⟩
      exact hhash rfl
  · rw [Server.clients_register_of_taken hslot]
    refine (or_iff_left_of_imp ?_).symm
    rintro ⟨rfl, hplace, hstatus⟩
    exact isFreeClient_iff.mpr ⟨hplace.resolve_left hslot, hstatus⟩

/-- A removal makes nobody free. -/
theorem isFreeClient_of_remove (hfd : 0 ≤ fd) (h : isFreeClient (removeClient clients fd).2 x) :
    isFreeClient clients x := by
  by_cases hslot : (clients (hashFunc fd)).clientSocketFd = fd
  · by_cases hhash : hashFunc x = hashFunc fd
    · exact absurd h (not_isFreeClient_of_empty hfd hhash (by simp [removeClient_of_eq hslot]))
    · rwa [removeClient_of_eq hslot, isFreeClient_update, if_neg hhash] at h
  · rwa [removeClient_of_ne hslot] at h

/-! ### Steps -/

/-- The entries for one client that a step adds count when it makes this client free. -/
theorem foundOnce_iff_of_freed {p : Prop} (h : FoundOnce s)
    (hfree : ∀ x, isFreeClient s'.clients x ↔ isFreeClient s.clients x ∨ (x = fd ∧ p))
    (hhead : ∀ g, (s'.multicastGroups g).head =
      List.replicate (groups.count g) fd ++ (s.multicastGroups g).head)
    (hadded : isFreeClient s.clients fd → p ∨ groups = []) :
    FoundOnce s' ↔ (p → EntersOnce s fd groups) := by
  have hcount : ∀ g x, (s'.multicastGroups g).head.count x =
      (if fd = x then groups.count g else 0) + (s.multicastGroups g).head.count x := by
    intro g x
    rw [hhead, List.count_append, List.count_replicate]
    simp only [beq_iff_eq]
  rw [foundOnce_iff] at h ⊢
  constructor
  · intro hs' hp g
    have hle := hs' g fd ((hfree fd).mpr (.inr ⟨rfl, hp⟩))
    rwa [hcount, if_pos rfl] at hle
  · intro hcond g x hx
    rw [hcount]
    by_cases hfd : fd = x
    · -- only the client that joined can have got a second entry
      subst hfd
      rw [if_pos rfl]
      rcases (hfree fd).mp hx with hold | ⟨-, hp⟩
      · rcases hadded hold with hp | rfl
        · exact hcond hp g
        · rw [List.count_nil, Nat.zero_add]
          exact h g fd hold
      · exact hcond hp g
    · rw [if_neg hfd, Nat.zero_add]
      exact h g x (((hfree x).mp hx).resolve_right fun hnew => hfd hnew.1.symm)

/-- A step that makes nobody free, and adds no entries, keeps the property. -/
theorem foundOnce_of_imp (h : FoundOnce s)
    (hfree : ∀ x, isFreeClient s'.clients x → isFreeClient s.clients x)
    (hgroups : s'.multicastGroups = s.multicastGroups) : FoundOnce s' := by
  rw [foundOnce_iff] at h ⊢
  intro g x hx
  rw [hgroups]
  exact h g x (hfree x hx)

/-- A step keeps the property exactly if it meets the condition. -/
theorem foundOnce_step_iff {a : Action} (h : FoundOnce s) (hstep : step a s = some s') :
    FoundOnce s' ↔ KeepsOnce a s := by
  cases a with
  | register now fd groups =>
    obtain ⟨⟨hfd, -⟩, rfl⟩ := by simpa [step] using hstep
    rw [KeepsOnce, ← and_imp]
    refine foundOnce_iff_of_freed h (fun x => isFreeClient_register hfd)
      (fun g => head_addAClientToGroups) fun hfree => .inl ?_
    obtain ⟨hslot, hstatus⟩ := isFreeClient_iff.mp hfree
    exact ⟨.inr hslot, hstatus⟩
  | assign jobId groupId clientsAssigned =>
    obtain ⟨-, rfl⟩ := by simpa [step] using hstep
    exact iff_of_true (foundOnce_of_imp h (fun x hx => (isFreeClient_assign.mp hx).1) rfl) trivial
  | result fd jobId =>
    obtain ⟨-, rfl⟩ := by simpa [step] using hstep
    rw [KeepsOnce, ← and_imp]
    exact foundOnce_iff_of_freed h (fun x => isFreeClient_result) (fun g => rfl)
      fun _ => .inr rfl
  | remove fd =>
    obtain ⟨hfd, rfl⟩ := by simpa [step] using hstep
    exact iff_of_true (foundOnce_of_imp h (fun x => isFreeClient_of_remove hfd) rfl) trivial

theorem foundOnce_initialServer : FoundOnce initialServer :=
  foundOnce_iff.mpr fun _ _ _ => Nat.zero_le 1

/-- In every state of a run nobody is found twice, if and only if every step of it meets the
condition. -/
theorem foundOnce_along_iff (as : List Action) :
    Along step FoundOnce as initialServer ↔ Meets step KeepsOnce as initialServer :=
  along_iff_meets (I := fun _ => True) (fun _ _ _ _ _ => trivial)
    (fun _ _ _ _ h hstep => foundOnce_step_iff h hstep) trivial foundOnce_initialServer

/-- A client names group 1 twice. -/
def namedTwice : List Action := [.register 0 5 [1, 1]]

/-- It is found twice. -/
theorem not_foundOnce_namedTwice :
    ∃ s, run step namedTwice initialServer = some s ∧ s.freeClients 1 = some [5, 5] ∧
      ¬ FoundOnce s := by
  have hrun : (run step namedTwice initialServer).map (fun s => s.freeClients 1) =
      some (some [5, 5]) := by decide +kernel
  obtain ⟨s, hs, hfound⟩ := Option.map_eq_some_iff.mp hrun
  refine ⟨s, hs, hfound, fun h => ?_⟩
  exact absurd (h.found 1 [5, 5] hfound) (by decide)

end Multicast.Duplicates
