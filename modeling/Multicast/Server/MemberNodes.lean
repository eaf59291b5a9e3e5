import Mathlib.Algebra.GroupWithZero.Nat
import Mathlib.Data.List.Basic
import Multicast.Lib.LinkedList
import Multicast.Server.Leaving

/-!
# The members of a group in memory

A group points to the node of the client that joined last, and each node to the next one.
Joining allocates a node for each time that a group is named. Leaving walks along the list
with two pointers, links past the first node of the client and frees it.

Both follow the functions on the lists, and so do the runs. Leaving follows no pointer that
is null or was freed, ends within as many rounds of the walk as the longest list has nodes,
and leaves no node behind that no group points to.

## Main definitions

* `Multicast.MemberNodes.Memory` — the groups and the nodes
* `addAClientToGroups`, `removeClientFromGroups` — joining and leaving, in memory
* `Action`, `Allocates` — the calls, and what is asked of `malloc`
* `Represents` — the nodes are those of the lists

## Main results

* `removeBehind_spec` — the walk takes out the first node of the client
* `Represents.findFreeGroup_eq` — the group that is found is the same
* `Represents.add`, `Represents.remove` — joining and leaving follow the lists
* `Represents.remove_ne_none` — leaving ends
* `exists_run_of_lists` — the runs follow those on the lists, and none of them fails
-/

set_option autoImplicit false

namespace Multicast.MemberNodes

open LinkedList StepRun

/-- `struct group`, with the pointer to the first node. -/
structure Group where
  groupStatus : Status
  jobId : ℤ
  numOfClients : ℤ
  head : Option ℕ

/-- The nodes `struct client` in which a list keeps descriptors, and `multicast_groups`. -/
structure Memory where
  nodes : Heap ℤ
  groups : ℤ → Group

/-- `initialize_group_array`, before anything was allocated. -/
def initializeGroupArray : Memory where
  nodes := fun _ => none
  groups := fun _ =>
    { groupStatus := .free
      jobId := -1
      numOfClients := 0
      head := none }

/-! ### Joining -/

/-- One round of the loop of `add_a_client_to_groups`. The call of `malloc` finds an address for
the new node; there is no way on without one. -/
def addAClientToGroup (malloc : Option ℕ) (clientSocketFd : ℤ) (m : Memory) (g : ℤ) :
    Option Memory := do
  let client ← malloc
  let nodes := Function.update m.nodes client (some ⟨clientSocketFd, none⟩)
  let groups := Function.update m.groups g
    { m.groups g with
      numOfClients := (m.groups g).numOfClients + 1
      head := some client }
  match (m.groups g).head with
  | none => some ⟨nodes, groups⟩
  | some temp =>
    -- the new node is linked only when the group points to it already
    let nodes ← setNext nodes client (some temp)
    some ⟨nodes, groups⟩

/-- `add_a_client_to_groups`, with what `malloc` finds in each round. -/
def addAClientToGroups (clientSocketFd : ℤ) : List ℤ → List (Option ℕ) → Memory → Option Memory
  | [], _, m => some m
  | _ :: _, [], _ => none
  | g :: groups, malloc :: mallocs, m =>
    (addAClientToGroup malloc clientSocketFd m g).bind
      (addAClientToGroups clientSocketFd groups mallocs)

/-! ### Leaving -/

/-- The inner loop of `remove_client_from_groups`, for at most `fuel` rounds. -/
def removeBehind (clientSocketFd : ℤ) : ℕ → Heap ℤ → ℕ → Option (Heap ℤ)
  | 0, _, _ => none
  | fuel + 1, nodes, prev => do
    let prevNode ← nodes prev
    match prevNode.next with
    | none => some nodes
    | some current => do
      let currentNode ← nodes current
      if currentNode.value = clientSocketFd then
        let nodes ← setNext nodes prev currentNode.next
        (setNext nodes current none).bind (free · current)
      else removeBehind clientSocketFd fuel nodes current

/-- One round of the outer loop of `remove_client_from_groups`. -/
def removeClientFromGroup (fuel : ℕ) (clientSocketFd : ℤ) (m : Memory) (g : ℤ) :
    Option Memory :=
  match (m.groups g).head with
  | none => some m
  | some prev => do
    let prevNode ← m.nodes prev
    if prevNode.value = clientSocketFd then
      -- the group no longer points to the node when it is freed
      let groups := Function.update m.groups g { m.groups g with head := prevNode.next }
      let nodes ← (setNext m.nodes prev none).bind (free · prev)
      some ⟨nodes, groups⟩
    else
      let nodes ← removeBehind clientSocketFd fuel m.nodes prev
      some { m with nodes := nodes }

/-- `remove_client_from_groups`. -/
def removeClientFromGroups (fuel : ℕ) (m : Memory) (clientSocketFd : ℤ)
    (groupsJoined : List ℤ) : Option Memory :=
  groupsJoined.foldlM (removeClientFromGroup fuel clientSocketFd) m

/-! ### Looking -/

/-- `find_free_group`. -/
def findFreeGroup (m : Memory) : ℤ :=
  match (List.range numberOfGroups).find? fun i : ℕ =>
      (m.groups i).groupStatus = .free ∧ (m.groups i).head ≠ none with
  | some i => (i : ℤ)
  | none => -1

/-! ### The lists -/

/-- The group whose list has these cells. -/
def Group.withCells (group : Group) (cells : List (ℕ × ℤ)) : Multicast.Group where
  groupStatus := group.groupStatus
  jobId := group.jobId
  numOfClients := group.numOfClients
  head := cells.map Prod.snd

/-- The memory holds the lists of the groups and no other nodes. -/
def Represents (m : Memory) (mg : MulticastGroups) : Prop :=
  ∃ cells, Lists m.nodes (fun g => (m.groups g).head) cells ∧
    ∀ g, mg g = (m.groups g).withCells (cells g)

variable {m m' : Memory} {mg mg' : MulticastGroups} {mallocs : List (Option ℕ)}
variable {nodes nodes' : Heap ℤ} {cells : List (ℕ × ℤ)} {group : Group} {groups : List ℤ}
variable {fd x y g : ℤ} {prev current fuel : ℕ} {next : Option ℕ}

theorem represents_initializeGroupArray :
    Represents initializeGroupArray Multicast.initializeGroupArray := by
  refine ⟨fun _ => [], ⟨fun _ => rfl, fun _ => List.nodup_nil, ?_, ?_⟩, fun _ => rfl⟩
  · exact fun _ _ a ha => absurd ha List.not_mem_nil
  · exact fun a ha => absurd rfl ha

/-- A pointer is null exactly if the list is empty, so that the group that is found for a
job is the same. -/
theorem Represents.findFreeGroup_eq (h : Represents m mg) :
    findFreeGroup m = Multicast.findFreeGroup mg := by
  obtain ⟨lists, hlists, hgroup⟩ := h
  have hhead (g : ℤ) : (m.groups g).head = none ↔ (mg g).head = [] := by
    rw [hgroup g, Group.withCells, List.map_eq_nil_iff]
    exact (hlists.chain g).eq_none_iff
  have hfree : (fun i : ℕ => decide ((m.groups i).groupStatus = .free ∧
      (m.groups i).head ≠ none)) =
        fun i : ℕ => decide ((mg i).groupStatus = .free ∧ (mg i).head ≠ []) := by
    funext i
    rw [decide_eq_decide, Ne, hhead, hgroup i]
    exact Iff.rfl
  unfold findFreeGroup Multicast.findFreeGroup
  generalize numberOfGroups = n
  exact congrArg (List.find? · (List.range n)) hfree ▸ rfl

/-- The list of one group is changed. -/
theorem represents_update {lists : ℤ → List (ℕ × ℤ)}
    (h : Lists m.nodes (fun g => (m.groups g).head) lists)
    (hgroup : ∀ g, mg g = (m.groups g).withCells (lists g))
    (hchain : Chain nodes group.head cells) (hnodup : (addresses cells).Nodup)
    (hr : Rewrites m.nodes nodes (lists g) cells) :
    Represents ⟨nodes, Function.update m.groups g group⟩
      (Function.update mg g (group.withCells cells)) := by
  refine ⟨Function.update lists g cells, ?_, fun g' => ?_⟩
  · have hhead : (fun g' => (Function.update m.groups g group g').head) =
        Function.update (fun g => (m.groups g).head) g group.head :=
      funext fun g' => Function.apply_update (fun _ => Group.head) ..
    rw [hhead]
    exact h.update hchain hnodup hr
  · change _ = (Function.update m.groups g group g').withCells _
    by_cases hg : g' = g
    · subst hg
      rw [Function.update_self, Function.update_self, Function.update_self]
    · rw [Function.update_of_ne hg, Function.update_of_ne hg, Function.update_of_ne hg]
      exact hgroup g'

/-! ### Joining -/

/-- One round puts a node in front, whether there is a list or not. -/
theorem addAClientToGroup_eq (client : ℕ) :
    addAClientToGroup (some client) fd m g =
      some ⟨Function.update m.nodes client (some ⟨fd, (m.groups g).head⟩),
        Function.update m.groups g
          { m.groups g with
            numOfClients := (m.groups g).numOfClients + 1
            head := some client }⟩ := by
  rw [addAClientToGroup, Option.bind_eq_bind, Option.bind_some]
  cases hhead : (m.groups g).head with
  | none => rfl
  | some temp =>
    change (setNext _ client (some temp)).bind _ = _
    rw [setNext_eq_some (Function.update_self ..), Option.bind_some, Function.update_idem]

/-- A round needs one free address, and leaves the others free. -/
theorem Represents.add_one {client : ℕ} (fd g : ℤ) (h : Represents m mg)
    (hclient : m.nodes client = none) :
    ∃ m', addAClientToGroup (some client) fd m g = some m' ∧
      Represents m' (Multicast.addAClientToGroup fd mg g) ∧
        ∀ a ≠ client, m'.nodes a = m.nodes a := by
  -- the address of the new node is in no list, as it was not allocated
  refine ⟨_, addAClientToGroup_eq client, ?_, fun a ha => Function.update_of_ne ha ..⟩
  obtain ⟨lists, hlists, hgroup⟩ := h
  have hnew : client ∉ addresses (lists g) := fun hmem =>
    (hlists.chain g).ne_none hmem hclient
  rw [Multicast.addAClientToGroup, hgroup g]
  have hnodup : (addresses ((client, fd) :: lists g)).Nodup :=
    List.nodup_cons.mpr ⟨hnew, hlists.nodup g⟩
  exact represents_update hlists hgroup ((hlists.chain g).push hclient) hnodup (.push hclient)

/-- As many free addresses as there are rounds. -/
structure FindsFree (m : Memory) (groups : List ℤ) (mallocs : List (Option ℕ)) : Prop where
  length : mallocs.length = groups.length
  nodup : mallocs.Nodup
  free : ∀ malloc ∈ mallocs, ∃ client ∈ malloc, m.nodes client = none

/-- Joining follows the lists, wherever the new nodes are. -/
theorem Represents.add (fd : ℤ) (h : Represents m mg) (hfree : FindsFree m groups mallocs) :
    ∃ m', addAClientToGroups fd groups mallocs m = some m' ∧
      Represents m' (Multicast.addAClientToGroups mg fd groups) := by
  induction groups generalizing mallocs m mg with
  | nil => exact ⟨m, rfl, h⟩
  | cons g groups ih =>
    obtain ⟨hlength, hnodup, hfree⟩ := hfree
    obtain _ | ⟨malloc, mallocs⟩ := mallocs
    · cases hlength
    obtain ⟨hnew, hdistinct⟩ := List.nodup_cons.mp hnodup
    obtain ⟨⟨client, rfl, hclient⟩, hlater⟩ := List.forall_mem_cons.mp hfree
    obtain ⟨m₁, hfirst, h₁, hothers⟩ := h.add_one fd g hclient
    have hfree₁ : FindsFree m₁ groups mallocs := by
      refine ⟨Nat.succ.inj hlength, hdistinct, fun malloc hmem => ?_⟩
      obtain ⟨a, rfl, ha⟩ := hlater malloc hmem
      have hne : a ≠ client := by
        rintro rfl
        exact hnew hmem
      exact ⟨a, rfl, (hothers a hne).trans ha⟩
    obtain ⟨m', hrest, h'⟩ := ih h₁ hfree₁
    refine ⟨m', ?_, h'⟩
    rw [addAClientToGroups, hfirst]
    exact hrest

/-! ### Leaving -/

theorem removeBehind_of_eq (hprev : nodes prev = some ⟨x, some current⟩)
    (hcurrent : nodes current = some ⟨fd, next⟩) (hne : current ≠ prev) :
    removeBehind fd (fuel + 1) nodes prev =
      some (Function.update (Function.update nodes prev (some ⟨x, next⟩)) current none) := by
  have hcurrent' : Function.update nodes prev (some ⟨x, next⟩) current = some ⟨fd, next⟩ := by
    rw [Function.update_of_ne hne, hcurrent]
  rw [removeBehind, hprev, Option.bind_eq_bind, Option.bind_some]
  dsimp only
  rw [hcurrent, Option.bind_some, if_pos rfl, setNext_eq_some hprev, Option.bind_eq_bind,
    Option.bind_some, setNext_bind_free hcurrent']

theorem removeBehind_of_ne (hprev : nodes prev = some ⟨x, some current⟩)
    (hcurrent : nodes current = some ⟨y, next⟩) (hy : y ≠ fd) :
    removeBehind fd (fuel + 1) nodes prev = removeBehind fd fuel nodes current := by
  rw [removeBehind, hprev, Option.bind_eq_bind, Option.bind_some]
  dsimp only
  rw [hcurrent, Option.bind_some, if_neg hy]

theorem removeBehind_of_none (hprev : nodes prev = some ⟨x, none⟩) :
    removeBehind fd (fuel + 1) nodes prev = some nodes := by
  rw [removeBehind, hprev]
  rfl

/-- The walk from a node of another client takes out the first node of the client behind
it, if there is one. -/
theorem removeBehind_spec (hchain : Chain nodes (some prev) ((prev, x) :: cells))
    (hnodup : (addresses ((prev, x) :: cells)).Nodup)
    (hwalk : removeBehind fd fuel nodes prev = some nodes') :
    Chain nodes' (some prev) ((prev, x) :: cells.eraseP (·.2 = fd)) ∧
      Rewrites nodes nodes' ((prev, x) :: cells) ((prev, x) :: cells.eraseP (·.2 = fd)) := by
  induction cells generalizing nodes prev x fuel with
  | nil =>
    obtain ⟨-, next, hprev, rfl⟩ := hchain
    cases fuel with
    | zero => cases hwalk
    | succ fuel =>
      rw [removeBehind_of_none hprev] at hwalk
      obtain rfl := Option.some.inj hwalk
      exact ⟨⟨rfl, none, hprev, rfl⟩, .refl ..⟩
  | cons cell cells ih =>
    obtain ⟨current, y⟩ := cell
    obtain ⟨-, next, hprev, rfl, next', hcurrent, hrest⟩ := hchain
    obtain ⟨hnot, hnodup⟩ := List.nodup_cons.mp hnodup
    have hne : current ≠ prev := (List.ne_of_not_mem_cons hnot).symm
    cases fuel with
    | zero => cases hwalk
    | succ fuel =>
      by_cases hy : y = fd
      · -- the walk ends here
        subst hy
        rw [removeBehind_of_eq hprev hcurrent hne] at hwalk
        obtain rfl := Option.some.inj hwalk
        rw [List.eraseP_cons_of_pos (by simp)]
        refine ⟨?_, .free_second hne.symm⟩
        exact (hrest.set_next (List.not_mem_of_not_mem_cons hnot)).update
          (List.not_mem_cons_of_ne_of_not_mem hne (List.nodup_cons.mp hnodup).1)
      · -- and goes on from the next node, the first one being left as it is
        rw [removeBehind_of_ne hprev hcurrent hy] at hwalk
        rw [List.eraseP_cons_of_neg (by simpa using hy)]
        obtain ⟨hchain, hr⟩ := ih ⟨rfl, next', hcurrent, hrest⟩ hnodup hwalk
        have hsub := ((List.eraseP_sublist (p := (·.2 = fd)) (l := cells)).cons_cons
          (current, y)).map Prod.fst
        have hframe := hr.frame prev hnot fun hmem => hnot (hsub.mem hmem)
        exact ⟨⟨rfl, some current, hframe.trans hprev, hchain⟩, hr.cons⟩

/-- The walk ends within as many rounds as there are nodes. -/
theorem removeBehind_ne_none (hchain : Chain nodes (some prev) ((prev, x) :: cells))
    (hnodup : (addresses ((prev, x) :: cells)).Nodup) (hfuel : cells.length < fuel) :
    removeBehind fd fuel nodes prev ≠ none := by
  obtain ⟨fuel, rfl⟩ := Nat.exists_eq_add_one_of_ne_zero (Nat.ne_zero_of_lt hfuel)
  induction cells generalizing nodes prev x fuel with
  | nil =>
    obtain ⟨-, next, hprev, rfl⟩ := hchain
    rw [removeBehind_of_none hprev]
    exact Option.some_ne_none _
  | cons cell cells ih =>
    obtain ⟨current, y⟩ := cell
    obtain ⟨-, next, hprev, rfl, next', hcurrent, hrest⟩ := hchain
    obtain ⟨hnot, hnodup⟩ := List.nodup_cons.mp hnodup
    by_cases hy : y = fd
    · subst hy
      rw [removeBehind_of_eq hprev hcurrent (List.ne_of_not_mem_cons hnot).symm]
      exact Option.some_ne_none _
    · rw [removeBehind_of_ne hprev hcurrent hy]
      obtain ⟨fuel, rfl⟩ := Nat.exists_eq_add_one_of_ne_zero
        (Nat.ne_zero_of_lt (Nat.succ_lt_succ_iff.mp hfuel))
      exact ih ⟨rfl, next', hcurrent, hrest⟩ hnodup fuel (Nat.succ_lt_succ_iff.mp hfuel)

/-- Taking out the cell takes the descriptor out of the list. -/
theorem withCells_eraseP (p : Option ℕ) :
    { group with head := p }.withCells (cells.eraseP (·.2 = fd)) =
      { group.withCells cells with head := (group.withCells cells).head.erase fd } := by
  have herase : (cells.eraseP (·.2 = fd)).map Prod.snd = (cells.map Prod.snd).erase fd := by
    rw [List.erase_eq_eraseP', List.eraseP_map]
    rfl
  rw [Group.withCells, herase]
  rfl

theorem removeClientFromGroup_of_none (hhead : (m.groups g).head = none) :
    removeClientFromGroup fuel fd m g = some m := by
  rw [removeClientFromGroup, hhead]

theorem removeClientFromGroup_of_eq (hhead : (m.groups g).head = some prev)
    (hprev : m.nodes prev = some ⟨fd, next⟩) :
    removeClientFromGroup fuel fd m g =
      some ⟨Function.update m.nodes prev none,
        Function.update m.groups g { m.groups g with head := next }⟩ := by
  rw [removeClientFromGroup, hhead]
  dsimp only
  rw [hprev, Option.bind_eq_bind, Option.bind_some, if_pos rfl, setNext_bind_free hprev]
  rfl

theorem removeClientFromGroup_of_ne (hhead : (m.groups g).head = some prev)
    (hprev : m.nodes prev = some ⟨x, next⟩) (hx : x ≠ fd) :
    removeClientFromGroup fuel fd m g =
      (removeBehind fd fuel m.nodes prev).bind fun nodes => some { m with nodes := nodes } := by
  rw [removeClientFromGroup, hhead]
  dsimp only
  rw [hprev, Option.bind_eq_bind, Option.bind_some, if_neg hx]
  rfl

theorem Represents.remove_one (h : Represents m mg)
    (hremove : removeClientFromGroup fuel fd m g = some m') :
    Represents m' (Multicast.removeClientFromGroup fd mg g) := by
  obtain ⟨lists, hlists, hgroup⟩ := h
  have hchain := hlists.chain g
  have hnodup := hlists.nodup g
  rw [Multicast.removeClientFromGroup, hgroup g]
  -- a list without nodes, one whose first node goes, and one whose first node stays
  cases hcells : lists g with
  | nil =>
    rw [hcells] at hchain
    rw [removeClientFromGroup_of_none hchain] at hremove
    obtain rfl := Option.some.inj hremove
    have hself := represents_update (g := g) hlists hgroup (hlists.chain g) hnodup (.refl ..)
    rw [Function.update_eq_self, hcells] at hself
    exact hself
  | cons cell cells =>
    obtain ⟨prev, x⟩ := cell
    rw [hcells] at hchain hnodup
    obtain ⟨hhead, next, hprev, hrest⟩ := hchain
    by_cases hx : x = fd
    · subst hx
      rw [removeClientFromGroup_of_eq hhead hprev] at hremove
      obtain rfl := Option.some.inj hremove
      obtain ⟨hnot, hnodup⟩ := List.nodup_cons.mp hnodup
      rw [← withCells_eraseP next, List.eraseP_cons_of_pos (by simp)]
      refine represents_update hlists hgroup (hrest.update hnot) hnodup ?_
      rw [hcells]
      exact .free_first
    · rw [removeClientFromGroup_of_ne hhead hprev hx] at hremove
      obtain ⟨nodes, hwalk, hm⟩ := Option.bind_eq_some_iff.mp hremove
      obtain rfl := Option.some.inj hm
      obtain ⟨hchain, hr⟩ := removeBehind_spec ⟨rfl, next, hprev, hrest⟩ hnodup hwalk
      rw [← withCells_eraseP (m.groups g).head, List.eraseP_cons_of_neg (by simpa using hx)]
      have hsub := ((List.eraseP_sublist (p := (·.2 = fd)) (l := cells)).cons_cons
        (prev, x)).map Prod.fst
      have hkept : Represents ⟨nodes, Function.update m.groups g (m.groups g)⟩ _ :=
        represents_update hlists hgroup (hhead ▸ hchain) (hnodup.sublist hsub) (hcells ▸ hr)
      rw [Function.update_eq_self] at hkept
      exact hkept

/-- Leaving follows the lists. -/
theorem Represents.remove (h : Represents m mg)
    (hremove : removeClientFromGroups fuel m fd groups = some m') :
    Represents m' (Multicast.removeClientFromGroups mg fd groups) := by
  induction groups generalizing m mg with
  | nil =>
    obtain rfl := Option.some.inj hremove
    exact h
  | cons g groups ih =>
    rw [removeClientFromGroups, List.foldlM_cons] at hremove
    obtain ⟨m₁, hfirst, hrest⟩ := Option.bind_eq_some_iff.mp hremove
    exact ih (h.remove_one hfirst) hrest

theorem Represents.remove_one_ne_none (h : Represents m mg) (hfuel : (mg g).head.length ≤ fuel) :
    removeClientFromGroup fuel fd m g ≠ none := by
  obtain ⟨lists, hlists, hgroup⟩ := h
  have hchain := hlists.chain g
  have hnodup := hlists.nodup g
  rw [hgroup g, Group.withCells, List.length_map] at hfuel
  cases hcells : lists g with
  | nil =>
    rw [hcells] at hchain
    rw [removeClientFromGroup_of_none hchain]
    exact Option.some_ne_none _
  | cons cell cells =>
    obtain ⟨prev, x⟩ := cell
    rw [hcells] at hchain hnodup hfuel
    obtain ⟨hhead, next, hprev, hrest⟩ := hchain
    by_cases hx : x = fd
    · subst hx
      rw [removeClientFromGroup_of_eq hhead hprev]
      exact Option.some_ne_none _
    · -- the walk has a round left for each node behind the first one
      rw [removeClientFromGroup_of_ne hhead hprev hx, Ne, Option.bind_eq_none_iff]
      obtain ⟨nodes, hwalk⟩ := Option.ne_none_iff_exists'.mp
        (removeBehind_ne_none ⟨rfl, next, hprev, hrest⟩ hnodup (Nat.lt_of_succ_le hfuel))
      exact fun hnone => absurd (hnone nodes hwalk) (Option.some_ne_none _)

/-- Leaving ends, if the walks are given as many rounds as the longest list has nodes. -/
theorem Represents.remove_ne_none (h : Represents m mg)
    (hfuel : ∀ g, (mg g).head.length ≤ fuel) :
    removeClientFromGroups fuel m fd groups ≠ none := by
  induction groups generalizing m mg with
  | nil => exact Option.some_ne_none _
  | cons g groups ih =>
    obtain ⟨m₁, hfirst⟩ : ∃ m₁, removeClientFromGroup fuel fd m g = some m₁ :=
      Option.ne_none_iff_exists'.mp (h.remove_one_ne_none (hfuel g))
    rw [removeClientFromGroups, List.foldlM_cons, hfirst]
    refine ih (h.remove_one hfirst) fun g' => ?_
    rw [Multicast.removeClientFromGroup]
    by_cases hg : g' = g
    · subst hg
      rw [Function.update_self]
      exact Nat.le_trans List.length_erase_le (hfuel g')
    · rw [Function.update_of_ne hg]
      exact hfuel g'

/-! ### Runs -/

/-- The calls that change the members, with what `malloc` finds. -/
inductive Action where
  | add (mallocs : List (Option ℕ)) (clientSocketFd : ℤ) (groups : List ℤ)
  | remove (clientSocketFd : ℤ) (groupsJoined : List ℤ)

/-- The call on the lists. -/
def Action.call : Action → Leaving.Action
  | .add _ clientSocketFd groups => .add clientSocketFd groups
  | .remove clientSocketFd groupsJoined => .remove clientSocketFd groupsJoined

/-- One step, for groups that exist. -/
def step (fuel : ℕ) : Action → Memory → Option Memory
  | .add mallocs clientSocketFd groups, m =>
    if ValidGroups groups then addAClientToGroups clientSocketFd groups mallocs m else none
  | .remove clientSocketFd groupsJoined, m =>
    if ValidGroups groupsJoined then removeClientFromGroups fuel m clientSocketFd groupsJoined
    else none

/-- No allocation fails, and a new node is not one that is allocated. -/
def Allocates : Action → Memory → Prop
  | .add mallocs _ groups, m => FindsFree m groups mallocs
  | .remove _ _, _ => True

/-- How many nodes a step allocates. -/
def joins : Leaving.Action → ℕ
  | .add _ groups => groups.length
  | .remove _ _ => 0

/-- Every step of the lists is followed in the memory, if no allocation fails and the walks are
given as many rounds as the longest list has nodes. -/
theorem Represents.exists_step {a : Action} (h : Represents m mg) (ha : Allocates a m)
    (hfuel : ∀ g, (mg g).head.length ≤ fuel) (hstep : Leaving.step a.call mg = some mg') :
    ∃ m', step fuel a m = some m' ∧ Represents m' mg' := by
  cases a with
  | add mallocs fd groups =>
    obtain ⟨hvalid, hadd⟩ := Option.ite_none_right_eq_some.mp hstep
    obtain rfl := Option.some.inj hadd
    obtain ⟨m', hm', h'⟩ := h.add fd ha
    exact ⟨m', (if_pos hvalid).trans hm', h'⟩
  | remove fd groups =>
    obtain ⟨hvalid, hremove⟩ := Option.ite_none_right_eq_some.mp hstep
    obtain rfl := Option.some.inj hremove
    obtain ⟨m', hm'⟩ := Option.ne_none_iff_exists'.mp (h.remove_ne_none hfuel)
    exact ⟨m', (if_pos hvalid).trans hm', h.remove hm'⟩

theorem length_head_step_le {a : Leaving.Action} (hstep : Leaving.step a mg = some mg') :
    (mg' g).head.length ≤ (mg g).head.length + joins a := by
  cases a with
  | add fd groups =>
    obtain ⟨-, hadd⟩ := Option.ite_none_right_eq_some.mp hstep
    obtain rfl := Option.some.inj hadd
    rw [head_addAClientToGroups, List.length_append, List.length_replicate, Nat.add_comm]
    exact Nat.add_le_add_left List.count_le_length _
  | remove fd groups =>
    obtain ⟨-, hremove⟩ := Option.ite_none_right_eq_some.mp hstep
    obtain rfl := Option.some.inj hremove
    rw [removeClientFromGroups_apply]
    exact (List.diff_sublist ..).length_le

/-- The lists and the memory run alike from states that do, if the walks are given a round for
each member and each node that is allocated later. -/
theorem Represents.exists_run {as : List Action} (h : Represents m mg)
    (hallocates : Checks (step fuel) Allocates as m)
    (hfuel : ∀ g, (mg g).head.length + (as.map fun a => joins a.call).sum ≤ fuel)
    (hrun : run Leaving.step (as.map Action.call) mg = some mg') :
    ∃ m', run (step fuel) as m = some m' ∧ Represents m' mg' := by
  induction as generalizing m mg with
  | nil =>
    obtain rfl := Option.some.inj hrun
    exact ⟨m, rfl, h⟩
  | cons a as ih =>
    obtain ⟨mg₁, hstep, hrest⟩ := run_cons_eq_some.mp hrun
    obtain ⟨ha, hlater⟩ := hallocates
    obtain ⟨m₁, hstep₁, h₁⟩ := h.exists_step ha
      (fun g => Nat.le_trans (Nat.le_add_right ..) (hfuel g)) hstep
    have hfuel₁ (g : ℤ) :
        (mg₁ g).head.length + (as.map fun a => joins a.call).sum ≤ fuel := by
      have hlength := length_head_step_le (g := g) hstep
      have hsum := hfuel g
      rw [List.map_cons, List.sum_cons] at hsum
      omega
    obtain ⟨m', hrun₁, h'⟩ := ih h₁ (hlater m₁ hstep₁) hfuel₁ hrest
    exact ⟨m', run_cons_eq_some.mpr ⟨m₁, hstep₁, hrun₁⟩, h'⟩

/-- The memory runs as the lists do. If no allocation fails, no call follows a pointer that is
null or was freed, and leaving ends within a round for each node that was allocated. At the end
the nodes are those of the lists, and there are no others. -/
theorem exists_run_of_lists {as : List Action}
    (hallocates : Checks (step fuel) Allocates as initializeGroupArray)
    (hfuel : (as.map fun a => joins a.call).sum ≤ fuel)
    (hrun : run Leaving.step (as.map Action.call) Multicast.initializeGroupArray = some mg) :
    ∃ m, run (step fuel) as initializeGroupArray = some m ∧ Represents m mg :=
  represents_initializeGroupArray.exists_run hallocates
    (fun _ => (Nat.zero_add _).symm ▸ hfuel) hrun

/-- Two clients join group 1. The first one leaves it and joins again, and gets its node back. -/
def joinAndLeave : List Action :=
  [.add [some 7] 5 [1], .add [some 9] 6 [1], .remove 5 [1], .add [some 7] 5 [1]]

theorem exists_run_of_lists_joinAndLeave :
    ∃ m, run (step 3) joinAndLeave initializeGroupArray = some m ∧
      ∃ mg, Represents m mg ∧ (mg 1).head = [5, 6] := by
  have hfree {m : Memory} {client : ℕ} (h : m.nodes client = none) :
      FindsFree m [1] [some client] :=
    ⟨rfl, List.pairwise_singleton .., fun _ hmem => ⟨client, List.mem_singleton.mp hmem, h⟩⟩
  have hallocates : Checks (step 3) Allocates joinAndLeave initializeGroupArray := by
    refine ⟨hfree rfl, fun m₁ h₁ => ?_⟩
    obtain rfl := Option.some.inj h₁
    refine ⟨hfree rfl, fun m₂ h₂ => ?_⟩
    obtain rfl := Option.some.inj h₂
    refine ⟨trivial, fun m₃ h₃ => ?_⟩
    obtain rfl := Option.some.inj h₃
    exact ⟨hfree rfl, fun _ _ => trivial⟩
  obtain ⟨mg, hrun, hhead⟩ : ∃ mg, run Leaving.step (joinAndLeave.map Action.call)
      Multicast.initializeGroupArray = some mg ∧ (mg 1).head = [5, 6] := ⟨_, rfl, rfl⟩
  obtain ⟨m, hm, h⟩ := exists_run_of_lists hallocates (Nat.le_refl 3) hrun
  exact ⟨m, hm, mg, h, hhead⟩

end Multicast.MemberNodes
