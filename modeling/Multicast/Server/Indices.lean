import Multicast.Lib.StepRun
import Multicast.Server.Arguments
import Multicast.Server.Lookups
import Multicast.Server.Registration
import Multicast.Shell.Params

/-!
# Indices into the group table

The table of the groups is indexed with numbers from four sides: the ids that a client
sends, the answer of `find_free_group`, which is `-1` if there is no group, the number
that an operator types, and the id that a group handler reads from the arguments of its job.
The number that is typed is compared with 255 and nothing else is compared with anything.

The id that a handler reads was found by `find_free_group` before, if the variable that it is
read from still is one: `job_addition` queues the address of a local variable, and a handler that
comes after its call has returned indexes the table with whatever lies on the stack. If the next
call has its variable at the same address, the handler finds a group there, although another one.

## Main definitions

* `Multicast.Indices.Action`, `step` — command lines, the shell, handlers, messages, the timer
* `indices` — the indices that a step uses
* `GroupsExist` — the condition on the steps
* `GroupsReadInTime` — a condition on the order of the shell and the handlers

## Main results

* `indicesInRange_iff` — one step uses indices in range exactly if it meets the condition
* `checks_groupsExist` — handlers that read their group in time meet it
* `indicesInRange_along_iff` — the two for runs
* `not_indicesInRange_showGroup` — a line that does not
-/

set_option autoImplicit false

namespace Multicast.Indices

open StepRun Shell Arguments

/-! ### Runs -/

/-- What can happen. A line that starts a job is a call of `job_addition`, with its variable at an
address; the statements of the call are steps of the shell. -/
inductive Action where
  | command (address : ℕ) (line : CommandLine)
  | shell
  | read (k : ℕ)
  | groupHandler (k : ℕ) (uninitialised : List ℤ)
  | register (now clientSocketFd : ℤ) (payload : List UInt8)
  | result (clientSocketFd value jobId : ℤ)
  | readable (clientCount : ℤ) (thread : ℕ)
  | timer (now i : ℤ)

/-- The bookkeeping of `multicast_Group_Handler`. If the group is empty, the array of the
clients holds whatever was in memory. -/
def runGroupHandler (uninitialised : List ℤ) (s : Server) (mgId : ℤ) : Option Server :=
  let arrClients := (s.freeClients mgId).getD uninitialised
  (s.markClients mgId arrClients).recordJob mgId arrClients

/-- What a command line does. -/
def runCommand (lib : MinMax) (address : ℕ) (s : Threads) : ShellAction → Option Threads
  | .startJob jobNumber fileName => Arguments.step lib (.start address jobNumber fileName) s
  | .showJobs => (displayJobsStatus s.jobList).map fun _ => s
  | .quit => none
  | .usage | .showGroup _ | .showMessages | .showClients | .showAllGroups _ | .nothing => some s

/-- The index that a handler has, when it has read its arguments and not used them: none for a
value that was not defined. -/
def mgIdOf (t : Arguments.Handler) : Option (Option ℤ) :=
  match t.progress, t.dispatched with
  | .readAll groupId _ _, false => some groupId
  | _, _ => none

/-- One step. The shell takes the next line when the call of the last one has returned. -/
def step (lib : MinMax) : Action → Threads → Option Threads
  | .command address line, s =>
    if s.shell = .idle then runCommand lib address s (commandOf line.chars) else none
  | .shell, s => shellStep s
  | .read k, s => Arguments.step lib (.read k) s
  | .groupHandler k uninitialised, s =>
    s.handlers[k]?.bind fun t => (mgIdOf t).join.bind fun mgId =>
      (runGroupHandler uninitialised s.toServer mgId).map fun server =>
        { s with toServer := server, handlers := s.handlers.set k { t with dispatched := true } }
  | .register now clientSocketFd payload, s =>
    some { s with toServer := s.handleGroupIdPayload now clientSocketFd payload }
  | .result clientSocketFd value jobId, s =>
    (s.handleResult lib clientSocketFd value jobId).map fun server => { s with toServer := server }
  | .readable clientCount thread, s => some { s with toServer := s.storeReader clientCount thread }
  | .timer now i, s => (s.timerRound now i).map fun server => { s with toServer := server }

/-! ### The property and the condition -/

/-- The indices that a command line uses: `update_group_with_job_assigned` with the group
that was found, and `show_all_clients`. -/
def commandIndices (s : Server) : ShellAction → List ℤ
  | .startJob _ _ => [findFreeGroup s.multicastGroups]
  | .showGroup groupId => [groupId]
  | .showAllGroups _ => (List.range 255).map fun i : ℕ => (i : ℤ)
  | .showMessages => (List.range 1000).map fun i : ℕ => (i : ℤ)
  | .quit | .usage | .showClients | .showJobs | .nothing => []

/-- The indices that a step uses, none for an index without a value. A group handler also shows
the clients of group 1. -/
def indices : Action → Threads → List (Option ℤ)
  | .command _ line, s =>
    if s.shell = .idle then (commandIndices s.toServer (commandOf line.chars)).map some else []
  | .register _ _ payload, _ => (groupIds payload).map some
  | .groupHandler k _, s =>
    match s.handlers[k]?.bind mgIdOf with
    | some mgId => [mgId, some 1]
    | none => []
  | .shell, _ | .read _, _ | .result .., _ | .readable .., _ | .timer .., _ => []

/-- An index has a value, and a group has that index. -/
def IsGroup (index : Option ℤ) : Prop := ∃ g, index = some g ∧ 0 ≤ g ∧ g < numberOfGroups

/-- All indices that a step uses are those of groups. -/
def IndicesInRange (a : Action) (s : Threads) : Prop := ∀ index ∈ indices a s, IsGroup index

/-- The condition on a command line: a job finds a group, and a group that is shown has no
negative id. -/
def CommandNamesGroup (s : Server) : ShellAction → Prop
  | .startJob _ _ => findFreeGroup s.multicastGroups ≠ -1
  | .showGroup groupId => 0 ≤ groupId
  | .quit | .usage | .showMessages | .showClients | .showJobs | .showAllGroups _ | .nothing => True

/-- The condition on a step. A client names groups that exist, and the variable from which a
handler has read its group was defined. -/
def GroupsExist : Action → Threads → Prop
  | .command _ line, s => s.shell = .idle → CommandNamesGroup s.toServer (commandOf line.chars)
  | .register _ _ payload, _ => ValidGroups (groupIds payload)
  | .groupHandler k _, s => s.handlers[k]?.bind mgIdOf ≠ some none
  | .shell, _ | .read _, _ | .result .., _ | .readable .., _ | .timer .., _ => True

/-- A handler has begun to read: `mg_id` is the first field. -/
def hasBegun : Arguments.Progress → Bool
  | .waiting => false
  | .readGroup _ | .readOperation _ _ | .readAll _ _ _ => true

/-- A condition on the order of the steps: `job_addition` returns only when the handler that it
queued has read its group. -/
def GroupsReadInTime : Action → Threads → Prop
  | .command _ line, s => s.shell = .idle → CommandNamesGroup s.toServer (commandOf line.chars)
  | .register _ _ payload, _ => ValidGroups (groupIds payload)
  | .shell, s => ∀ address arguments, s.shell = .running address arguments .ret →
    ∀ t ∈ s.handlers, t.address = address → hasBegun t.progress
  | .read _, _ | .groupHandler .., _ | .result .., _ | .readable .., _ | .timer .., _ => True

/-! ### What the handlers have read -/

/-- The group that was read, none if it was not read or had no value. -/
def groupRead : Arguments.Progress → Option ℤ
  | .waiting => none
  | .readGroup groupId | .readOperation groupId _ | .readAll groupId _ _ => groupId

/-- The arguments of the call that runs name a group. -/
def ShellInRange (shell : Arguments.Shell) : Prop :=
  ∀ address arguments stage, shell = .running address arguments stage →
    0 ≤ arguments.groupId ∧ arguments.groupId < numberOfGroups

/-- The values that were read are groups. -/
def HandlersInRange (handlers : List Arguments.Handler) : Prop :=
  ∀ t ∈ handlers, ∀ g, groupRead t.progress = some g → 0 ≤ g ∧ g < numberOfGroups

/-- Whatever is stored on the stack as a group, or was read from there, is one. -/
structure StoredInRange (s : Threads) : Prop where
  stack : StackInv s
  shell : ShellInRange s.shell
  handlers : HandlersInRange s.handlers

/-- Every handler has read a group, or it waits for the call that queued it. -/
structure HandlersInTime (s : Threads) : Prop where
  waiting : ∀ t ∈ s.handlers, hasBegun t.progress = false →
    ∃ arguments, s.shell = .running t.address arguments .ret
  read : ∀ t ∈ s.handlers, hasBegun t.progress = true → groupRead t.progress ≠ none

variable {lib : MinMax} {s s' : Threads} {a : Action} {as : List Action} {t : Arguments.Handler}
variable {handlers : List Arguments.Handler} {k : ℕ} {server : Server} {index : Option ℤ}

theorem isGroup_some {g : ℤ} : IsGroup (some g) ↔ 0 ≤ g ∧ g < numberOfGroups := by
  simp [IsGroup]

theorem isGroup_one : IsGroup (some 1) := isGroup_some.mpr (by decide)

theorem forall_map_some_isGroup {groups : List ℤ} :
    (∀ index ∈ groups.map some, IsGroup index) ↔ ValidGroups groups := by
  simp only [List.forall_mem_map, isGroup_some, ValidGroups]

/-- A handler that has an index has read it. -/
theorem groupRead_of_mgId (h : mgIdOf t = some index) :
    hasBegun t.progress = true ∧ groupRead t.progress = index := by
  unfold mgIdOf at h
  split at h
  next hprogress _ =>
    rw [hprogress]
    exact ⟨rfl, Option.some.inj h⟩
  next => cases h

theorem exists_of_mgId (h : s.handlers[k]?.bind mgIdOf = some index) :
    ∃ t ∈ s.handlers, mgIdOf t = some index := by
  obtain ⟨t, ht, hmgId⟩ := Option.bind_eq_some_iff.mp h
  exact ⟨t, List.mem_of_getElem? ht, hmgId⟩

/-! ### Steps -/

theorem validGroups_range {n : ℕ} (hn : n ≤ numberOfGroups) :
    ValidGroups ((List.range n).map fun i : ℕ => (i : ℤ)) := by
  intro g hg
  obtain ⟨i, hi, rfl⟩ := List.mem_map.mp hg
  have hlt := List.mem_range.mp hi
  omega

theorem validGroups_commandIndices_iff (server : Server) (line : List Char) :
    ValidGroups (commandIndices server (commandOf line)) ↔
      CommandNamesGroup server (commandOf line) := by
  cases hline : commandOf line with
  | startJob jobNumber fileName =>
    rw [commandIndices, CommandNamesGroup, ValidGroups, List.forall_mem_singleton]
    constructor
    · rintro ⟨hlo, -⟩ hnone
      omega
    · intro hfound
      exact (findFreeGroup_spec hfound).2.2
  | showGroup groupId =>
    have hle := executeCommand_eq_showGroup hline
    rw [commandIndices, CommandNamesGroup, ValidGroups, List.forall_mem_singleton]
    change 0 ≤ groupId ∧ groupId < 1000 ↔ _
    omega
  | showAllGroups interval =>
    exact iff_of_true (validGroups_range (Nat.le_of_ble_eq_true rfl)) trivial
  | showMessages => exact iff_of_true (validGroups_range (Nat.le_refl 1000)) trivial
  | quit | usage | showClients | showJobs | nothing =>
    exact iff_of_true (fun _ hg => absurd hg List.not_mem_nil) trivial

/-- A step uses indices in range exactly if it meets the condition. -/
theorem indicesInRange_iff (h : StoredInRange s) : IndicesInRange a s ↔ GroupsExist a s := by
  cases a with
  | command address line =>
    rw [IndicesInRange, indices, GroupsExist]
    split
    next hidle =>
      rw [forall_map_some_isGroup, validGroups_commandIndices_iff, forall_prop_of_true hidle]
    next hbusy =>
      exact iff_of_true (fun _ hg => absurd hg List.not_mem_nil) fun hidle => absurd hidle hbusy
  | register now fd payload => exact forall_map_some_isGroup
  | groupHandler k uninitialised =>
    rw [IndicesInRange, indices, GroupsExist]
    cases hmgId : s.handlers[k]?.bind mgIdOf with
    | none => exact iff_of_true (fun _ hg => absurd hg List.not_mem_nil) (by simp)
    | some index =>
      obtain ⟨t, ht, hindex⟩ := exists_of_mgId hmgId
      cases index with
      | none =>
        refine iff_of_false (fun hall => ?_) fun hne => hne rfl
        obtain ⟨g, hg, -⟩ := hall none List.mem_cons_self
        cases hg
      | some g =>
        refine iff_of_true ?_ (by simp)
        have hg := h.handlers t ht g (groupRead_of_mgId hindex).2
        rintro index hmem
        rcases List.mem_cons.mp hmem with rfl | hmem
        · exact isGroup_some.mpr hg
        · exact List.mem_singleton.mp hmem ▸ isGroup_one
  | shell | read k | result fd value jobId | readable clientCount thread | timer now i =>
    exact iff_of_true (fun _ hg => absurd hg List.not_mem_nil) trivial

/-- What the tables of the server are does not matter for the stack and the handlers. -/
theorem StoredInRange.of_server (h : StoredInRange s) (server : Server) :
    StoredInRange { s with toServer := server } := ⟨h.stack, h.shell, h.handlers⟩

theorem HandlersInTime.of_server (h : HandlersInTime s) (server : Server) :
    HandlersInTime { s with toServer := server } := ⟨h.waiting, h.read⟩

/-- The next read gets a group only from the variable. -/
theorem groupRead_next {progress : Progress} {cell : Cell} :
    groupRead (progress.next cell) =
      if hasBegun progress then groupRead progress else cell.groupId := by
  cases progress <;> rfl

theorem hasBegun_next {progress : Progress} {cell : Cell} :
    hasBegun (progress.next cell) = true := by
  cases progress <;> rfl

/-- A command line starts a call of `job_addition` with the group that was found, or leaves the
shell and the handlers as they are. -/
theorem command_cases {address : ℕ} {line : CommandLine}
    (h : step lib (.command address line) s = some s') :
    s.shell = .idle ∧
      (s' = s ∨
        ∃ jobNumber fileName, commandOf line.chars = .startJob jobNumber fileName ∧
          Arguments.step lib (.start address jobNumber fileName) s = some s' ∧
          s'.handlers = s.handlers ∧
          s'.shell = .running address
            ⟨findFreeGroup s.multicastGroups, jobNumber, fileName⟩ .storeGroup) := by
  rw [Indices.step] at h
  split at h
  next hidle =>
    refine ⟨hidle, ?_⟩
    cases hline : commandOf line.chars with
    | startJob jobNumber fileName =>
      rw [hline, runCommand] at h
      refine .inr ⟨jobNumber, fileName, rfl, h, ?_⟩
      rw [Arguments.step, if_pos hidle] at h
      obtain rfl := Option.some.inj h
      simp only [Server.jobAddition, true_and]
    | showJobs =>
      rw [hline, runCommand] at h
      obtain ⟨-, -, rfl⟩ := Option.map_eq_some_iff.mp h
      exact .inl rfl
    | quit =>
      rw [hline, runCommand] at h
      cases h
    | usage | showGroup groupId | showMessages | showClients | showAllGroups interval | nothing =>
      rw [hline, runCommand] at h
      exact .inl (Option.some.inj h).symm
  next => cases h

/-- A handler that has read all its arguments dispatches its job once. -/
theorem exists_of_groupHandler {uninitialised : List ℤ}
    (h : step lib (.groupHandler k uninitialised) s = some s') :
    ∃ t server, s.handlers[k]? = some t ∧ s' = { s with
      toServer := server
      handlers := s.handlers.set k { t with dispatched := true } } := by
  obtain ⟨t, ht, hrest⟩ := Option.bind_eq_some_iff.mp h
  obtain ⟨mgId, -, hrun⟩ := Option.bind_eq_some_iff.mp hrest
  obtain ⟨server, -, rfl⟩ := Option.map_eq_some_iff.mp hrun
  exact ⟨t, server, ht, rfl⟩

/-! ### Values that are stored -/

/-- The stack holds the group of the call that runs. -/
theorem StoredInRange.of_memory (h : StoredInRange s) {address : ℕ} {g : ℤ}
    (hg : (s.memory address).groupId = some g) : 0 ≤ g ∧ g < numberOfGroups := by
  rw [h.stack] at hg
  cases hshell : s.shell with
  | idle =>
    rw [hshell] at hg
    cases hg
  | running address' arguments stage =>
    have hrange := h.shell address' arguments stage hshell
    rw [hshell, Shell.cellAt] at hg
    split at hg
    next =>
      cases stage with
      | storeGroup => cases hg
      | storeOperation | storeFilename | queue | ret => exact Option.some.inj hg ▸ hrange
    next => cases hg

theorem StoredInRange.shellStep (h : StoredInRange s) (hstep : shellStep s = some s') :
    StoredInRange s' := by
  have hstack := stackInv_shellStep h.stack hstep
  obtain ⟨address, arguments, ⟨stage, stage', hshell, -, rfl⟩ | ⟨hshell, rfl⟩ | ⟨hshell, rfl⟩⟩ :=
    shellStep_cases h.stack hstep
  · refine ⟨hstack, ?_, h.handlers⟩
    rintro _ _ _ ⟨⟩
    exact h.shell _ _ _ hshell
  · refine ⟨hstack, ?_, List.forall_mem_append.mpr ⟨h.handlers, ?_⟩⟩
    · rintro _ _ _ ⟨⟩
      exact h.shell _ _ _ hshell
    · -- the handler that is queued has read nothing
      rintro t ht g hg
      rw [List.mem_singleton.mp ht] at hg
      cases hg
  · exact ⟨hstack, fun _ _ _ hrun => (by cases hrun), h.handlers⟩

/-- Steps that meet the condition store and read groups. -/
theorem StoredInRange.step (h : StoredInRange s) (hok : GroupsExist a s)
    (hstep : step lib a s = some s') : StoredInRange s' := by
  cases a with
  | command address line =>
    obtain ⟨hidle, rfl | ⟨jobNumber, fileName, hline, hstart, hhandlers, hshell⟩⟩ :=
      command_cases hstep
    · exact h
    · rw [GroupsExist, hline] at hok
      refine ⟨stackInv_step h.stack hstart, ?_, hhandlers ▸ h.handlers⟩
      obtain ⟨-, -, hfound⟩ := findFreeGroup_spec (hok hidle)
      rw [hshell]
      generalize findFreeGroup s.multicastGroups = groupId at hfound ⊢
      rintro _ _ _ ⟨⟩
      exact hfound
  | shell => exact h.shellStep hstep
  | read k =>
    have hread : Arguments.step lib (.read k) s = some s' := hstep
    have hstack := stackInv_step h.stack hread
    obtain ⟨t, ht, rfl⟩ := exists_of_read hread
    refine ⟨hstack, h.shell, fun u hu g hg => ?_⟩
    rcases List.mem_or_eq_of_mem_set hu with hu | rfl
    · exact h.handlers u hu g hg
    · rw [groupRead_next] at hg
      split at hg
      next => exact h.handlers t (List.mem_of_getElem? ht) g hg
      next => exact h.of_memory hg
  | groupHandler k uninitialised =>
    obtain ⟨t, server, ht, rfl⟩ := exists_of_groupHandler hstep
    refine ⟨h.stack, h.shell, fun u hu g hg => ?_⟩
    rcases List.mem_or_eq_of_mem_set hu with hu | rfl
    · exact h.handlers u hu g hg
    · exact h.handlers t (List.mem_of_getElem? ht) g hg
  | register now fd payload =>
    obtain rfl := Option.some.inj hstep
    exact h.of_server _
  | readable clientCount thread =>
    obtain rfl := Option.some.inj hstep
    exact h.of_server _
  | result fd value jobId =>
    obtain ⟨server, -, rfl⟩ := Option.map_eq_some_iff.mp hstep
    exact h.of_server _
  | timer now i =>
    obtain ⟨server, -, rfl⟩ := Option.map_eq_some_iff.mp hstep
    exact h.of_server _

theorem storedInRange_initialThreads : StoredInRange initialThreads where
  stack := stackInv_initialThreads
  shell := fun _ _ _ hrun => by cases hrun
  handlers := fun _ ht => absurd ht List.not_mem_nil

/-! ### Handlers in time -/

/-- A shell that is not about to return has no handler that waits. -/
theorem HandlersInTime.hasBegun_of_ne_ret (h : HandlersInTime s) (ht : t ∈ s.handlers)
    (hshell : ∀ address arguments, s.shell ≠ .running address arguments .ret) :
    hasBegun t.progress = true := by
  by_contra hwaits
  obtain ⟨arguments, hret⟩ := h.waiting t ht (Bool.eq_false_of_not_eq_true hwaits)
  exact hshell _ _ hret

theorem HandlersInTime.shellStep (h : HandlersInTime s) (hstack : StackInv s)
    (hok : GroupsReadInTime .shell s) (hstep : shellStep s = some s') : HandlersInTime s' := by
  obtain ⟨address, arguments, ⟨stage, stage', hshell, hname, rfl⟩ | ⟨hshell, rfl⟩ |
    ⟨hshell, rfl⟩⟩ := shellStep_cases hstack hstep
  · refine ⟨fun t ht hwaits => ?_, h.read⟩
    have hbegun := h.hasBegun_of_ne_ret ht (by
      rintro address' arguments' hret
      rw [hshell] at hret
      cases hret
      cases hname)
    cases hbegun.symm.trans hwaits
  · constructor
    · intro t ht hwaits
      rcases List.mem_append.mp ht with ht | ht
      · have hbegun := h.hasBegun_of_ne_ret ht (by simp [hshell])
        cases hbegun.symm.trans hwaits
      · rw [List.mem_singleton.mp ht]
        exact ⟨arguments, rfl⟩
    · intro t ht hbegun
      rcases List.mem_append.mp ht with ht | ht
      · exact h.read t ht hbegun
      · rw [List.mem_singleton.mp ht] at hbegun
        cases hbegun
  · refine ⟨fun t ht hwaits => ?_, h.read⟩
    -- whoever waits does so for the call that returns
    obtain ⟨arguments', hret⟩ := h.waiting t ht hwaits
    have haddress : t.address = address := by
      rw [hshell] at hret
      cases hret
      rfl
    cases (hok address arguments hshell t ht haddress).symm.trans hwaits

theorem HandlersInTime.step (h : HandlersInTime s) (hstack : StackInv s)
    (hok : GroupsReadInTime a s) (hstep : step lib a s = some s') : HandlersInTime s' := by
  cases a with
  | command address line =>
    obtain ⟨hidle, rfl | ⟨jobNumber, fileName, -, -, hhandlers, hshell⟩⟩ := command_cases hstep
    · exact h
    · -- between two calls nobody waits
      have hbegun (t : Arguments.Handler) (ht : t ∈ s.handlers) : hasBegun t.progress = true :=
        h.hasBegun_of_ne_ret ht (by simp [hidle])
      constructor
      · intro t ht hwaits
        cases (hbegun t (hhandlers ▸ ht)).symm.trans hwaits
      · intro t ht hbegun
        exact h.read t (hhandlers ▸ ht) hbegun
  | shell => exact h.shellStep hstack hok hstep
  | read k =>
    have hread : Arguments.step lib (.read k) s = some s' := hstep
    obtain ⟨t, ht, rfl⟩ := exists_of_read hread
    have hmem := List.mem_of_getElem? ht
    constructor
    · intro u hu hwaits
      rcases List.mem_or_eq_of_mem_set hu with hu | rfl
      · exact h.waiting u hu hwaits
      · cases hasBegun_next.symm.trans hwaits
    · intro u hu hbegun
      rcases List.mem_or_eq_of_mem_set hu with hu | rfl
      · exact h.read u hu hbegun
      · rw [groupRead_next]
        split
        next hbefore => exact h.read t hmem hbefore
        next hwaits =>
          obtain ⟨arguments, hret⟩ := h.waiting t hmem (Bool.eq_false_of_not_eq_true hwaits)
          rw [memory_running hstack hret]
          exact Option.some_ne_none _
  | groupHandler k uninitialised =>
    obtain ⟨t, server, ht, rfl⟩ := exists_of_groupHandler hstep
    have hmem := List.mem_of_getElem? ht
    constructor
    · intro u hu hwaits
      rcases List.mem_or_eq_of_mem_set hu with hu | rfl
      · exact h.waiting u hu hwaits
      · exact h.waiting t hmem hwaits
    · intro u hu hbegun
      rcases List.mem_or_eq_of_mem_set hu with hu | rfl
      · exact h.read u hu hbegun
      · exact h.read t hmem hbegun
  | register now fd payload =>
    obtain rfl := Option.some.inj hstep
    exact h.of_server _
  | readable clientCount thread =>
    obtain rfl := Option.some.inj hstep
    exact h.of_server _
  | result fd value jobId =>
    obtain ⟨server, -, rfl⟩ := Option.map_eq_some_iff.mp hstep
    exact h.of_server _
  | timer now i =>
    obtain ⟨server, -, rfl⟩ := Option.map_eq_some_iff.mp hstep
    exact h.of_server _

/-- The stack is in order whatever happens. -/
theorem stackInv_of_step (hstack : StackInv s) (hstep : step lib a s = some s') : StackInv s' := by
  cases a with
  | command address line =>
    obtain ⟨-, rfl | ⟨jobNumber, fileName, -, hstart, -⟩⟩ := command_cases hstep
    · exact hstack
    · exact stackInv_step hstack hstart
  | shell => exact stackInv_shellStep hstack hstep
  | read k =>
    have hread : Arguments.step lib (.read k) s = some s' := hstep
    exact stackInv_step hstack hread
  | groupHandler k uninitialised =>
    obtain ⟨t, server, -, rfl⟩ := exists_of_groupHandler hstep
    exact hstack
  | register now fd payload | readable clientCount thread =>
    obtain rfl := Option.some.inj hstep
    exact hstack
  | result fd value jobId | timer now i =>
    obtain ⟨server, -, rfl⟩ := Option.map_eq_some_iff.mp hstep
    exact hstack

/-- Handlers that read their groups in time have groups. -/
theorem HandlersInTime.groupsExist (h : HandlersInTime s) (hok : GroupsReadInTime a s) :
    GroupsExist a s := by
  cases a with
  | command address line => exact hok
  | register now fd payload => exact hok
  | groupHandler k uninitialised =>
    intro hnone
    obtain ⟨t, ht, hmgId⟩ := exists_of_mgId hnone
    obtain ⟨hbegun, hgroup⟩ := groupRead_of_mgId hmgId
    exact h.read t ht hbegun hgroup
  | shell | read k | result fd value jobId | readable clientCount thread | timer now i => trivial

/-! ### Runs -/

theorem checks_groupsExist (h : Checks (step lib) GroupsReadInTime as initialThreads) :
    Checks (step lib) GroupsExist as initialThreads := by
  refine Checks.imp (I := fun s => StackInv s ∧ HandlersInTime s) ?_
    (fun _ _ hI hok => hI.2.groupsExist hok) ⟨stackInv_initialThreads, ?_, ?_⟩ h
  · rintro a s s' ⟨hstack, hI⟩ hok hstep
    exact ⟨stackInv_of_step hstack hstep, hI.step hstack hok hstep⟩
  · exact fun _ ht => absurd ht List.not_mem_nil
  · exact fun _ ht => absurd ht List.not_mem_nil

/-- The steps of a run use indices in range if and only if they all meet the condition; and it is
enough that lines and messages name groups, and each call of `job_addition` returns after its
handler has read the group. -/
theorem indicesInRange_along_iff (lib : MinMax) (as : List Action) :
    (Checks (step lib) IndicesInRange as initialThreads ↔
      Checks (step lib) GroupsExist as initialThreads) ∧
    (Checks (step lib) GroupsReadInTime as initialThreads →
      Checks (step lib) IndicesInRange as initialThreads) := by
  have hiff : Checks (step lib) IndicesInRange as initialThreads ↔
      Checks (step lib) GroupsExist as initialThreads :=
    checks_iff_checks (fun _ _ _ h hok hstep => StoredInRange.step h hok hstep)
      (fun _ _ h => indicesInRange_iff h) storedInRange_initialThreads
  exact ⟨hiff, fun h => hiff.mpr (checks_groupsExist h)⟩

/-- The line `show group -1`. -/
def showGroupLine : CommandLine where
  chars := ['s', 'h', 'o', 'w', ' ', 'g', 'r', 'o', 'u', 'p', ' ', '-', '1', '\n']
  ne_nil := List.cons_ne_nil _ _
  nul_notMem := by decide
  length_lt := by decide

theorem not_indicesInRange_showGroup :
    ¬ Checks (step listMinMax) IndicesInRange [.command 0 showGroupLine] initialThreads := by
  intro h
  have hindices : indices (.command 0 showGroupLine) initialThreads = [some (-1)] := by
    decide +kernel
  have hrange := h.1
  rw [IndicesInRange, hindices] at hrange
  exact absurd (isGroup_some.mp (hrange _ List.mem_cons_self)).1 (by decide)

/-- The line `start job 1 f`. -/
def startJobLine : CommandLine where
  chars := ['s', 't', 'a', 'r', 't', ' ', 'j', 'o', 'b', ' ', '1', ' ', 'f', '\n']
  ne_nil := List.cons_ne_nil _ _
  nul_notMem := by decide
  length_lt := by decide

/-- A handler whose arguments are read after `job_addition` has returned has no index. -/
example :
    (run (step listMinMax)
      [.register 0 5 [0, 0, 0, 1], .command 0 startJobLine, .shell, .shell, .shell, .shell, .shell,
        .read 0, .read 0, .read 0] initialThreads).map (indices (.groupHandler 0 [])) =
      some [none, some 1] := by
  decide +kernel

end Multicast.Indices
