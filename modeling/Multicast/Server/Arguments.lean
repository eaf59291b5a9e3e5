import Multicast.Lib.StepRun
import Multicast.Server.Start

/-!
# The arguments of a group handler

`job_addition` keeps the arguments of the handler that it queues in a local variable, and
queues the address of the variable. The handler reads the three fields through the address
at three moments. When `job_addition` returns, the variable is gone, and the next call may
have its own at the same address.

So a handler reads its own arguments if it reads all of them while the call that queued it
has not returned. It copies the name of the file to an array of 15 characters, where a name
of 15 or more is not terminated.

A handler that would read on undisturbed from some state is one way in which the run can go
on from there. The property asks that it reads its own arguments then, so that a run has it
exactly if no schedule of the handlers can make one of them read something else.

## Main definitions

* `Multicast.Arguments.Cell` — the local variable
* `Handler`, `Progress` — a group handler, and what it has read
* `Shell`, `Stage` — the shell in `job_addition`
* `Action`, `step` — the steps of shell and handlers, and what else the server does
* `OwnArguments` — every handler reads its own arguments
* `ReadInTime` — the condition on the steps

## Main results

* `ownArguments_step_iff` — one step keeps the property exactly if it meets the condition
* `ownArguments_along_iff` — so does a run
* `not_ownArguments_reused` — a run that does not
-/

set_option autoImplicit false

namespace Multicast.Arguments

open StepRun

/-! ### The variable and its readers -/

/-- The variable `arguments` in a frame of `job_addition`. A field that was not assigned in
this frame has no value. -/
structure Cell where
  groupId : Option ℤ
  jobId : Option ℤ
  filename : Option (List Char)
deriving DecidableEq

/-- The variable at the beginning of a call, and after its end. -/
def Cell.undefined : Cell := ⟨none, none, none⟩

/-- The variable when all fields are assigned. -/
def Cell.of (arguments : MgArgument) : Cell :=
  ⟨some arguments.groupId, some arguments.jobId, some arguments.filename⟩

/-- The string in the array that `strncpy` fills with at most 15 characters; none if there
is no room for its end. -/
def copiedName (filename : Option (List Char)) : Option (List Char) :=
  filename.filter fun name => name.length < 15

/-- What a handler has read so far. A value that was not defined is none. -/
inductive Progress where
  | waiting
  | readGroup (groupId : Option ℤ)
  | readOperation (groupId jobId : Option ℤ)
  | readAll (groupId jobId : Option ℤ) (fileName : Option (List Char))
deriving DecidableEq

/-- The next read. -/
def Progress.next (cell : Cell) : Progress → Progress
  | waiting => readGroup cell.groupId
  | readGroup groupId => readOperation groupId cell.jobId
  | readOperation groupId jobId => readAll groupId jobId (copiedName cell.filename)
  | readAll groupId jobId fileName => readAll groupId jobId fileName

/-- All reads that are left, from one cell. -/
def Progress.finish (cell : Cell) (progress : Progress) : Progress :=
  ((progress.next cell).next cell).next cell

/-- Nothing is left to read. -/
def Progress.finished : Progress → Bool
  | readAll _ _ _ => true
  | waiting | readGroup _ | readOperation _ _ => false

/-- What was read are these arguments. -/
def Progress.Agrees (arguments : MgArgument) : Progress → Prop
  | waiting => True
  | readGroup groupId => groupId = some arguments.groupId
  | readOperation groupId jobId =>
    groupId = some arguments.groupId ∧ jobId = some arguments.jobId
  | readAll groupId jobId fileName =>
    groupId = some arguments.groupId ∧ jobId = some arguments.jobId ∧
      fileName = some arguments.filename

/-- A thread in `multicast_Group_Handler`: the address that it was given, what it has read,
and whether it has dispatched its job. The arguments of the start that queued it are
remembered for comparison; the thread does not see them. -/
structure Handler where
  started : MgArgument
  address : ℕ
  progress : Progress
  dispatched : Bool
deriving DecidableEq

/-! ### Runs -/

/-- The next statement of `job_addition`. -/
inductive Stage where
  | storeGroup
  | storeOperation
  | storeFilename
  | queue
  | ret
deriving DecidableEq

/-- Where the shell is: between two calls, or in a call with its variable at an address. -/
inductive Shell where
  | idle
  | running (address : ℕ) (arguments : MgArgument) (stage : Stage)
deriving DecidableEq

/-- The server, the stack of the shell, the shell, and the group handlers in the order in
which they were queued. -/
structure Threads extends Server where
  memory : ℕ → Cell
  shell : Shell
  handlers : List Handler

/-- Nothing was started. -/
def initialThreads : Threads where
  toServer := initialServer
  memory := fun _ => .undefined
  shell := .idle
  handlers := []

/-- What can happen. -/
inductive Action where
  | start (address : ℕ) (jobNumber : ℤ) (fileName : List Char)
  | shell
  | read (k : ℕ)
  | dispatch (k : ℕ)
  | register (now clientSocketFd : ℤ) (groups : List ℤ)
  | result (clientSocketFd value jobId : ℤ)

/-- A statement of `job_addition` behind the call of `update_group_with_job_assigned`. -/
def shellStep (s : Threads) : Option Threads :=
  match s.shell with
  | .idle => none
  | .running address arguments .storeGroup => some
    { s with
      memory := Function.update s.memory address
        { s.memory address with groupId := some arguments.groupId }
      shell := .running address arguments .storeOperation }
  | .running address arguments .storeOperation => some
    { s with
      memory := Function.update s.memory address
        { s.memory address with jobId := some arguments.jobId }
      shell := .running address arguments .storeFilename }
  | .running address arguments .storeFilename => some
    { s with
      memory := Function.update s.memory address
        { s.memory address with filename := some arguments.filename }
      shell := .running address arguments .queue }
  | .running address arguments .queue => some
    { s with
      handlers := s.handlers ++ [⟨arguments, address, .waiting, false⟩]
      shell := .running address arguments .ret }
  | .running address _ .ret => some
    { s with
      memory := Function.update s.memory address .undefined
      shell := .idle }

/-- One step. A call has its variable anywhere; a handler dispatches the job of the group
that it has read. -/
def step (lib : MinMax) : Action → Threads → Option Threads
  | .start address jobNumber fileName, s =>
    if s.shell = .idle then
      let started := s.toServer.jobAddition jobNumber
      some { s with
        toServer := started.2
        memory := Function.update s.memory address .undefined
        shell := .running address ⟨started.1, jobNumber, fileName⟩ .storeGroup }
    else none
  | .shell, s => shellStep s
  | .read k, s =>
    s.handlers[k]?.bind fun t =>
      if t.progress.finished then none
      else some { s with
        handlers := s.handlers.set k { t with progress := t.progress.next (s.memory t.address) } }
  | .dispatch k, s =>
    s.handlers[k]?.bind fun t =>
      match t.progress, t.dispatched with
      | .readAll (some groupId) _ _, false => (s.groupHandler groupId).map fun server =>
        { s with toServer := server, handlers := s.handlers.set k { t with dispatched := true } }
      | _, _ => none
  | .register now clientSocketFd groups, s =>
    some { s with toServer := s.handleGroupIdRegs now clientSocketFd groups }
  | .result clientSocketFd value jobId, s =>
    (s.handleResult lib clientSocketFd value jobId).map fun server => { s with toServer := server }

/-! ### The property and the condition -/

/-- A handler has read its own arguments so far, and would go on to do so. -/
structure Handler.ReadsOwn (memory : ℕ → Cell) (t : Handler) : Prop where
  read : t.progress.Agrees t.started
  unread : (t.progress.finish (memory t.address)).Agrees t.started

/-- Every handler reads the arguments of the start that queued it. -/
def OwnArguments (s : Threads) : Prop := ∀ t ∈ s.handlers, t.ReadsOwn s.memory

/-- The condition on a statement of `job_addition`. The name of the file fits the array of
the handler, and when the call returns, no handler has anything to read at its address. -/
def Shell.InTime (handlers : List Handler) : Shell → Prop
  | .running _ arguments .queue => arguments.filename.length < 15
  | .running address _ .ret => ∀ t ∈ handlers, t.address = address → t.progress.finished
  | .running _ _ .storeGroup | .running _ _ .storeOperation | .running _ _ .storeFilename
  | .idle => True

/-- The condition on a step. -/
def ReadInTime : Action → Threads → Prop
  | .shell, s => s.shell.InTime s.handlers
  | .start .., _ | .read _, _ | .dispatch _, _ | .register .., _ | .result .., _ => True

instance (handlers : List Handler) : ∀ shell : Shell, Decidable (shell.InTime handlers)
  | .running _ _ .queue => inferInstanceAs (Decidable (_ < _))
  | .running _ _ .ret => inferInstanceAs (Decidable (∀ _ ∈ _, _))
  | .running _ _ .storeGroup | .running _ _ .storeOperation | .running _ _ .storeFilename
  | .idle => .isTrue trivial

instance : ∀ (a : Action) (s : Threads), Decidable (ReadInTime a s)
  | .shell, s => inferInstanceAs (Decidable (s.shell.InTime s.handlers))
  | .start .., _ | .read _, _ | .dispatch _, _ | .register .., _ | .result .., _ =>
    .isTrue trivial

/-- What the variable holds before a statement of `job_addition`. -/
def Stage.cell (arguments : MgArgument) : Stage → Cell
  | storeGroup => .undefined
  | storeOperation => ⟨some arguments.groupId, none, none⟩
  | storeFilename => ⟨some arguments.groupId, some arguments.jobId, none⟩
  | queue | ret => .of arguments

/-- What the stack holds at an address. -/
def Shell.cellAt (address : ℕ) : Shell → Cell
  | .idle => .undefined
  | .running address' arguments stage =>
    if address = address' then stage.cell arguments else .undefined

/-- The stack holds the variable of the call that runs, and nothing else. -/
def StackInv (s : Threads) : Prop := ∀ address, s.memory address = s.shell.cellAt address

variable {lib : MinMax} {s s' : Threads} {a : Action} {progress : Progress} {cell : Cell}
variable {arguments : MgArgument} {t : Handler} {address k : ℕ} {memory : ℕ → Cell}

/-! ### Reading -/

@[simp] theorem finish_next : (progress.next cell).finish cell = progress.finish cell := by
  cases progress <;> rfl

theorem finish_of_finished (h : progress.finished) : progress.finish cell = progress := by
  cases progress <;> first | rfl | cases h

/-- What is read later does not mend what was read before. -/
theorem agrees_of_agrees_finish (h : (progress.finish cell).Agrees arguments) :
    progress.Agrees arguments := by
  cases progress with
  | waiting => trivial
  | readGroup groupId => exact h.1
  | readOperation groupId jobId => exact ⟨h.1, h.2.1⟩
  | readAll groupId jobId fileName => exact h

theorem readsOwn_iff : t.ReadsOwn memory ↔
    (t.progress.finish (memory t.address)).Agrees t.started :=
  ⟨fun h => h.unread, fun h => ⟨agrees_of_agrees_finish h, h⟩⟩

/-- From a variable without a name of a file only handlers that have read it before get
their arguments. -/
theorem finished_of_agrees_finish (h : (progress.finish cell).Agrees arguments)
    (hname : cell.filename = none) : progress.finished := by
  cases progress with
  | readAll groupId jobId fileName => rfl
  | waiting | readGroup groupId | readOperation groupId jobId =>
    have hcopied : copiedName cell.filename = some arguments.filename := h.2.2
    rw [hname] at hcopied
    cases hcopied

/-- A handler that has read nothing yet gets its arguments from their variable exactly if
the name of the file fits. -/
theorem agrees_finish_waiting_iff :
    (Progress.waiting.finish (.of arguments)).Agrees arguments ↔
      arguments.filename.length < 15 := by
  change some arguments.groupId = some arguments.groupId ∧
    some arguments.jobId = some arguments.jobId ∧
    copiedName (some arguments.filename) = some arguments.filename ↔ _
  simp [copiedName]

/-- A handler does not see a change of the stack where it has nothing left to read. -/
theorem readsOwn_update_of_finished (hown : t.ReadsOwn memory)
    (hfinished : t.address = address → t.progress.finished) :
    t.ReadsOwn (Function.update memory address cell) := by
  rw [readsOwn_iff] at hown ⊢
  by_cases haddress : t.address = address
  · rw [finish_of_finished (hfinished haddress)] at hown ⊢
    exact hown
  · rwa [Function.update_of_ne haddress]

/-- Nothing is left to read where no name of a file is. -/
theorem readsOwn_update_of_filename (hown : t.ReadsOwn memory)
    (hname : (memory address).filename = none) :
    t.ReadsOwn (Function.update memory address cell) := by
  apply readsOwn_update_of_finished hown
  rintro rfl
  exact finished_of_agrees_finish hown.unread hname

/-- The end of a call takes away exactly what its handlers had not read. -/
theorem readsOwn_update_undefined_iff (hown : t.ReadsOwn memory) :
    t.ReadsOwn (Function.update memory address .undefined) ↔
      (t.address = address → t.progress.finished) := by
  constructor
  · rintro h rfl
    have hunread := h.unread
    rw [Function.update_self] at hunread
    exact finished_of_agrees_finish hunread rfl
  · exact readsOwn_update_of_finished hown

/-- One handler goes on. -/
theorem ownArguments_set {handlers : List Handler} (hown : ∀ u ∈ handlers, u.ReadsOwn memory)
    (ht : t.ReadsOwn memory) : ∀ u ∈ handlers.set k t, u.ReadsOwn memory := by
  intro u hu
  rcases List.mem_or_eq_of_mem_set hu with hu | rfl
  · exact hown u hu
  · exact ht

/-! ### The stack -/

theorem stackInv_initialThreads : StackInv initialThreads := fun _ => rfl

theorem memory_running {stage : Stage} (hstack : StackInv s)
    (hshell : s.shell = .running address arguments stage) :
    s.memory address = stage.cell arguments := by
  rw [hstack, hshell, Shell.cellAt, if_pos rfl]

/-- A call writes its own variable, and the others are not defined. -/
theorem cellAt_update {stage : Stage} (stage' : Stage) (hstack : StackInv s)
    (hshell : s.shell = .running address arguments stage) (address' : ℕ) :
    Function.update s.memory address (stage'.cell arguments) address' =
      (Shell.running address arguments stage').cellAt address' := by
  rw [Shell.cellAt]
  split
  case isTrue h => rw [h, Function.update_self]
  case isFalse h => rw [Function.update_of_ne h, hstack, hshell, Shell.cellAt, if_neg h]

/-- A stage in which the variable has no name of a file is a store, and no store is too
early. -/
theorem inTime_of_filename {stage : Stage} {handlers : List Handler}
    (hname : (stage.cell arguments).filename = none) :
    (Shell.running address arguments stage).InTime handlers := by
  cases stage with
  | storeGroup | storeOperation | storeFilename => trivial
  | queue | ret => cases hname

/-- A statement of `job_addition` stores a field, queues a handler, or ends the call. -/
theorem shellStep_cases (hstack : StackInv s) (h : shellStep s = some s') :
    ∃ address arguments,
      (∃ stage stage', s.shell = .running address arguments stage ∧
        (stage.cell arguments).filename = none ∧
        s' = { s with
          memory := Function.update s.memory address (stage'.cell arguments)
          shell := .running address arguments stage' }) ∨
      s.shell = .running address arguments .queue ∧
        s' = { s with
          handlers := s.handlers ++ [⟨arguments, address, .waiting, false⟩]
          shell := .running address arguments .ret } ∨
      s.shell = .running address arguments .ret ∧
        s' = { s with
          memory := Function.update s.memory address .undefined
          shell := .idle } := by
  unfold shellStep at h
  split at h
  case h_1 hshell => cases h
  -- the three stores, in the order of the source: what the cell held is known from the stage
  case h_2 address arguments hshell =>
    refine ⟨address, arguments, .inl ⟨.storeGroup, .storeOperation, hshell, rfl, ?_⟩⟩
    rw [← Option.some.inj h, memory_running hstack hshell]
    rfl
  case h_3 address arguments hshell =>
    refine ⟨address, arguments, .inl ⟨.storeOperation, .storeFilename, hshell, rfl, ?_⟩⟩
    rw [← Option.some.inj h, memory_running hstack hshell]
    rfl
  case h_4 address arguments hshell =>
    refine ⟨address, arguments, .inl ⟨.storeFilename, .queue, hshell, rfl, ?_⟩⟩
    rw [← Option.some.inj h, memory_running hstack hshell]
    rfl
  case h_5 address arguments hshell =>
    exact ⟨address, arguments, .inr (.inl ⟨hshell, (Option.some.inj h).symm⟩)⟩
  case h_6 address arguments hshell =>
    exact ⟨address, arguments, .inr (.inr ⟨hshell, (Option.some.inj h).symm⟩)⟩

/-- A statement of `job_addition` leaves the stack as the next one expects it. -/
theorem stackInv_shellStep (hstack : StackInv s) (h : shellStep s = some s') : StackInv s' := by
  obtain ⟨address, arguments, ⟨stage, stage', hshell, -, rfl⟩ | ⟨hshell, rfl⟩ | ⟨hshell, rfl⟩⟩ :=
    shellStep_cases hstack h
  · exact cellAt_update stage' hstack hshell
  · -- the variable is the same before and after the handler is queued
    intro address'
    change s.memory address' = _
    rw [hstack, hshell]
    rfl
  · intro address'
    have hcell := cellAt_update .storeGroup hstack hshell address'
    exact hcell.trans (ite_self _)

/-- A statement of `job_addition` keeps the property exactly if it meets the condition. -/
theorem ownArguments_shellStep_iff (hstack : StackInv s) (hown : OwnArguments s)
    (h : shellStep s = some s') : OwnArguments s' ↔ s.shell.InTime s.handlers := by
  obtain ⟨address, arguments, ⟨stage, stage', hshell, hname, rfl⟩ | ⟨hshell, rfl⟩ |
    ⟨hshell, rfl⟩⟩ := shellStep_cases hstack h
  · rw [hshell]
    refine iff_of_true (fun t ht => ?_) (inTime_of_filename hname)
    -- a handler at this address is from an earlier call
    apply readsOwn_update_of_filename (hown t ht)
    rw [memory_running hstack hshell, hname]
  · have hnew : Handler.ReadsOwn s.memory ⟨arguments, address, .waiting, false⟩ ↔
        arguments.filename.length < 15 := by
      rw [readsOwn_iff, memory_running hstack hshell]
      exact agrees_finish_waiting_iff
    rw [hshell, Shell.InTime, ← hnew]
    constructor
    · intro h
      exact h _ (List.mem_append_right _ (List.mem_singleton_self _))
    · intro h t ht
      rcases List.mem_append.mp ht with ht | ht
      · exact hown t ht
      · rwa [List.mem_singleton.mp ht]
  · rw [hshell, Shell.InTime]
    exact forall₂_congr fun t ht => readsOwn_update_undefined_iff (hown t ht)

/-! ### Runs -/

theorem exists_of_read (h : step lib (.read k) s = some s') :
    ∃ t, s.handlers[k]? = some t ∧ s' = { s with
      handlers := s.handlers.set k
        { t with progress := t.progress.next (s.memory t.address) } } := by
  obtain ⟨t, ht, hread⟩ := Option.bind_eq_some_iff.mp h
  split at hread
  case isTrue => cases hread
  case isFalse => exact ⟨t, ht, (Option.some.inj hread).symm⟩

theorem exists_of_dispatch (h : step lib (.dispatch k) s = some s') :
    ∃ t server, s.handlers[k]? = some t ∧ s' = { s with
      toServer := server
      handlers := s.handlers.set k { t with dispatched := true } } := by
  obtain ⟨t, ht, hdispatch⟩ := Option.bind_eq_some_iff.mp h
  split at hdispatch
  case h_1 groupId jobId fileName _ _ =>
    obtain ⟨server, -, rfl⟩ := Option.map_eq_some_iff.mp hdispatch
    exact ⟨t, server, ht, rfl⟩
  case h_2 => cases hdispatch

/-- A call begins when no other runs, with nothing in its variable. -/
theorem eq_of_start {jobNumber : ℤ} {fileName : List Char}
    (h : step lib (.start address jobNumber fileName) s = some s') :
    s.shell = .idle ∧ ∃ server groupId, s' = { s with
      toServer := server
      memory := Function.update s.memory address .undefined
      shell := .running address ⟨groupId, jobNumber, fileName⟩ .storeGroup } := by
  rw [step] at h
  split at h
  case isTrue hidle => exact ⟨hidle, _, _, (Option.some.inj h).symm⟩
  case isFalse => cases h

theorem stackInv_step (hstack : StackInv s) (h : step lib a s = some s') : StackInv s' := by
  cases a with
  | start address jobNumber fileName =>
    obtain ⟨hidle, server, groupId, rfl⟩ := eq_of_start h
    intro address'
    have hempty : s.memory address' = .undefined := by rw [hstack, hidle, Shell.cellAt]
    change Function.update s.memory address .undefined address' = ite _ _ _
    rw [Stage.cell, ite_self, Function.update_apply, hempty, ite_self]
  | shell => exact stackInv_shellStep hstack h
  | read k =>
    obtain ⟨t, -, rfl⟩ := exists_of_read h
    exact hstack
  | dispatch k =>
    obtain ⟨t, server, -, rfl⟩ := exists_of_dispatch h
    exact hstack
  | register now clientSocketFd groups =>
    cases Option.some.inj h
    exact hstack
  | result clientSocketFd value jobId =>
    obtain ⟨server, -, rfl⟩ := Option.map_eq_some_iff.mp h
    exact hstack

/-- One step keeps the property exactly if it meets the condition. -/
theorem ownArguments_step_iff (hstack : StackInv s) (hown : OwnArguments s)
    (h : step lib a s = some s') : OwnArguments s' ↔ ReadInTime a s := by
  cases a with
  | shell => exact ownArguments_shellStep_iff hstack hown h
  | start address jobNumber fileName =>
    obtain ⟨hidle, server, groupId, rfl⟩ := eq_of_start h
    refine iff_of_true (fun t ht => ?_) trivial
    -- no call runs, so that no handler has anything left to read
    apply readsOwn_update_of_filename (hown t ht)
    rw [hstack, hidle]
    rfl
  | read k =>
    obtain ⟨t, ht, rfl⟩ := exists_of_read h
    refine iff_of_true (ownArguments_set hown ?_) trivial
    rw [readsOwn_iff, finish_next]
    exact (hown t (List.mem_of_getElem? ht)).unread
  | dispatch k =>
    obtain ⟨t, server, ht, rfl⟩ := exists_of_dispatch h
    have htown := hown t (List.mem_of_getElem? ht)
    exact iff_of_true (ownArguments_set hown ⟨htown.read, htown.unread⟩) trivial
  | register now clientSocketFd groups =>
    cases Option.some.inj h
    exact iff_of_true hown trivial
  | result clientSocketFd value jobId =>
    obtain ⟨server, -, rfl⟩ := Option.map_eq_some_iff.mp h
    exact iff_of_true hown trivial

/-- Every handler reads its own arguments along a run, and would on every other way from
there, exactly if every call of `job_addition` in it starts a job on a file whose name
fits, and does not return before its handler has read all arguments. -/
theorem ownArguments_along_iff (lib : MinMax) (as : List Action) :
    Along (step lib) OwnArguments as initialThreads ↔
      Meets (step lib) ReadInTime as initialThreads :=
  along_iff_meets (fun _ _ _ hstack h => stackInv_step hstack h)
    (fun _ _ _ hstack hown h => ownArguments_step_iff hstack hown h)
    stackInv_initialThreads fun _ ht => (List.not_mem_nil ht).elim

/-- Two groups, and two jobs. The first call returns before its handler has read anything,
and the second has its variable at the same address. -/
def reusedRun : List Action :=
  [.register 0 5 [1], .register 0 6 [2],
    .start 0 jobMin ['f'], .shell, .shell, .shell, .shell, .shell,
    .start 0 jobMax ['g'], .shell, .shell, .shell, .read 0, .read 0, .read 0]

/-- The handler of the first job reads the arguments of the second. -/
theorem not_ownArguments_reused :
    (run (step listMinMax) reusedRun initialThreads).map (fun s => s.handlers) =
        some [⟨⟨1, jobMin, ['f']⟩, 0, .readAll (some 2) (some jobMax) (some ['g']), false⟩] ∧
      ¬ Along (step listMinMax) OwnArguments reusedRun initialThreads := by
  have hread : (run (step listMinMax) reusedRun initialThreads).map (fun s => s.handlers) =
      some [⟨⟨1, jobMin, ['f']⟩, 0, .readAll (some 2) (some jobMax) (some ['g']), false⟩] := by
    decide +kernel
  refine ⟨hread, fun halong => ?_⟩
  obtain ⟨s', hrun, hhandlers⟩ := Option.map_eq_some_iff.mp hread
  have hown := halong.last hrun
  rw [OwnArguments, hhandlers] at hown
  -- the second group instead of the first
  have hgroup : some 2 = some (1 : ℤ) := (hown _ (List.mem_singleton_self _)).read.1
  exact absurd hgroup (by decide)

end Multicast.Arguments
