import Multicast.Server.Answer
import Multicast.Server.FirstResults
import Multicast.Server.Tasks
import Multicast.Transfer.Containment
import Multicast.Transfer.Session

/-!
# A job from its group handler to its answer

A group handler divides the lines of the input among the clients that it finds. Each task sends
its piece and the job to its client; the client computes and answers; and a thread of the server
handles each answer. The bytes travel over connections of their own, the tasks find their pieces
by name, and the threads interleave with each other and with everything else that goes on.

If every read ends at the end of a message, the job can be completed from every state, and when
it is complete its result is the extremum of the lines in the pieces.

## Main definitions

* `Multicast.WholeJob.Session` — a task on its connection, in both directions
* `Handled` — a group handler runs, in a reachable state
* `Collected` — its tasks are sent, and their answers have arrived

## Main results

* `Session.reported_eq` — a session reports the result of its task, once
* `Handled.jobId_eq` — the group of the job has its id as long as it is in progress
* `Handled.awaiting` — a job that was handled awaits its results
* `Collected.taskResults` — the results are those of the tasks
* `job_answered` — the whole job

## Implementation notes

The library is a parameter twice: as a function of the numbers in the result file, and as one of
the bytes of a piece. It is assumed to compute the extrema of the pieces of the job.
-/

set_option autoImplicit false

namespace Multicast.WholeJob

open StepRun Completion

/-! ### The library -/

/-- The library computes the extrema of a piece from its file. -/
structure Computes (lib : FileMinMax) (piece : List ℤ) : Prop where
  minimum : piece.minimum = ((lib.minimumOfNumbers (some (fileOf piece))).toInt : ℤ)
  maximum : piece.maximum = ((lib.maximumOfNumbers (some (fileOf piece))).toInt : ℤ)

/-! ### Sessions -/

/-- A task on the connection of its client. The client gets its messages, and the server what
the client writes, keep-alives among it, all in reads that end at the end of a message. -/
structure Session (lib : FileMinMax) where
  assignment : Assignment
  clientAllocator : HeapBlock.Allocator
  serverAllocator : HeapBlock.Allocator
  sfd : ℤ
  files : Files
  bufs : List RecvBuff
  state : TLVState
  clientEvents : List Event
  client : Client
  sent : List (List UInt8)
  reads : List Read
  serverEvents : List Event
  grouped : Grouped assignment.writes bufs
  feeds : Feeds clientAllocator sfd 0 bufs initTlvState state clientEvents
  handled : (calls clientEvents).foldlM (Client.handle lib) ⟨files, []⟩ = some client
  written : sent.filter (· ≠ keepAliveFrame) = client.written
  sent_grouped : Grouped sent (reads.map Read.buff)
  none_dropped : ∀ rd ∈ reads, ¬ rd.dropped
  serves : Serves serverAllocator assignment.clientArg.clientSocketId reads serverEvents

/-- What the handlers of results are told. -/
def Session.reported {lib : FileMinMax} (session : Session lib) : List (ℤ × Word × Word) :=
  (calls session.serverEvents).filterMap HandlerCall.reported

/-- The thread that handles a result. -/
def handlerOf (reported : ℤ × Word × Word) : ResultHandler :=
  ⟨reported.1, reported.2.1.toInt, reported.2.2.toInt, .append⟩

/-! ### The job -/

/-- A group handler runs in a state `c` that a run of the server reaches. Its job is queued with
its operation, a client is free, and the result file has no lines yet. -/
structure Handled (lib : MinMax) (uninitialised : ℤ) (arguments : MgArgument) (j : ℤ)
    (c : Exclusivity.Control) (server : Server) (tasks : List ClientArgument) : Prop where
  reached : ∃ as, run (FirstResults.step lib) as Exclusivity.initialControl = some c
  queued : (arguments.groupId, j) ∈ c.queued
  job : ∃ job, jobWithId c.jobList j = some job ∧ job.jobOperation = arguments.jobId
  file : c.resultFiles j = []
  free : ∃ fd ∈ (c.multicastGroups arguments.groupId).head, isFreeClient c.clients fd
  handler : c.toServer.multicastGroupHandler uninitialised arguments = some (server, tasks)

/-- A task sends the piece that it finds under its name, and the job of its group. -/
structure Sends (pieces : List (List ℤ)) (j : ℤ) (task : ClientArgument) (a : Assignment) :
    Prop where
  clientArg : a.clientArg = task
  jobId : (a.server.multicastGroups task.mgId).jobId = j
  piece : ∃ lines, openPiece pieces task.fileName.2 = some lines ∧ a.piece.bytes = fileOf lines

/-- The tasks are sent, each in a session of its own, and a thread is about to handle each
result. The results arrive in any order. -/
structure Collected (lib : FileMinMax) (numbers : List ℤ) (j : ℤ) (tasks : List ClientArgument)
    (sessions : List (Session lib)) (handlers : List ResultHandler) : Prop where
  sends : List.Forall₂ (fun task session =>
    Sends (split (linesPerPiece numbers tasks.length) numbers) j task session.assignment)
    tasks sessions
  arrived : handlers.Perm (sessions.flatMap fun session => session.reported.map handlerOf)

variable {lib : MinMax} {flib : FileMinMax} {uninitialised j : ℤ} {arguments : MgArgument}
variable {c : Exclusivity.Control} {server : Server} {tasks : List ClientArgument}
variable {numbers : List ℤ} {s : Threads}
variable {sessions : List (Session flib)} {handlers : List ResultHandler} {bs : List Action}

/-! ### One session -/

/-- What the threads of a connection do depends on the reads alone. -/
theorem serves_unique {al : HeapBlock.Allocator} {fd : ℤ} {rds : List Read} {ev ev' : List Event}
    (h : Serves al fd rds ev) (h' : Serves al fd rds ev') : ev = ev' := by
  induction h generalizing ev' with
  | nil =>
    cases h'
    rfl
  | cons hthread _ ih =>
    cases h' with
    | cons hthread' hrest' =>
      rw [ih hrest']
      congr 1
      rw [ClientCommunication] at hthread hthread'
      split at hthread
      next herrno =>
        rw [if_pos herrno] at hthread'
        exact hthread.trans hthread'.symm
      next herrno =>
        rw [if_neg herrno] at hthread'
        split at hthread
        next hsize =>
          rw [if_pos hsize] at hthread'
          exact hthread.trans hthread'.symm
        next hsize =>
          rw [if_neg hsize] at hthread'
          obtain ⟨_, _, hret⟩ := hthread
          obtain ⟨_, _, hret'⟩ := hthread'
          exact (hret.unique hret').2

/-- A session reports the result of its task for its piece and its job, and nothing else. -/
theorem Session.reported_eq (session : Session flib) :
    session.reported = [(session.assignment.clientArg.clientSocketId,
      session.assignment.result flib, session.assignment.jobId)] := by
  -- the client gets the messages of the task
  have hgrouped := session.grouped
  rw [Assignment.writes_eq] at hgrouped
  obtain ⟨parts, hparts, hbufs⟩ := hgrouped.exists_parts
  obtain ⟨s', ev, hrun, -, hcalls⟩ :=
    exists_feeds_of_groups session.clientAllocator session.sfd 0 clean_initTlvState hbufs
  obtain ⟨-, hevents⟩ := session.feeds.unique hrun
  -- it answers once
  obtain ⟨client, hhandle, hwritten⟩ := Client.exists_handle_assignment session.clientAllocator
    session.sfd flib ⟨session.files, []⟩ session.assignment
  have hclient : session.client = client := by
    have hhandled := session.handled
    rw [hevents, hcalls, hparts, hhandle] at hhandled
    exact (Option.some.inj hhandled).symm
  have hsent : session.sent.filter (· ≠ keepAliveFrame) =
      [session.assignment].map fun a => (a.reply flib).bytes := by
    rw [session.written, hclient, hwritten]
    rfl
  -- and the server gets the answer
  obtain ⟨ts, hts, hreported⟩ := exists_tlvs_reported session.serverAllocator
    session.assignment.clientArg.clientSocketId hsent
  have hsentGrouped := session.sent_grouped
  rw [hts] at hsentGrouped
  obtain ⟨groups, rfl, hreads⟩ := hsentGrouped.exists_parts
  obtain ⟨ev', hserves, hcalls'⟩ := exists_serves session.serverAllocator
    session.assignment.clientArg.clientSocketId hreads session.none_dropped
  rw [Session.reported, serves_unique session.serves hserves, hcalls', hreported]
  rfl

/-- Every task has a session: the client answers it, and the server can read the answer. -/
theorem exists_session (flib : FileMinMax) (a : Assignment) {bufs : List RecvBuff}
    (h : Grouped a.writes bufs) : ∃ session : Session flib, session.assignment = a := by
  have hparts := h
  rw [Assignment.writes_eq] at hparts
  obtain ⟨parts, hflatten, hbufs⟩ := hparts.exists_parts
  obtain ⟨s', ev, hrun, -, hcalls⟩ := exists_feeds_of_groups .exact 0 0 clean_initTlvState hbufs
  obtain ⟨client, hhandle, hwritten⟩ :=
    Client.exists_handle_assignment .exact 0 flib ⟨fun _ => none, []⟩ a
  rw [List.nil_append] at hwritten
  -- the answer is read at once
  have hlength : (a.reply flib).bytes.length = 13 := by
    rw [Tlv.length_bytes, Assignment.reply, resultTlv, List.length_append, length_htonl,
      length_htonl]
  let rd : Read :=
    { buff := ⟨(a.reply flib).bytes, hlength ▸ by decide⟩
      nonempty := List.ne_nil_of_length_pos (by rw [hlength]; decide)
      length_le := by
        rw [hlength, arrayReceivedSize]
        omega
      errno := 0
      readSize := 0 }
  have hnone : ∀ rd' ∈ [rd], ¬ rd'.dropped := by simp [rd, Read.dropped, eagain]
  have hreads : List.Forall₂ (fun (b : RecvBuff) group => b.bytes = stream group)
      ([rd].map Read.buff) [[a.reply flib]] := .cons (List.append_nil _).symm .nil
  obtain ⟨ev', hserves, -⟩ :=
    exists_serves .exact a.clientArg.clientSocketId hreads hnone
  have hreply : (a.reply flib).bytes ≠ keepAliveFrame := fun heq =>
    absurd (congrArg List.head? heq) (by simp [Tlv.bytes, Tlv.header, keepAliveFrame,
      Assignment.reply, resultTlv, TlvType.code])
  exact ⟨{
    assignment := a
    clientAllocator := .exact
    serverAllocator := .exact
    sfd := 0
    files := fun _ => none
    bufs := bufs
    state := s'
    clientEvents := ev
    client := client
    sent := [(a.reply flib).bytes]
    reads := [rd]
    serverEvents := ev'
    grouped := h
    feeds := hrun
    handled := by rw [hcalls, hflatten, hhandle]
    written := by
      rw [hwritten, List.filter_cons_of_pos (by simpa using hreply)]
      rfl
    sent_grouped := ⟨[[(a.reply flib).bytes]], rfl, .cons (List.append_nil _).symm .nil⟩
    none_dropped := hnone
    serves := hserves }, rfl⟩

/-! ### The group handler -/

/-- A group handler does its bookkeeping, and queues a task for each client that it recorded. -/
theorem groupHandler_eq_some {s : Server} (h : s.multicastGroupHandler uninitialised arguments =
    some (server, tasks)) : s.groupHandler arguments.groupId = some server := by
  obtain ⟨arrClients, hfound, hrest⟩ := Option.bind_eq_some_iff.mp h
  obtain ⟨server', hrecord, heq⟩ := Option.map_eq_some_iff.mp hrest
  rw [Server.groupHandler, hfound, Option.bind_some, hrecord, (Prod.mk.inj heq).1]

/-- The state that a group handler leaves. Its tasks are queued, and its job is not. -/
def handledControl (arguments : MgArgument) (j : ℤ) (c : Exclusivity.Control) (server : Server) :
    Exclusivity.Control :=
  { toServer := server, queued := c.queued.erase (arguments.groupId, j) }

/-- A group handler leaves its job in progress, with its group and a client for each task. -/
theorem Handled.exists_begun (h : Handled lib uninitialised arguments j c server tasks) :
    Exclusivity.JobsInv (handledControl arguments j c server) ∧ tasks ≠ [] ∧
      server.resultFiles j = [] ∧ ∃ job, job.jobOperation = arguments.jobId ∧
        jobWithId server.jobList j = some (Job.begun arguments.groupId tasks.length job) := by
  obtain ⟨as, hrun⟩ := h.reached
  obtain ⟨job, hjob, hoperation⟩ := h.job
  obtain ⟨fd, hmember, hfree⟩ := h.free
  have hinv := FirstResults.jobsInv_of_run hrun
  obtain ⟨hid, -⟩ := hinv.queued _ _ h.queued
  have hinv' : Exclusivity.JobsInv (handledControl arguments j c server) := by
    have hstep : Exclusivity.step lib (.groupHandler arguments.groupId j) c =
        some (handledControl arguments j c server) := by
      rw [Exclusivity.step, if_pos h.queued, groupHandler_eq_some h.handler]
      rfl
    exact hinv.step hstep
  obtain ⟨arrClients, hfound, rfl, rfl⟩ := Server.eq_of_multicastGroupHandler h.handler
  -- there is a task for each client that was found
  have hclients : arrClients ≠ [] :=
    List.ne_nil_of_mem ((mem_findFreeClientsInAGroup hfound).mpr ⟨hmember, hfree⟩)
  have hlength : (c.tasks uninitialised arguments arrClients).length = arrClients.length := by
    rw [Server.length_tasks, Server.taskCount, if_neg (mt List.length_eq_zero_iff.mp hclients)]
  have hbegun : jobWithId (c.begun arguments.groupId arrClients).jobList j =
      some (Job.begun arguments.groupId arrClients.length job) := by
    have hbegun : jobWithId (c.begun arguments.groupId arrClients).jobList
        (c.multicastGroups arguments.groupId).jobId = _ := Server.jobWithId_jobList_begun
    rwa [hid, hjob] at hbegun
  refine ⟨hinv', ?_, h.file, job, hoperation, by rw [hlength]; exact hbegun⟩
  rw [Ne, ← List.length_eq_zero_iff, hlength, List.length_eq_zero_iff]
  exact hclients

/-- As long as the job is in progress, the group that the tasks look at has its id, whatever
happens. -/
theorem Handled.jobId_eq {as : List FirstResults.Action} {c' : Exclusivity.Control} {job : Job}
    (h : Handled lib uninitialised arguments j c server tasks)
    (hrun : run (FirstResults.step lib) as (handledControl arguments j c server) = some c')
    (hjob : jobWithId c'.jobList j = some job) (hstatus : job.status = .inProgress) :
    (c'.multicastGroups arguments.groupId).jobId = j := by
  obtain ⟨hinv, hne, hfile, begun, -, hbegun⟩ := h.exists_begun
  refine (FirstResults.busy_of_inProgress hinv hbegun rfl ?_ hrun hjob hstatus).2
  change ((server.resultFiles j).length : ℤ) < tasks.length
  rw [hfile]
  exact Int.natCast_pos.mpr (List.length_pos_iff.mpr hne)

/-- A job that was handled awaits as many results as there are tasks. -/
theorem Handled.awaiting (h : Handled lib uninitialised arguments j c server tasks)
    (hhandlers : ∀ t ∈ handlers, t.jobId = j ∧ t.pc = .append)
    (hlength : handlers.length = tasks.length) :
    Awaiting j arguments.jobId (handlers.map ResultHandler.result) ⟨server, handlers, .idle⟩ := by
  obtain ⟨hinv, hne, hfile, job, hoperation, hbegun⟩ := h.exists_begun
  have hawaiting := awaiting_of_jobsInv hinv hbegun rfl
    (show (tasks.length : ℤ) = handlers.length by rw [hlength])
    (by rintro rfl; exact hne (List.length_eq_zero_iff.mp hlength.symm)) hfile hhandlers
  rw [← hoperation]
  exact hawaiting

/-- The ids of jobs are positive. -/
theorem Handled.nonneg (h : Handled lib uninitialised arguments j c server tasks) : 0 ≤ j := by
  obtain ⟨as, hrun⟩ := h.reached
  obtain ⟨job, hjob, -⟩ := h.job
  exact ((FirstResults.jobsInv_of_run hrun).ids j job hjob).1.trans' (by decide)

/-! ### The results -/

/-- A task computes the result of its piece. -/
theorem isResult_of_sends {pieces : List (List ℤ)} {task : ClientArgument} {a : Assignment}
    (h : Sends pieces j task a)
    (hcomputes : ∀ lines, openPiece pieces task.fileName.2 = some lines → Computes flib lines) :
    ∃ lines, openPiece pieces task.fileName.2 = some lines ∧
      IsResult task.jobOperation lines (a.result flib).toInt := by
  obtain ⟨lines, hlines, hbytes⟩ := h.piece
  have hextrema := hcomputes lines hlines
  refine ⟨lines, hlines, ?_, ?_⟩
  · intro hmin
    rw [Assignment.result, h.clientArg, if_pos hmin, hbytes]
    exact hextrema.minimum
  · intro hmax
    rw [Assignment.result, h.clientArg, if_neg (by rw [hmax]; decide), hbytes]
    exact hextrema.maximum

/-- The tasks of a group handler, by number. -/
theorem Handled.exists_tasks_eq (h : Handled lib uninitialised arguments j c server tasks) :
    ∃ task : ℕ → ClientArgument, tasks = (List.range tasks.length).map task ∧
      ∀ i, (task i).fileName.2 = taskSuffix i ∧ (task i).jobOperation = arguments.jobId := by
  obtain ⟨arrClients, -, -, rfl⟩ := Server.eq_of_multicastGroupHandler h.handler
  refine ⟨c.clientArgument uninitialised arguments arrClients, ?_, fun _ => ⟨rfl, rfl⟩⟩
  rw [Server.length_tasks]
  rfl

/-- The thread for the answer in a session. -/
def Session.handler (session : Session flib) : ResultHandler where
  clientSocketFd := session.assignment.clientArg.clientSocketId
  result := (session.assignment.result flib).toInt
  jobId := session.assignment.jobId.toInt
  pc := .append

/-- There is one thread for each session. -/
theorem Collected.perm_handler (h : Collected flib numbers j tasks sessions handlers) :
    handlers.Perm (sessions.map Session.handler) := by
  have heq : (sessions.flatMap fun session => session.reported.map handlerOf) =
      sessions.map Session.handler := by
    rw [← List.flatMap_singleton' (sessions.map Session.handler), List.flatMap_map]
    refine List.flatMap_congr fun session _ => ?_
    rw [Session.reported_eq]
    rfl
  exact heq ▸ h.arrived

theorem Collected.length_eq (h : Collected flib numbers j tasks sessions handlers) :
    handlers.length = tasks.length := by
  rw [h.perm_handler.length_eq, List.length_map, h.sends.length_eq]

/-- All threads are for the job. -/
theorem Collected.forall_handlers (h : Collected flib numbers j tasks sessions handlers)
    (hlow : 0 ≤ j) (hint : j < 2 ^ 31) : ∀ t ∈ handlers, t.jobId = j ∧ t.pc = .append := by
  intro t ht
  obtain ⟨session, hsession, rfl⟩ := List.mem_map.mp (h.perm_handler.mem_iff.mp ht)
  obtain ⟨k, hk, rfl⟩ := List.mem_iff_getElem.mp hsession
  have hsends := h.sends.get (h.sends.length_eq ▸ hk) hk
  rw [List.get_eq_getElem, List.get_eq_getElem] at hsends
  refine ⟨?_, rfl⟩
  change (BitVec.ofInt 32 _).toInt = j
  rw [hsends.clientArg, hsends.jobId, BitVec.toInt_ofInt]
  exact Int.bmod_eq_of_le (by omega) (by omega)

/-- The results are those of the tasks. -/
theorem Collected.taskResults (h : Collected flib numbers j tasks sessions handlers)
    (hhandled : Handled lib uninitialised arguments j c server tasks)
    (hcomputes : ∀ i lines, openedPiece numbers tasks.length i = some lines →
      Computes flib lines) :
    TaskResults arguments.jobId numbers tasks.length (handlers.map ResultHandler.result) := by
  obtain ⟨task, htasks, htask⟩ := hhandled.exists_tasks_eq
  refine ⟨sessions.map fun session => (session.assignment.result flib).toInt, ?_, ?_⟩
  · have hperm := h.perm_handler.map ResultHandler.result
    rwa [List.map_map] at hperm
  · have hsends := h.sends
    generalize tasks.length = size at *
    rw [htasks, List.forall₂_map_left_iff] at hsends
    rw [List.forall₂_map_right_iff]
    refine hsends.imp fun i session hsession => ?_
    obtain ⟨hname, hoperation⟩ := htask i
    obtain ⟨lines, hlines, hresult⟩ := isResult_of_sends hsession fun lines hlines =>
      hcomputes i lines (by rwa [hname] at hlines)
    exact ⟨lines, by rwa [hname] at hlines, hoperation ▸ hresult⟩

/-! ### The whole job -/

/-- **From the group handler to the answer.** A group handler runs in a reachable state and finds
clients; each of its tasks is sent and answered on a connection of its own; and the threads for
the answers interleave with each other, with the shell and with the threads of other jobs. Then
the job is complete only with the extremum of the lines in the pieces, and from every state that
is reached the threads can complete it. The tasks send the id of the job, in whichever state they
read it from the group, as long as the job is in progress. -/
theorem job_answered (hlib : lib.Correct)
    (hhandled : Handled lib uninitialised arguments j c server tasks) (hint : j < 2 ^ 31)
    (hlines : numbers.length < 2 ^ 31) (hnames : tasks.length ≤ 10 ^ 6)
    (hcomputes : ∀ i lines, openedPiece numbers tasks.length i = some lines →
      Computes flib lines)
    (hcollected : Collected flib numbers j tasks sessions handlers)
    (hrun : run (Completion.step lib j) bs ⟨server, handlers, .idle⟩ = some s) :
    (∀ job, jobWithId s.jobList j = some job → job.status = .complete →
      IsResult arguments.jobId (answered numbers tasks.length) job.result) ∧
    (∃ bs' s', (∀ b ∈ bs', ∃ k, b = .handler k) ∧
      run (Completion.step lib j) bs' s = some s' ∧
        ∃ job, jobWithId s'.jobList j = some job ∧ job.status = .complete ∧
          IsResult arguments.jobId (answered numbers tasks.length) job.result) ∧
    ∀ as c' job, run (FirstResults.step lib) as (handledControl arguments j c server) = some c' →
      jobWithId c'.jobList j = some job → job.status = .inProgress →
        (c'.multicastGroups arguments.groupId).jobId = j := by
  have hawaiting := hhandled.awaiting (hcollected.forall_handlers hhandled.nonneg hint)
    hcollected.length_eq
  have hresults := hcollected.taskResults hhandled hcomputes
  exact ⟨fun _ hjob hstatus =>
      hawaiting.isResult_of_run hlib hresults hnames hlines hrun hjob hstatus,
    hawaiting.exists_run_completed hlib hresults hnames hlines hrun,
    fun _ _ _ hrun' hjob hstatus => hhandled.jobId_eq hrun' hjob hstatus⟩

/-- The control state after a client joined group 1 and a job was started for it. -/
def startedControl : Exclusivity.Control := { toServer := startedServer, queued := [(1, 1)] }

/-- The library, for files in which every number is 7. -/
def sevens : FileMinMax := ⟨fun _ => 7, fun _ => 7⟩

theorem handled_startedControl : Handled listMinMax 0 ⟨1, jobMin, ['f']⟩ 1 startedControl
    (startedServer.begun 1 [5]) [startedArgument] where
  reached := by
    have hregister : FirstResults.step listMinMax (.control (.register 0 5 [1]))
        Exclusivity.initialControl =
          some { toServer := initialServer.handleGroupIdRegs 0 5 [1], queued := [] } := by
      rw [FirstResults.step, Exclusivity.step, if_pos (by decide)]
      rfl
    have hgroup : ((initialServer.handleGroupIdRegs 0 5 [1]).jobAddition jobMin).1 = 1 := by
      decide +kernel
    have hstart : FirstResults.step listMinMax (.control (.start jobMin))
        { toServer := initialServer.handleGroupIdRegs 0 5 [1], queued := [] } =
          some startedControl := by
      rw [FirstResults.step, Exclusivity.step, if_pos ⟨.inl rfl, by decide +kernel⟩]
      simp only [hgroup]
      rfl
    refine ⟨[.control (.register 0 5 [1]), .control (.start jobMin)], ?_⟩
    rw [run, hregister, Option.bind_some, run, hstart]
    rfl
  queued := List.mem_singleton_self _
  job := ⟨⟨1, jobMin, 0, 0, .notStarted, -1⟩, rfl, rfl⟩
  file := rfl
  free := ⟨5, by decide +kernel, by decide +kernel⟩
  handler := by
    have hfound : startedServer.freeClients 1 = some [5] := by decide +kernel
    have hid : (startedServer.multicastGroups 1).jobId = 1 := by decide +kernel
    have hjob : jobWithId startedServer.jobList 1 = some ⟨1, jobMin, 0, 0, .notStarted, -1⟩ :=
      rfl
    have hlisted := (congrArg (jobWithId startedServer.jobList) hid).trans hjob
    have htasks : startedServer.tasks 0 ⟨1, jobMin, ['f']⟩ [5] = [startedArgument] := by
      decide +kernel
    have hhandler : startedServer.multicastGroupHandler 0 ⟨1, jobMin, ['f']⟩ =
        some (startedServer.begun 1 [5], startedServer.tasks 0 ⟨1, jobMin, ['f']⟩ [5]) :=
      Server.multicastGroupHandler_eq_some hfound hlisted
    exact htasks ▸ hhandler

theorem mem_of_openPiece {pieces : List (List ℤ)} {name : List ℕ} {piece : List ℤ}
    (h : openPiece pieces name = some piece) : piece ∈ pieces := by
  obtain ⟨k, -, hk⟩ := Option.bind_eq_some_iff.mp h
  exact List.mem_of_getElem? hk

/-- The job of `startedServer` is done by its only client, for an input with one line. -/
theorem job_answered_startedServer :
    ∃ (session : Session sevens) (handlers : List ResultHandler),
      Collected sevens [7] 1 [startedArgument] [session] handlers ∧
      (∀ job, jobWithId (startedServer.begun 1 [5]).jobList 1 = some job →
        job.status = .complete → IsResult jobMin (answered [7] 1) job.result) ∧
      (∃ bs' s', (∀ b ∈ bs', ∃ k, b = .handler k) ∧
        run (Completion.step listMinMax 1) bs'
          ⟨startedServer.begun 1 [5], handlers, .idle⟩ = some s' ∧
          ∃ job, jobWithId s'.jobList 1 = some job ∧ job.status = .complete ∧
            IsResult jobMin (answered [7] 1) job.result) ∧
      ∀ as c' job, run (FirstResults.step listMinMax) as
          (handledControl ⟨1, jobMin, ['f']⟩ 1 startedControl (startedServer.begun 1 [5])) =
            some c' →
        jobWithId c'.jobList 1 = some job → job.status = .inProgress →
          (c'.multicastGroups 1).jobId = 1 := by
  have hgrouped : Grouped (writes startedServer startedArgument seven.bytes)
      [⟨fileFrame seven.bytes 0, by decide⟩, ⟨executeFrame 1 1, by decide⟩] :=
    ⟨[[fileFrame seven.bytes 0], [executeFrame 1 1]], writes_seven.symm,
      .cons (List.append_nil _).symm (.cons (List.append_nil _).symm .nil)⟩
  obtain ⟨session, hsession⟩ :=
    exists_session sevens ⟨startedServer, startedArgument, seven, .inl rfl⟩ hgrouped
  have hsplit : split (linesPerPiece [(7 : ℤ)] 1) [(7 : ℤ)] = [[7]] := by decide
  have hpiece : openPiece [[(7 : ℤ)]] [0, 0, 0, 0, 0, 0] = some [7] := by decide
  have hid : (startedServer.multicastGroups 1).jobId = 1 := by decide +kernel
  have hbytes : seven.bytes = fileOf [7] := by decide
  have hcollected : Collected sevens [7] 1 [startedArgument] [session]
      ([session].flatMap fun session => session.reported.map handlerOf) := by
    refine ⟨.cons ⟨by rw [hsession], by rw [hsession]; exact hid, [7], ?_, ?_⟩ .nil, .refl _⟩
    · exact (congrArg (openPiece · _) hsplit).trans hpiece
    · rw [hsession]
      exact hbytes
  have hcomputes : ∀ i lines, openedPiece [(7 : ℤ)] [startedArgument].length i = some lines →
      Computes sevens lines := by
    intro i lines hlines
    have hmem : lines ∈ split (linesPerPiece [(7 : ℤ)] 1) [(7 : ℤ)] := mem_of_openPiece hlines
    rw [hsplit, List.mem_singleton] at hmem
    subst hmem
    exact ⟨rfl, rfl⟩
  generalize [session].flatMap (fun session => session.reported.map handlerOf) = handlers
    at hcollected
  have hrun : run (Completion.step listMinMax 1) [] ⟨startedServer.begun 1 [5], handlers, .idle⟩ =
      some ⟨startedServer.begun 1 [5], handlers, .idle⟩ := rfl
  have hint : (1 : ℤ) < 2 ^ 31 := by norm_num
  have hlines : [(7 : ℤ)].length < 2 ^ 31 := by norm_num
  have hnames : [startedArgument].length ≤ 10 ^ 6 := by norm_num
  have hanswer := job_answered listMinMax_correct handled_startedControl hint hlines hnames
    hcomputes hcollected hrun
  exact ⟨session, handlers, hcollected, hanswer⟩

end Multicast.WholeJob
