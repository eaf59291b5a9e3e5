import Multicast.Tlv.Connection
import Multicast.Transfer.Fields

/-!
# A session between the server and a client

Over the life of a connection the server sends a client one task after the other: the piece,
chunk by chunk, and then the job. The client puts the piece into the same file each time,
executes the job on it, answers, and removes the file. Between the answers it sends
keep-alives.

If every read ends at the end of a message, each task is answered once, in the order of the
tasks, with the result for its own piece.

## Main definitions

* `Multicast.Client`, `Client.handle` — the client, and what a call of a handler does to it
* `Multicast.Assignment` — a task that is sent
* `HandlerCall.reported` — what the server's handler reads

## Main results

* `Client.exists_handle_assignment` — one task is answered
* `Client.exists_handle_assignments` — so are several
* `session_answered` — the server is told the results that the client computed

## Implementation notes

The library is there, and every operation is one of the two.
-/

set_option autoImplicit false

namespace Multicast

open HeapBlock

/-! ### The client -/

/-- The client: its files, and the messages that its handlers wrote to the socket. -/
structure Client where
  files : Files
  written : List (List UInt8)

/-- What a call of a handler does; none if it reads what is not there. -/
def Client.handle (lib : FileMinMax) (client : Client) : HandlerCall → Option Client
  | .executeJob _ jobdata => (handleExecuteJob lib client.files jobdata).map fun (frame, files) =>
    ⟨files, client.written ++ [frame]⟩
  | handlerCall => (Multicast.handle client.files handlerCall).map fun files =>
    { client with files := files }

/-- The message that `keep_alive_handler` writes once in a minute. -/
def keepAliveFrame : List UInt8 := (TlvType.keepAlive.code :: htonl 1) ++ [TlvType.keepAlive.code]

/-! ### The tasks -/

/-- A task as `client_Handler` sends it: its argument, the piece, and the server when the id of
the job is read. The operation is one of the two. -/
structure Assignment where
  server : Server
  clientArg : ClientArgument
  piece : Piece
  operation_valid : clientArg.jobOperation = jobMin ∨ clientArg.jobOperation = jobMax

namespace Assignment

/-- The calls of `write` for the task. -/
def writes (a : Assignment) : List (List UInt8) :=
  Multicast.writes a.server a.clientArg a.piece.bytes

/-- The id of the job as it is sent. -/
def jobId (a : Assignment) : Word :=
  BitVec.ofInt 32 (a.server.multicastGroups a.clientArg.mgId).jobId

/-- The operation as it is sent. -/
def operation (a : Assignment) : Word := BitVec.ofInt 32 a.clientArg.jobOperation

/-- What the library computes from the piece. -/
def result (lib : FileMinMax) (a : Assignment) : Word :=
  if a.clientArg.jobOperation = jobMin then lib.minimumOfNumbers (some a.piece.bytes)
  else lib.maximumOfNumbers (some a.piece.bytes)

/-- The messages for the task. -/
def tlvs (a : Assignment) : List Tlv :=
  fileTlvs a.piece.bytes 0 ++ [executeTlv a.jobId a.operation]

/-- The message with the result. -/
def reply (lib : FileMinMax) (a : Assignment) : Tlv := resultTlv (a.result lib) a.jobId

end Assignment

/-- The descriptor, the result and the job with which `Handle_result` goes on. -/
def HandlerCall.reported : HandlerCall → Option (ℤ × Word × Word)
  | .jobResult clientFd resultBytes => (resultArguments resultBytes).map fun out => (clientFd, out)
  | _ => none

variable {al : Allocator} {sfd fd : ℤ} {lib : FileMinMax} {client : Client}
variable {handlerCalls : List HandlerCall} {a : Assignment} {as : List Assignment} {ts : List Tlv}

/-! ### The client's handlers -/

theorem Assignment.writes_eq (a : Assignment) : a.writes = a.tlvs.map Tlv.bytes :=
  Multicast.writes_eq a.server a.clientArg a.piece.bytes

/-- The operation that is sent is the one that is looked up. -/
theorem Assignment.select_operation (a : Assignment) (lib : FileMinMax) :
    ∃ minMax, lib.select a.operation = some minMax ∧
      minMax (some a.piece.bytes) = a.result lib := by
  rw [Assignment.operation, Assignment.result]
  rcases a.operation_valid with h | h
  · exact ⟨lib.minimumOfNumbers, by rw [h]; rfl, by rw [if_pos h]⟩
  · exact ⟨lib.maximumOfNumbers, by rw [h]; rfl, by rw [if_neg (by rw [h]; decide)]⟩

/-- The handlers of files write nothing. -/
theorem Client.foldlM_handle_of_files
    (h : ∀ handlerCall ∈ handlerCalls, handlerCall.type ≠ .executeJobId) :
    handlerCalls.foldlM (Client.handle lib) client =
      (handlerCalls.foldlM Multicast.handle client.files).map fun files =>
        { client with files := files } := by
  induction handlerCalls generalizing client with
  | nil => rfl
  | cons handlerCall handlerCalls ih =>
    obtain ⟨hfirst, hrest⟩ := List.forall_mem_cons.mp h
    have hhandle : client.handle lib handlerCall =
        (Multicast.handle client.files handlerCall).map fun files =>
          { client with files := files } := by
      cases handlerCall with
      | executeJob sfd jobdata => exact absurd rfl hfirst
      | _ => rfl
    rw [List.foldlM_cons, List.foldlM_cons, hhandle]
    cases Multicast.handle client.files handlerCall with
    | none => rfl
    | some files => exact ih hrest

/-- A task is answered, whatever the files were before. -/
theorem Client.exists_handle_assignment (al : Allocator) (sfd : ℤ) (lib : FileMinMax)
    (client : Client) (a : Assignment) :
    ∃ client', (a.tlvs.map (Tlv.call al sfd)).foldlM (Client.handle lib) client = some client' ∧
      client'.written = client.written ++ [(a.reply lib).bytes] := by
  obtain ⟨minMax, hselect, hresult⟩ := a.select_operation lib
  -- nothing is asked of the file before its first chunk
  have hstart : 0 ≠ 0 → client.files bTxt = some (a.piece.bytes.take 0) :=
    fun hzero => absurd rfl hzero
  obtain ⟨files, hfiles, hpiece⟩ :=
    exists_files_of_fileTlvs al sfd (List.length_pos_iff.mpr a.piece.bytes_ne) hstart
  have hnone : ∀ handlerCall ∈ (fileTlvs a.piece.bytes 0).map (Tlv.call al sfd),
      handlerCall.type ≠ .executeJobId := by
    intro handlerCall hmem
    obtain ⟨t, ht, rfl⟩ := List.mem_map.mp hmem
    rw [Tlv.type_call]
    exact type_ne_of_mem_fileTlvs ht
  have hjob : handleExecuteJob lib files ((executeTlv a.jobId a.operation).call al sfd).data =
      some ((a.reply lib).bytes, Function.update files bTxt none) := by
    rw [handleExecuteJob, jobArguments_executeTlv]
    simp only [Option.bind_some, hselect, hpiece, hresult, resultFrame_eq, Option.map_some]
    rfl
  have hexecute : Client.handle lib { client with files := files }
      ((executeTlv a.jobId a.operation).call al sfd) =
        some ⟨Function.update files bTxt none, client.written ++ [(a.reply lib).bytes]⟩ := by
    change (handleExecuteJob lib files
      ((executeTlv a.jobId a.operation).call al sfd).data).map _ = _
    rw [hjob]
    rfl
  refine ⟨⟨Function.update files bTxt none, client.written ++ [(a.reply lib).bytes]⟩, ?_, rfl⟩
  rw [Assignment.tlvs, List.map_append, List.foldlM_append, foldlM_handle_of_files hnone, hfiles]
  change (Client.handle lib { client with files := files }
    ((executeTlv a.jobId a.operation).call al sfd)).bind some = _
  rw [hexecute]
  rfl

/-- Tasks are answered one after the other. -/
theorem Client.exists_handle_assignments (al : Allocator) (sfd : ℤ) (lib : FileMinMax)
    (client : Client) (as : List Assignment) :
    ∃ client', ((as.flatMap Assignment.tlvs).map (Tlv.call al sfd)).foldlM (Client.handle lib)
        client = some client' ∧
      client'.written = client.written ++ as.map fun a => (a.reply lib).bytes := by
  induction as generalizing client with
  | nil => exact ⟨client, rfl, (List.append_nil _).symm⟩
  | cons a as ih =>
    obtain ⟨client₁, hfirst, hwritten₁⟩ := exists_handle_assignment al sfd lib client a
    obtain ⟨client', hrest, hwritten⟩ := ih client₁
    refine ⟨client', ?_, ?_⟩
    · rw [List.flatMap_cons, List.map_append, List.foldlM_append, hfirst]
      exact hrest
    · rw [hwritten, hwritten₁, List.append_assoc, List.map_cons, List.singleton_append]

/-! ### The server's handlers -/

/-- The message of `keep_alive_handler`. -/
def keepAliveTlv : Tlv where
  type := .keepAlive
  payload := [TlvType.keepAlive.code]
  payload_lt := by decide

theorem keepAliveTlv_bytes : keepAliveTlv.bytes = keepAliveFrame := rfl

/-- The handler reads the result and the job that were sent. -/
theorem reported_reply (al : Allocator) (fd : ℤ) (lib : FileMinMax) (a : Assignment) :
    ((a.reply lib).call al fd).reported = some (fd, a.result lib, a.jobId) := by
  exact congrArg (Option.map fun out => (fd, out))
    (jobArguments_executeTlv al fd (a.result lib) a.jobId)

/-- What is written on the connection besides keep-alives are the answers. -/
theorem exists_tlvs_reported (al : Allocator) (fd : ℤ) {sent : List (List UInt8)}
    (h : sent.filter (· ≠ keepAliveFrame) = as.map fun a => (a.reply lib).bytes) :
    ∃ ts : List Tlv, sent = ts.map Tlv.bytes ∧
      (ts.map (Tlv.call al fd)).filterMap HandlerCall.reported =
        as.map fun a => (fd, a.result lib, a.jobId) := by
  induction sent generalizing as with
  | nil =>
    obtain rfl := List.map_eq_nil_iff.mp h.symm
    exact ⟨[], rfl, rfl⟩
  | cons message sent ih =>
    by_cases hkeep : message = keepAliveFrame
    · -- the handler of keep-alives does nothing
      rw [List.filter_cons_of_neg (by simpa using hkeep)] at h
      obtain ⟨ts, hsent, hreported⟩ := ih h
      refine ⟨keepAliveTlv :: ts, ?_, ?_⟩
      · rw [List.map_cons, hkeep, hsent, keepAliveTlv_bytes]
      · rw [List.map_cons, List.filterMap_cons_none rfl, hreported]
    · rw [List.filter_cons_of_pos (by simpa using hkeep)] at h
      obtain ⟨a, as, rfl, hmessage, hrest⟩ := List.map_eq_cons_iff.mp h.symm
      obtain ⟨ts, hsent, hreported⟩ := ih hrest.symm
      refine ⟨a.reply lib :: ts, ?_, ?_⟩
      · rw [List.map_cons, hmessage, hsent]
      · rw [List.map_cons, List.filterMap_cons_some (reported_reply al fd lib a), hreported,
          List.map_cons]

/-! ### The session -/

/-- **Every task is answered once, in order, and for its own piece.** The client gets the
messages of the tasks in reads that end at the end of a message, and the server the answers,
with keep-alives in between, in such reads too. Then the handler of results is called for each
task with what the library computes from its piece, and with the job of the task, whatever the
client had in its files. -/
theorem session_answered (al al' : Allocator) (sfd fd : ℤ) (lib : FileMinMax) (files : Files)
    (as : List Assignment) {bufs : List RecvBuff}
    (h : Grouped (as.flatMap Assignment.writes) bufs) :
    ∃ s' ev client, Feeds al sfd 0 bufs initTlvState s' ev ∧
      (calls ev).foldlM (Client.handle lib) ⟨files, []⟩ = some client ∧
      ∀ (sent : List (List UInt8)) (rds : List Read),
        sent.filter (· ≠ keepAliveFrame) = client.written →
        Grouped sent (rds.map Read.buff) → (∀ rd ∈ rds, ¬ rd.dropped) →
          ∃ ev', Serves al' fd rds ev' ∧ (calls ev').filterMap HandlerCall.reported =
            as.map fun a => (fd, a.result lib, a.jobId) := by
  have hwrites : as.flatMap Assignment.writes = (as.flatMap Assignment.tlvs).map Tlv.bytes := by
    rw [List.map_flatMap]
    exact List.flatMap_congr fun a _ => a.writes_eq
  rw [hwrites] at h
  obtain ⟨parts, hparts, hbufs⟩ := h.exists_parts
  obtain ⟨s', ev, hrun, -, hcalls⟩ := exists_feeds_of_groups al sfd 0 clean_initTlvState hbufs
  obtain ⟨client, hhandle, hwritten⟩ :=
    Client.exists_handle_assignments al sfd lib ⟨files, []⟩ as
  refine ⟨s', ev, client, hrun, ?_, fun sent rds hsent hgrouped hnone => ?_⟩
  · rw [hcalls, hparts]
    exact hhandle
  · rw [hwritten, List.nil_append] at hsent
    obtain ⟨ts, rfl, hreported⟩ := exists_tlvs_reported al' fd hsent
    obtain ⟨groups, rfl, hreads⟩ := hgrouped.exists_parts
    obtain ⟨ev', hserves, hcalls'⟩ := exists_serves al' fd hreads hnone
    exact ⟨ev', hserves, by rw [hcalls', hreported]⟩

/-- A piece with one line, the number 7. -/
def seven : Piece := ⟨[55, 10], by decide, by decide⟩

theorem writes_seven : writes startedServer startedArgument seven.bytes =
    [fileFrame seven.bytes 0, executeFrame 1 1] := by
  have hid : (startedServer.multicastGroups startedArgument.mgId).jobId = 1 := by decide +kernel
  have hend : fileWrites seven.bytes 2 = [] := by rw [fileWrites, if_neg (by decide)]
  rw [writes, hid, fileWrites, if_pos (by decide)]
  change _ :: fileWrites seven.bytes 2 ++ _ = _
  rw [hend]
  rfl

/-- The piece is sent twice. -/
def twoTasks : List Assignment :=
  List.replicate 2 ⟨startedServer, startedArgument, seven, .inl rfl⟩

/-- The messages, each in a buffer of its own. -/
def twoTasksBuffs : List RecvBuff :=
  [⟨fileFrame seven.bytes 0, by decide⟩, ⟨executeFrame 1 1, by decide⟩,
    ⟨fileFrame seven.bytes 0, by decide⟩, ⟨executeFrame 1 1, by decide⟩]

theorem session_answered_twoTasks :
    ∃ s' ev client, Feeds .exact 4 0 twoTasksBuffs initTlvState s' ev ∧
      (calls ev).foldlM (Client.handle ⟨fun _ => 7, fun _ => 7⟩) ⟨fun _ => none, []⟩ =
        some client ∧
      ∀ (sent : List (List UInt8)) (rds : List Read),
        sent.filter (· ≠ keepAliveFrame) = client.written →
        Grouped sent (rds.map Read.buff) → (∀ rd ∈ rds, ¬ rd.dropped) →
          ∃ ev', Serves .exact 5 rds ev' ∧ (calls ev').filterMap HandlerCall.reported =
            twoTasks.map fun a => (5, a.result ⟨fun _ => 7, fun _ => 7⟩, a.jobId) := by
  refine session_answered .exact .exact 4 5 _ (fun _ => none) twoTasks ?_
  refine ⟨[[fileFrame seven.bytes 0], [executeFrame 1 1], [fileFrame seven.bytes 0],
    [executeFrame 1 1]], ?_, ?_⟩
  · change _ = writes startedServer startedArgument seven.bytes ++
      (writes startedServer startedArgument seven.bytes ++ [])
    rw [writes_seven]
    rfl
  · exact .cons (List.append_nil _).symm (.cons (List.append_nil _).symm
      (.cons (List.append_nil _).symm (.cons (List.append_nil _).symm .nil)))

end Multicast
