import Multicast.Server.Tasks
import Multicast.Transfer.Delivery

/-!
# A piece in whole messages

The server cuts a piece into chunks and the client puts the chunks together. The length
that a message declares is computed from the size of the file, the bytes that follow it
are those that were read from the file, and the type depends on the offset; the client
strips a name of ten bytes, truncates for the first message and appends for the others.
If the client's buffers do not cut a message, all of this fits together, whatever the
length of the piece is.

## Main definitions

* `Multicast.writes` — what `client_Handler` writes, call by call
* `Multicast.Grouped` — buffers with one or several whole messages, or none
* `Multicast.Undone` — the handlers put the piece together and then start the job

## Main results

* `flatten_writes` — the calls write the stream of `clientHandler`
* `exists_groups_of_flatten_eq_map` — the messages of the buffers
* `transfer_undone` — the transfer of a piece in whole messages undoes itself
-/

set_option autoImplicit false

namespace Multicast

open HeapBlock

/-! ### Writing -/

/-- The calls of `write` in the loop of `client_Handler`. -/
def fileWrites (file : List UInt8) (i : ℕ) : List (List UInt8) :=
  if i < file.length then
    let copied := ((file.drop i).take fileChunk).length
    fileFrame file i :: fileWrites file (if copied < fileChunk then i + copied else i + fileChunk)
  else []
termination_by file.length - i
decreasing_by
  simp only [List.length_take, List.length_drop, fileChunk]
  split <;> omega

/-- The calls of `write` in `client_Handler`. The job is the one that the group has then. -/
def writes (s : Server) (clientArg : ClientArgument) (file : List UInt8) : List (List UInt8) :=
  fileWrites file 0 ++ [executeFrame (BitVec.ofInt 32 (s.multicastGroups clientArg.mgId).jobId)
    (BitVec.ofInt 32 clientArg.jobOperation)]

/-- A message declares as many bytes as are written behind its header. -/
def DeclaresLength (message : List UInt8) : Prop :=
  (headerOf message).length.toNat = (message.drop 5).length

/-- Each buffer has some of the messages as a whole, in the order in which they were
written. -/
def Grouped (messages : List (List UInt8)) (bufs : List RecvBuff) : Prop :=
  ∃ groups : List (List (List UInt8)), groups.flatten = messages ∧
    List.Forall₂ (fun b group => b.bytes = group.flatten) bufs groups

/-- The handlers of files leave the piece in `b.txt`, and the last call starts the job. -/
def Undone (files : Files) (piece : List UInt8) (jobId jobOperation : Word)
    (handlerCalls : List HandlerCall) : Prop :=
  ∃ front sfd jobdata files', handlerCalls = front ++ [.executeJob sfd jobdata] ∧
    (∀ handlerCall ∈ front, handlerCall.type = .fileWrite ∨ handlerCall.type = .fileAppend) ∧
      front.foldlM handle files = some files' ∧ files' bTxt = some piece ∧
        jobArguments jobdata = some (jobId, jobOperation)

variable {file : List UInt8} {i : ℕ} {t : Tlv} {bufs : List RecvBuff}

theorem fileWrites_eq (file : List UInt8) (i : ℕ) :
    fileWrites file i = (fileTlvs file i).map Tlv.bytes := by
  induction i using fileTlvs.induct file with
  | case1 i hi ih =>
    rw [fileWrites, if_pos hi, fileTlvs, if_pos hi, List.map_cons, fileFrame_eq]
    simp only [List.length_take, List.length_drop]
    split
    next hshort =>
      -- the last chunk is short, and nothing is written behind it
      have hend : i + min fileChunk (file.length - i) = file.length := by omega
      rw [fileTlvs_of_le (by omega), hend, fileWrites, if_neg (by omega), List.map_nil]
    next => rw [ih]
  | case2 i hi => rw [fileWrites, if_neg hi, fileTlvs, if_neg hi, List.map_nil]

/-- What is written are messages. -/
theorem writes_eq (s : Server) (clientArg : ClientArgument) (file : List UInt8) :
    writes s clientArg file =
      (fileTlvs file 0 ++ [executeTlv (BitVec.ofInt 32 (s.multicastGroups clientArg.mgId).jobId)
        (BitVec.ofInt 32 clientArg.jobOperation)]).map Tlv.bytes := by
  rw [writes, fileWrites_eq, executeFrame_eq, List.map_append, List.map_singleton]

/-- The calls write the stream of `client_Handler`. -/
theorem flatten_writes (s : Server) (clientArg : ClientArgument) (file : List UInt8) :
    (writes s clientArg file).flatten =
      clientHandler file (BitVec.ofInt 32 (s.multicastGroups clientArg.mgId).jobId)
        (BitVec.ofInt 32 clientArg.jobOperation) := by
  rw [writes_eq, clientHandler_eq_stream, stream, List.flatMap_def]

theorem declaresLength_bytes (t : Tlv) : DeclaresLength t.bytes := by
  rw [DeclaresLength, Tlv.bytes, headerOf_append, List.drop_left' t.length_header,
    Tlv.toNat_length]

/-! ### Grouping -/

/-- A list that is cut into groups after it was mapped could have been cut before. -/
theorem exists_groups_of_flatten_eq_map {α β : Type*} {f : α → β} {xs : List α}
    {groups : List (List β)} (h : groups.flatten = xs.map f) :
    ∃ parts : List (List α), parts.flatten = xs ∧ groups = parts.map (List.map f) := by
  induction groups generalizing xs with
  | nil => exact ⟨[], (List.map_eq_nil_iff.mp h.symm).symm, rfl⟩
  | cons group groups ih =>
    obtain ⟨front, back, rfl, rfl, hback⟩ := List.map_eq_append_iff.mp h.symm
    obtain ⟨parts, rfl, rfl⟩ := ih hback.symm
    exact ⟨front :: parts, rfl, rfl⟩

/-- Buffers of whole messages hold streams. -/
theorem Grouped.exists_parts {ts : List Tlv} (h : Grouped (ts.map Tlv.bytes) bufs) :
    ∃ parts : List (List Tlv), parts.flatten = ts ∧
      List.Forall₂ (fun b part => b.bytes = stream part) bufs parts := by
  obtain ⟨groups, hflatten, hbufs⟩ := h
  obtain ⟨parts, hparts, rfl⟩ := exists_groups_of_flatten_eq_map hflatten
  refine ⟨parts, hparts, ?_⟩
  rw [List.forall₂_map_right_iff] at hbufs
  exact hbufs.imp fun b part hb => by rw [hb, stream, List.flatMap_def]

/-! ### The transfer -/

/-- The messages of a piece write to its file. -/
theorem type_of_mem_fileTlvs (h : t ∈ fileTlvs file i) :
    t.type = .fileWrite ∨ t.type = .fileAppend := by
  induction i using fileTlvs.induct file with
  | case2 i hge =>
    rw [fileTlvs, if_neg hge] at h
    cases h
  | case1 i hi ih =>
    rw [fileTlvs, if_pos hi] at h
    rcases List.mem_cons.mp h with rfl | h
    · rw [fileTlv]
      split
      · exact .inl rfl
      · exact .inr rfl
    · exact ih h

/-- The job that the handler reads is the one that was sent. -/
theorem jobArguments_executeTlv (al : Allocator) (fd : ℤ) (jobId jobOperation : Word) :
    jobArguments ((executeTlv jobId jobOperation).call al fd).data =
      some (jobId, jobOperation) := by
  rw [Tlv.call, TlvType.data_handler, Pointer.memcpy_realloc_null]
  exact jobArguments_block _

/-- The handlers for the messages of a piece and its job put the piece together. -/
theorem undone_messages (al : Allocator) (fd : ℤ) (files : Files) (piece : Piece)
    (jobId jobOperation : Word) : Undone files piece.bytes jobId jobOperation
      ((fileTlvs piece.bytes 0 ++ [executeTlv jobId jobOperation]).map (Tlv.call al fd)) := by
  -- nothing is asked of the file before its first chunk
  have hstart : 0 ≠ 0 → files bTxt = some (piece.bytes.take 0) := fun hzero => absurd rfl hzero
  obtain ⟨files', hfiles, hpiece⟩ :=
    exists_files_of_fileTlvs al fd (List.length_pos_iff.mpr piece.bytes_ne) hstart
  refine ⟨(fileTlvs piece.bytes 0).map (Tlv.call al fd), fd, _, files', ?_, ?_, hfiles, hpiece,
    jobArguments_executeTlv al fd jobId jobOperation⟩
  · rw [List.map_append, List.map_singleton]
    rfl
  · intro handlerCall hmem
    obtain ⟨t, ht, rfl⟩ := List.mem_map.mp hmem
    rw [Tlv.type_call]
    exact type_of_mem_fileTlvs ht

/-- **Round trip.** Every message that the server writes for a piece declares its length.
When the client gets them in buffers of whole messages, in whatever groups, the handlers of
files leave the piece in `b.txt`, whatever it was before, and one last call starts the job. -/
theorem transfer_undone (al : Allocator) (fd : ℤ) (files : Files) (s : Server)
    (clientArg : ClientArgument) (piece : Piece) (bufs : List RecvBuff)
    (h : Grouped (writes s clientArg piece.bytes) bufs) :
    (∀ message ∈ writes s clientArg piece.bytes, DeclaresLength message) ∧
      ∃ s' ev, Feeds al fd 0 bufs initTlvState s' ev ∧
        Undone files piece.bytes (BitVec.ofInt 32 (s.multicastGroups clientArg.mgId).jobId)
          (BitVec.ofInt 32 clientArg.jobOperation) (calls ev) := by
  rw [writes_eq] at h ⊢
  constructor
  · intro message hmem
    obtain ⟨t, -, rfl⟩ := List.mem_map.mp hmem
    exact declaresLength_bytes t
  · obtain ⟨parts, hparts, hbufs⟩ := h.exists_parts
    obtain ⟨s', ev, hrun, -, hcalls⟩ := exists_feeds_of_groups al fd 0 clean_initTlvState hbufs
    refine ⟨s', ev, hrun, ?_⟩
    rw [hcalls, hparts]
    exact undone_messages al fd files piece _ _

/-- The argument of the task for the client of `startedServer`. -/
def startedArgument : ClientArgument := ⟨5, (1, [0, 0, 0, 0, 0, 0]), 0, 1, jobMin⟩

theorem writes_sixtyBytes : writes startedServer startedArgument sixtyBytes.bytes =
    [fileFrame sixtyBytes.bytes 0, executeFrame 1 1] := by
  have hid : (startedServer.multicastGroups startedArgument.mgId).jobId = 1 := by decide +kernel
  have hend : fileWrites sixtyBytes.bytes 60 = [] := by rw [fileWrites, if_neg (by decide)]
  rw [writes, hid, fileWrites, if_pos (by decide)]
  change _ :: fileWrites sixtyBytes.bytes 60 ++ _ = _
  rw [hend]
  rfl

/-- The messages for sixty bytes, each in a buffer of its own. -/
theorem undone_sixtyBytes : ∃ s' ev, Feeds Allocator.roomy 4 0
    [⟨fileFrame sixtyBytes.bytes 0, by decide⟩, ⟨executeFrame 1 1, by decide⟩] initTlvState s' ev ∧
      Undone (fun _ => some [55]) sixtyBytes.bytes 1 1 (calls ev) := by
  have hid : (startedServer.multicastGroups startedArgument.mgId).jobId = 1 := by decide +kernel
  have hgrouped : Grouped (writes startedServer startedArgument sixtyBytes.bytes)
      [⟨fileFrame sixtyBytes.bytes 0, by decide⟩, ⟨executeFrame 1 1, by decide⟩] :=
    ⟨[[fileFrame sixtyBytes.bytes 0], [executeFrame 1 1]], writes_sixtyBytes.symm,
      .cons rfl (.cons rfl .nil)⟩
  have hundone := (transfer_undone Allocator.roomy 4 (fun _ => some [55]) startedServer
    startedArgument sixtyBytes _ hgrouped).2
  rw [hid] at hundone
  exact hundone

end Multicast
