import Multicast.Tlv.Runs

/-!
# A piece on its way to a client

The server sends a file in chunks, each in a message that carries the name under which
the client keeps it; the first message writes the file and the others append to it. Then
it sends the job. The client reads the connection in blocks that have the size of a
message with a full chunk.

## Main definitions

* `Multicast.clientHandler` — the bytes that the server writes for a piece
* `Multicast.reads` — the blocks in which the client reads them
* `Multicast.handleFileWrite`, `handleFileAppend`, `jobArguments` — the client's handlers

## Main results

* `clientHandler_eq_stream` — the bytes are messages
* `reads_append` — a full message is read alone
* `exists_files_of_fileTlvs` — the messages leave the piece in its file
-/

set_option autoImplicit false

namespace Multicast

open HeapBlock

/-! ### The server -/

/-- The name `b.txt`. -/
def bTxt : List UInt8 := [98, 46, 116, 120, 116]

/-- What `strncpy (buf, "b.txt", 10)` leaves in the ten bytes of a name. -/
def nameField : List UInt8 := bTxt ++ List.replicate 5 0

/-- `FILE_CHUNK`. -/
def fileChunk : ℕ := 64

/-- The message that one round of the loop of `client_Handler` writes. -/
def fileFrame (file : List UInt8) (i : ℕ) : List UInt8 :=
  let len := if file.length - i > fileChunk then 10 + fileChunk else 10 + (file.length - i)
  let type : TlvType := if i = 0 then .fileWrite else .fileAppend
  let chunk := (file.drop i).take fileChunk
  (type.code :: htonl (BitVec.ofNat 32 len)) ++ (nameField ++ chunk)

/-- The loop of `client_Handler`. -/
def sendFile (file : List UInt8) (i : ℕ) : List UInt8 :=
  if i < file.length then
    let copied := ((file.drop i).take fileChunk).length
    fileFrame file i ++ sendFile file (if copied < fileChunk then i + copied else i + fileChunk)
  else []
termination_by file.length - i
decreasing_by
  simp only [List.length_take, List.length_drop, fileChunk]
  split <;> omega

/-- The message that follows the file. -/
def executeFrame (jobId jobOperation : Word) : List UInt8 :=
  (TlvType.executeJobId.code :: htonl 8) ++ (htonl jobId ++ htonl jobOperation)

/-- `client_Handler`: everything that it writes. -/
def clientHandler (file : List UInt8) (jobId jobOperation : Word) : List UInt8 :=
  sendFile file 0 ++ executeFrame jobId jobOperation

/-! ### The client -/

/-- `TLV_BUFF_SIZE`. -/
def tlvBuffSize : ℕ := 10 + 64 + 5

/-- The reads of `process_job`: each takes all that the buffer has room for, the last one
what is left. -/
def reads (bytes : List UInt8) : List RecvBuff :=
  if bytes = [] then []
  else
    { bytes := bytes.take tlvBuffSize
      length_lt := Nat.lt_of_le_of_lt (List.length_take_le _ _) (by decide) } ::
    reads (bytes.drop tlvBuffSize)
termination_by bytes.length
decreasing_by
  have hpos := List.length_pos_iff.mpr ‹_›
  rw [List.length_drop, tlvBuffSize]
  omega

/-- `strncpy` of at most `n` bytes: the bytes before the first zero. -/
def strncpy (p : Pointer UInt8) (off : ℕ) : ℕ → Option (List UInt8)
  | 0 => some []
  | n + 1 => (p.read off 1).bind fun bytes =>
    if bytes = [0] then some [] else (strncpy p (off + 1) n).map (bytes ++ ·)

/-- The files, each by a name of its own. -/
abbrev Files := List UInt8 → Option (List UInt8)

/-- Where names lead at some moment: the file that `fopen` opens, or none if it fails. -/
abbrev Lookup := List UInt8 → Option (List UInt8)

/-- A directory without directories or links: each name but the empty one is that of a file. -/
def ownNames : Lookup := fun filename => if filename = [] then none else some filename

/-- The bytes that the handlers of files write, those behind the name. -/
def fileBytes (filedata : Pointer UInt8) (fileSizeBytes : Word) : Option (List UInt8) :=
  if fileSizeBytes.toInt - 10 > 0 then filedata.read 10 (fileSizeBytes.toInt - 10).toNat
  else some []

/-- `Handle_file_write`; none if it reads what is not there, or `fopen` fails: the stream is used
without a test. -/
def handleFileWrite (lookup : Lookup) (files : Files) (filedata : Pointer UInt8)
    (fileSizeBytes : Word) : Option Files :=
  (strncpy filedata 0 10).bind fun filename => (lookup filename).bind fun file =>
    (fileBytes filedata fileSizeBytes).map fun bytes =>
      Function.update files file (some bytes)

/-- `Handle_file_append`. -/
def handleFileAppend (lookup : Lookup) (files : Files) (filedata : Pointer UInt8)
    (fileSizeBytes : Word) : Option Files :=
  (strncpy filedata 0 10).bind fun filename => (lookup filename).bind fun file =>
    (fileBytes filedata fileSizeBytes).map fun bytes =>
      Function.update files file (some ((files file).getD [] ++ bytes))

/-- The job and the operation that `Handle_execute_job` reads from its argument. -/
def jobArguments (jobdata : Pointer UInt8) : Option (Word × Word) :=
  (jobdata.read 0 4).bind fun job => (jobdata.read 4 4).map fun jobOperation =>
    (ntohl job, ntohl jobOperation)

/-- The files after a handler was called. A job removes its input; the other handlers leave
it alone. -/
def handleAt (lookup : Lookup) (files : Files) : HandlerCall → Option Files
  | .fileWrite _ filedata fileSizeBytes => handleFileWrite lookup files filedata fileSizeBytes
  | .fileAppend _ filedata fileSizeBytes => handleFileAppend lookup files filedata fileSizeBytes
  | .executeJob _ _ => some ((lookup bTxt).elim files fun file => Function.update files file none)
  | .printText _ | .regGroupId _ _ _ | .keepalive _ | .jobResult _ _ => some files

/-- The handlers of a client, which works in a directory of its own. -/
def handle : Files → HandlerCall → Option Files := handleAt ownNames

variable {file rest : List UInt8} {i : ℕ} {jobId jobOperation : Word} {t : Tlv}
variable {al : Allocator} {fd : ℤ} {files : Files}

/-! ### Messages -/

/-- The message for the chunk at offset `i`. -/
def fileTlv (file : List UInt8) (i : ℕ) : Tlv where
  type := if i = 0 then .fileWrite else .fileAppend
  payload := nameField ++ (file.drop i).take fileChunk
  payload_lt := by
    simp only [nameField, bTxt, fileChunk, List.length_append, List.length_take, List.length_cons,
      List.length_nil, List.length_replicate]
    omega

/-- The messages for the chunks from offset `i` on. -/
def fileTlvs (file : List UInt8) (i : ℕ) : List Tlv :=
  if i < file.length then fileTlv file i :: fileTlvs file (i + fileChunk) else []
termination_by file.length - i
decreasing_by
  rw [fileChunk]
  omega

theorem length_htonl_append_lt (a b : Word) : (htonl a ++ htonl b).length < 2 ^ 32 := by
  simp only [List.length_append, length_htonl]
  omega

/-- The message for the job. -/
def executeTlv (jobId jobOperation : Word) : Tlv where
  type := .executeJobId
  payload := htonl jobId ++ htonl jobOperation
  payload_lt := length_htonl_append_lt jobId jobOperation

theorem length_payload_fileTlv (file : List UInt8) (i : ℕ) :
    (fileTlv file i).payload.length = 10 + min fileChunk (file.length - i) := by
  rw [fileTlv, List.length_append, List.length_take, List.length_drop]
  rfl

theorem fileFrame_eq (file : List UInt8) (i : ℕ) : fileFrame file i = (fileTlv file i).bytes := by
  have hlength : (fileTlv file i).length = BitVec.ofNat 32
      (if file.length - i > fileChunk then 10 + fileChunk else 10 + (file.length - i)) := by
    rw [Tlv.length, length_payload_fileTlv]
    congr 1
    split <;> omega
  rw [Tlv.bytes, Tlv.header, hlength]
  rfl

/-- No chunk begins at the end of the file or behind it. -/
theorem fileTlvs_of_le (h : file.length ≤ i) : fileTlvs file i = [] := by
  rw [fileTlvs, if_neg (by omega)]

theorem sendFile_eq (file : List UInt8) (i : ℕ) : sendFile file i = stream (fileTlvs file i) := by
  induction i using fileTlvs.induct file with
  | case1 i hi ih =>
    rw [sendFile, if_pos hi, fileTlvs, if_pos hi, fileFrame_eq]
    simp only [List.length_take, List.length_drop]
    split
    next hshort =>
      -- the last chunk is short, and the loop ends behind it
      have hend : i + min fileChunk (file.length - i) = file.length := by omega
      rw [fileTlvs_of_le (i := i + fileChunk) (by omega), hend, sendFile, if_neg (by omega)]
      simp [stream]
    next => simp [stream] at ih ⊢; exact ih
  | case2 i hi =>
    rw [sendFile, if_neg hi, fileTlvs, if_neg hi, stream_nil]

theorem executeFrame_eq : executeFrame jobId jobOperation =
    (executeTlv jobId jobOperation).bytes := rfl

/-- What the server writes is a sequence of messages. -/
theorem clientHandler_eq_stream (file : List UInt8) (jobId jobOperation : Word) :
    clientHandler file jobId jobOperation =
      stream (fileTlvs file 0 ++ [executeTlv jobId jobOperation]) := by
  rw [clientHandler, sendFile_eq, executeFrame_eq, stream_append]
  simp [stream]

/-! ### Reads -/

/-- Bytes that fill the buffer are read alone. -/
theorem reads_append {front : List UInt8} (h : front.length = tlvBuffSize) :
    reads (front ++ rest) = ⟨front, by rw [h]; decide⟩ :: reads rest := by
  have hne : front ++ rest ≠ [] := by
    intro hnil
    rw [(List.append_eq_nil_iff.mp hnil).1] at h
    cases h
  rw [reads, if_neg hne]
  simp only [List.take_left' h, List.drop_left' h]

/-- Bytes that fit the buffer are read at once. -/
theorem reads_of_le (hne : rest ≠ []) (h : rest.length ≤ tlvBuffSize) :
    reads rest = [⟨rest, Nat.lt_of_le_of_lt h (by decide)⟩] := by
  rw [reads, if_neg hne, List.drop_eq_nil_of_le h, reads, if_pos rfl]
  simp only [List.take_of_length_le h]

/-! ### Handlers -/

/-- The name that a handler of files reads. -/
theorem strncpy_fileTlv (al : Allocator) (fd : ℤ) (file : List UInt8) (i : ℕ) :
    strncpy ((fileTlv file i).call al fd).data 0 10 = some bTxt := by
  have hlength := length_payload_fileTlv file i
  have hread : ∀ off < 10, ((fileTlv file i).call al fd).data.read off 1 =
      some ((nameField.drop off).take 1) := by
    intro off hoff
    rw [Tlv.read_data_call _ (by omega), fileTlv,
      List.drop_append_of_le_length (by simpa [nameField, bTxt] using Nat.le_of_lt hoff),
      List.take_append_of_le_length]
    simp only [List.length_drop, nameField, bTxt, List.length_append, List.length_cons,
      List.length_nil, List.length_replicate]
    omega
  simp [strncpy, hread, nameField, bTxt]

/-- The chunk that a handler of files reads. -/
theorem fileBytes_fileTlv (al : Allocator) (fd : ℤ) (hi : i < file.length) :
    fileBytes ((fileTlv file i).call al fd).data (fileTlv file i).length =
      some ((file.drop i).take fileChunk) := by
  have hlength := length_payload_fileTlv file i
  have hint : (fileTlv file i).length.toInt - 10 = ((min fileChunk (file.length - i) : ℕ) : ℤ) := by
    have hsmall : min fileChunk (file.length - i) ≤ 64 := Nat.min_le_left _ _
    rw [BitVec.toInt_eq_toNat_of_lt, Tlv.toNat_length, hlength]
    · push_cast
      omega
    · rw [Tlv.toNat_length, hlength]
      omega
  have hpos : 0 < min fileChunk (file.length - i) := by
    rw [fileChunk]
    omega
  rw [fileBytes, hint, if_pos (by omega), Int.toNat_natCast, Tlv.read_data_call _ (by omega)]
  have hdrop : (fileTlv file i).payload.drop 10 = (file.drop i).take fileChunk :=
    List.drop_left' rfl
  rw [hdrop, List.take_of_length_le]
  apply Nat.le_of_eq
  rw [List.length_take, List.length_drop]

/-- The first message writes its chunk to the file, the others append theirs. -/
theorem handle_fileTlv (al : Allocator) (fd : ℤ) (hi : i < file.length)
    (hfile : i ≠ 0 → files bTxt = some (file.take i)) :
    ∃ files', handle files ((fileTlv file i).call al fd) = some files' ∧
      files' bTxt = some (file.take (i + fileChunk)) := by
  have hname := strncpy_fileTlv al fd file i
  have hbytes := fileBytes_fileTlv al fd hi
  have hne : bTxt ≠ [] := by decide
  -- the first message replaces the file, and every other one is put behind what is there
  by_cases hzero : i = 0
  · have hcall : (fileTlv file i).call al fd = .fileWrite fd ((fileTlv file i).call al fd).data
        (fileTlv file i).length := by
      simp [Tlv.call, fileTlv, hzero, TlvType.handler, HandlerCall.data]
    refine ⟨Function.update files bTxt (some ((file.drop i).take fileChunk)), ?_, ?_⟩
    · rw [hcall, handle, handleAt, handleFileWrite, hname, Option.bind_some, ownNames, if_neg hne,
        Option.bind_some, hbytes, Option.map_some]
    · rw [Function.update_self, hzero, List.drop_zero, Nat.zero_add]
  · have hcall : (fileTlv file i).call al fd = .fileAppend fd ((fileTlv file i).call al fd).data
        (fileTlv file i).length := by
      simp [Tlv.call, fileTlv, hzero, TlvType.handler, HandlerCall.data]
    refine ⟨Function.update files bTxt (some (file.take i ++ (file.drop i).take fileChunk)), ?_, ?_⟩
    · rw [hcall, handle, handleAt, handleFileAppend, hname, Option.bind_some, ownNames, if_neg hne,
        Option.bind_some, hbytes, Option.map_some, hfile hzero, Option.getD_some]
    · rw [Function.update_self, List.take_add]

/-- The messages for the chunks from offset `i` on complete the file. -/
theorem exists_files_of_fileTlvs (al : Allocator) (fd : ℤ) (hi : i < file.length)
    (hfile : i ≠ 0 → files bTxt = some (file.take i)) :
    ∃ files', ((fileTlvs file i).map (Tlv.call al fd)).foldlM handle files = some files' ∧
      files' bTxt = some file := by
  induction i using fileTlvs.induct file generalizing files with
  | case2 i hge => exact absurd hi hge
  | case1 i _ ih =>
    obtain ⟨files₁, hhandle, hfile₁⟩ := handle_fileTlv al fd hi hfile
    rw [fileTlvs, if_pos hi, List.map_cons, List.foldlM_cons, hhandle]
    by_cases hnext : i + fileChunk < file.length
    · exact ih hnext fun _ => hfile₁
    · rw [fileTlvs_of_le (by omega)]
      refine ⟨files₁, rfl, ?_⟩
      rw [hfile₁, List.take_of_length_le (by omega)]

/-- None of these messages is a job. -/
theorem type_ne_of_mem_fileTlvs (h : t ∈ fileTlvs file i) : t.type ≠ .executeJobId := by
  induction i using fileTlvs.induct file with
  | case2 i hge =>
    rw [fileTlvs, if_neg hge] at h
    cases h
  | case1 i hi ih =>
    rw [fileTlvs, if_pos hi] at h
    rcases List.mem_cons.mp h with rfl | h
    · change (if i = 0 then TlvType.fileWrite else .fileAppend) ≠ _
      split <;> decide
    · exact ih h

/-- All messages but the last are as long as the buffer; the last one has what is left. -/
theorem exists_fileTlvs_eq (hi : i < file.length) :
    ∃ front last, fileTlvs file i = front ++ [last] ∧
      (∀ t ∈ front, t.bytes.length = tlvBuffSize) ∧
      last.bytes.length = 16 + (file.length - i - 1) % fileChunk := by
  have hlength : ∀ i, (fileTlv file i).bytes.length =
      15 + min fileChunk (file.length - i) := by
    intro i
    rw [Tlv.length_bytes, length_payload_fileTlv]
    omega
  induction i using fileTlvs.induct file with
  | case2 i hge => exact absurd hi hge
  | case1 i _ ih =>
    rw [fileTlvs, if_pos hi]
    by_cases hnext : i + fileChunk < file.length
    · obtain ⟨front, last, heq, hfront, hlast⟩ := ih hnext
      refine ⟨fileTlv file i :: front, last, by rw [heq]; rfl, ?_, ?_⟩
      · intro t ht
        rcases List.mem_cons.mp ht with rfl | ht
        · rw [hlength, tlvBuffSize, fileChunk] at *
          omega
        · exact hfront t ht
      · rw [hlast]
        simp only [fileChunk] at *
        omega
    · -- this message is the last one, and what is left is its text
      refine ⟨[], fileTlv file i, by rw [fileTlvs_of_le (by omega)]; rfl, by simp, ?_⟩
      rw [hlength]
      simp only [fileChunk] at *
      omega

end Multicast
