import Multicast.Transfer.Chunks
import Multicast.Transfer.Handlers

/-!
# Messages of numbers

Three messages carry numbers: the groups that a client joins, the job that it gets, and
the result that it sends back. Each is put together in a buffer of zeros, field by field
and at offsets that are written out, by a function in one file, and taken apart by a
function in another. The offsets agree, and every number goes through network order on
both sides.

## Main definitions

* `Multicast.registerFrame`, `executeJobFrame`, `resultFrame` — the messages, as they are
  put together
* `Multicast.handleGroupIdRegs` — a client is registered for the groups of its message
* `Multicast.handleExecuteJob` — a job is executed and its result sent
* `Multicast.ReceivedAs` — what becomes of a message that fills a buffer
* `Multicast.RegisterRoundTrip`, `JobRoundTrip` — what was sent is what is read

## Main results

* `registerFrame_eq`, `executeJobFrame_eq`, `resultFrame_eq` — the messages
* `receivedAs_bytes` — a message in a buffer makes one call
* `roundTrips` — the numbers that are sent are those that are read
-/

set_option autoImplicit false

namespace Multicast

open HeapBlock

/-! ### The messages -/

/-- `MAX_SIZE`. -/
def maxSize : ℕ := 4096

/-- `sendBuff`, after `memset`. -/
def sendBuff : Pointer UInt8 := .block (List.replicate maxSize (some 0))

/-- The loop of the client's `main` over the ids that are left. -/
def copyIds (sendBuff : Pointer UInt8) (i : ℕ) : List Word → Pointer UInt8
  | [] => sendBuff
  | a :: ids => copyIds (sendBuff.memcpy (1 + 4 + i * 4) (htonl a)) (i + 1) ids

/-- The message that the client's `main` writes. -/
def registerFrame (ids : List Word) : Option (List UInt8) :=
  let len := 4 * ids.length
  let buffer := (sendBuff.memcpy 0 [TlvType.registerGroups.code]).memcpy 1
    (htonl (BitVec.ofNat 32 len))
  (copyIds buffer 0 ids).read 0 (len + 5)

/-- The last message that `client_Handler` writes. -/
def executeJobFrame (jobId jobOperation : Word) : Option (List UInt8) :=
  let buffer := (sendBuff.memcpy 0 [TlvType.executeJobId.code]).memcpy 1 (htonl (4 * 2))
  ((buffer.memcpy 5 (htonl jobId)).memcpy (5 + 4) (htonl jobOperation)).read 0 (5 + 4 + 4)

/-- The message that `Handle_execute_job` writes. -/
def resultFrame (result job : Word) : Option (List UInt8) :=
  let buffer := (sendBuff.memcpy 0 [TlvType.result.code]).memcpy 1 (htonl (4 * 2))
  ((buffer.memcpy (1 + 4) (htonl result)).memcpy (5 + 4) (htonl job)).read 0 (4 + 5 + 4)

/-- The functions of `libminmax.so`, which the client calls with the name of a file. -/
structure FileMinMax where
  minimumOfNumbers : Option (List UInt8) → Word
  maximumOfNumbers : Option (List UInt8) → Word

/-- The function that the `switch` of `Handle_execute_job` looks up. -/
def FileMinMax.select (lib : FileMinMax) (jobOperation : Word) :
    Option (Option (List UInt8) → Word) :=
  if jobOperation.toInt = jobMin then some lib.minimumOfNumbers
  else if jobOperation.toInt = jobMax then some lib.maximumOfNumbers
  else none

/-- `Handle_group_id_regs`, with the payload and the length of its message. -/
def handleGroupIdRegs (now : ℤ) (s : Server) (clientSocketFd : ℤ) (groupIds : Pointer UInt8)
    (size : Word) : Option Server :=
  (registeredGroups groupIds size).map fun registered =>
    s.handleGroupIdRegs now clientSocketFd registered.1

/-- `Handle_execute_job`, when the library is there: the message that it writes, and the
files of the client. -/
def handleExecuteJob (lib : FileMinMax) (files : Files) (jobdata : Pointer UInt8) :
    Option (List UInt8 × Files) :=
  (jobArguments jobdata).bind fun (job, jobOperation) =>
    (lib.select jobOperation).bind fun minMax =>
      (resultFrame (minMax (files bTxt)) job).map fun frame =>
        (frame, Function.update files bTxt none)

/-! ### Round trips -/

/-- A message declares its length, and `assemble_tlv`, given a buffer with the message,
makes one call. -/
def ReceivedAs (al : Allocator) (fd : ℤ) (frame : List UInt8) (handlerCall : HandlerCall) :
    Prop :=
  DeclaresLength frame ∧ ∃ (hlt : frame.length < 2 ^ 31) (s' : TLVState) (ev : List Event),
    Feeds al fd 0 [⟨frame, hlt⟩] initTlvState s' ev ∧ calls ev = [handlerCall]

/-- Whoever gets the message of a client gets the groups that the client named, and their number,
and a server adds the client to these groups. -/
def RegisterRoundTrip (al : Allocator) (fd : ℤ) (ids : List Word) : Prop :=
  ∃ frame groupIds size, registerFrame ids = some frame ∧
    ReceivedAs al fd frame (.regGroupId fd groupIds size) ∧
      registeredGroups groupIds size = some (ids.map BitVec.toInt, (ids.length : ℤ)) ∧
        ∀ now s, handleGroupIdRegs now s fd groupIds size =
          some (s.handleGroupIdRegs now fd (ids.map BitVec.toInt))

/-- A client is told the job and the operation, and the server the result and the job. -/
def JobRoundTrip (al : Allocator) (fd sfd : ℤ) (lib : FileMinMax) (files : Files)
    (jobId jobOperation : Word) : Prop :=
  ∃ frame jobdata minMax reply files' resultBytes,
    executeJobFrame jobId jobOperation = some frame ∧
      ReceivedAs al sfd frame (.executeJob sfd jobdata) ∧
        jobArguments jobdata = some (jobId, jobOperation) ∧
    lib.select jobOperation = some minMax ∧
      handleExecuteJob lib files jobdata = some (reply, files') ∧
        ReceivedAs al fd reply (.jobResult fd resultBytes) ∧
          resultArguments resultBytes = some (minMax (files bTxt), jobId)

variable {ids : List Word} {jobId jobOperation result : Word} {t : Tlv} {i : ℕ}

/-! ### Putting together -/

theorem length_flatMap_htonl (ids : List Word) : (ids.flatMap htonl).length = 4 * ids.length := by
  simp [List.length_flatMap, Nat.mul_comm]

/-- The message with which a client registers, when it fits the buffer. -/
def registerTlv (ids : List Word) (h : 4 * ids.length + 5 ≤ maxSize) : Tlv where
  type := .registerGroups
  payload := ids.flatMap htonl
  payload_lt := by
    rw [length_flatMap_htonl]
    rw [maxSize] at h
    omega

/-- The message with a result. -/
def resultTlv (result job : Word) : Tlv where
  type := .result
  payload := htonl result ++ htonl job
  payload_lt := length_htonl_append_lt result job

theorem copyIds_eq (p : Pointer UInt8) (i : ℕ) (ids : List Word) :
    copyIds p i ids = p.memcpyFields (5 + i * 4) (ids.map htonl) := by
  induction ids generalizing p i with
  | nil => rfl
  | cons id ids ih =>
    have hplace : 5 + (i + 1) * 4 = 5 + i * 4 + 4 := by omega
    rw [copyIds, ih, List.map_cons, Pointer.memcpyFields, length_htonl, hplace]

/-- The fields of a message fill the buffer one behind the other. -/
theorem read_sendBuff (fields : List (List UInt8)) (h : fields.flatten.length ≤ maxSize) :
    (sendBuff.memcpyFields 0 fields).read 0 fields.flatten.length = some fields.flatten :=
  Pointer.read_memcpyFields _ fields (by rwa [List.length_replicate])

theorem registerFrame_eq (h : 4 * ids.length + 5 ≤ maxSize) :
    registerFrame ids = some (registerTlv ids h).bytes := by
  have hpayload : (registerTlv ids h).payload.length = 4 * ids.length := length_flatMap_htonl ids
  have hflatten : ([TlvType.registerGroups.code] :: htonl (BitVec.ofNat 32 (4 * ids.length)) ::
      ids.map htonl).flatten = (registerTlv ids h).bytes := by
    rw [Tlv.bytes, Tlv.header, Tlv.length, hpayload]
    rfl
  have hlength : (registerTlv ids h).bytes.length = 4 * ids.length + 5 := by
    rw [Tlv.length_bytes, hpayload, Nat.add_comm]
  have hread := read_sendBuff ([TlvType.registerGroups.code] ::
    htonl (BitVec.ofNat 32 (4 * ids.length)) :: ids.map htonl) (by rwa [hflatten, hlength])
  rw [hflatten, hlength] at hread
  rw [registerFrame, copyIds_eq]
  generalize sendBuff = buffer at hread ⊢
  exact hread

/-- A message of two numbers. -/
theorem read_twoNumbers (code : UInt8) (a b : Word) :
    ((((sendBuff.memcpy 0 [code]).memcpy 1 (htonl 8)).memcpy 5 (htonl a)).memcpy 9
      (htonl b)).read 0 13 = some ((code :: htonl 8) ++ (htonl a ++ htonl b)) := by
  have hread := read_sendBuff [[code], htonl 8, htonl a, htonl b] (by simp [maxSize])
  generalize sendBuff = buffer at hread ⊢
  exact hread

theorem executeJobFrame_eq (jobId jobOperation : Word) :
    executeJobFrame jobId jobOperation = some (executeTlv jobId jobOperation).bytes :=
  read_twoNumbers _ jobId jobOperation

theorem resultFrame_eq (result job : Word) :
    resultFrame result job = some (resultTlv result job).bytes := read_twoNumbers _ result job

/-! ### Taking apart -/

/-- A message in a buffer makes the call of its handler. -/
theorem receivedAs_bytes (al : Allocator) (fd : ℤ) (t : Tlv) (hlt : t.bytes.length < 2 ^ 31) :
    ReceivedAs al fd t.bytes (t.call al fd) := by
  have hgroups : List.Forall₂ (fun (b : RecvBuff) group => b.bytes = stream group)
      [⟨t.bytes, hlt⟩] [[t]] := .cons (by simp [Tlv.bytes]) .nil
  obtain ⟨s', ev, hrun, -, hcalls⟩ := exists_feeds_of_groups al fd 0 clean_initTlvState hgroups
  exact ⟨declaresLength_bytes t, hlt, s', ev, hrun, hcalls⟩

theorem registerRoundTrip (al : Allocator) (fd : ℤ) (h : 4 * ids.length + 5 ≤ maxSize) :
    RegisterRoundTrip al fd ids := by
  have hlength : (registerTlv ids h).payload.length = 4 * ids.length := length_flatMap_htonl ids
  have hsmall : 4 * ids.length + 5 ≤ 4096 := h
  have hregistered : registeredGroups ((registerTlv ids h).call al fd).data
      (registerTlv ids h).length = some (ids.map BitVec.toInt, (ids.length : ℤ)) := by
    have hids : groupArray (registerTlv ids h).payload = ids.map BitVec.toInt :=
      groupArray_flatMap_htonl ids
    rw [registeredGroups_eq (holds_data_call al fd (registerTlv ids h)) (by omega) (by omega),
      groupIds, if_pos (by omega), hids, List.length_map]
  refine ⟨_, ((registerTlv ids h).call al fd).data, (registerTlv ids h).length,
    registerFrame_eq h, ?_, hregistered, fun now s => ?_⟩
  · exact receivedAs_bytes al fd (registerTlv ids h) (by rw [Tlv.length_bytes]; omega)
  · rw [handleGroupIdRegs, hregistered, Option.map_some]

theorem FileMinMax.exists_select (lib : FileMinMax)
    (h : jobOperation.toInt = jobMin ∨ jobOperation.toInt = jobMax) :
    ∃ minMax, lib.select jobOperation = some minMax := by
  rw [FileMinMax.select]
  rcases h with h | h
  · rw [if_pos h]
    exact ⟨_, rfl⟩
  · rw [if_neg (by rw [h]; decide), if_pos h]
    exact ⟨_, rfl⟩

theorem jobRoundTrip (al : Allocator) (fd sfd : ℤ) (lib : FileMinMax) (files : Files)
    (jobId : Word) (h : jobOperation.toInt = jobMin ∨ jobOperation.toInt = jobMax) :
    JobRoundTrip al fd sfd lib files jobId jobOperation := by
  obtain ⟨minMax, hselect⟩ := lib.exists_select h
  have harguments := jobArguments_executeTlv al sfd jobId jobOperation
  have hjob : (executeTlv jobId jobOperation).bytes.length < 2 ^ 31 := by
    rw [length_bytes_executeTlv]
    decide
  have hresult : (resultTlv (minMax (files bTxt)) jobId).bytes.length < 2 ^ 31 := hjob
  refine ⟨_, ((executeTlv jobId jobOperation).call al sfd).data, minMax,
    (resultTlv (minMax (files bTxt)) jobId).bytes, Function.update files bTxt none,
    ((resultTlv (minMax (files bTxt)) jobId).call al fd).data,
    executeJobFrame_eq jobId jobOperation, receivedAs_bytes al sfd _ hjob,
    harguments, hselect, ?_, receivedAs_bytes al fd _ hresult, ?_⟩
  · rw [handleExecuteJob, harguments]
    simp only [Option.bind_some, hselect, resultFrame_eq, Option.map_some]
  · -- the result is read as a job is, in the other order
    exact jobArguments_executeTlv al fd (minMax (files bTxt)) jobId

/-- **Round trips.** The groups that a client names, as many as fit its buffer, are those
that the server adds it to; the job and the operation that the server sends are those that
the client executes, and the result and the job that the client sends back are those that
the server reads. Every message declares its length. -/
theorem roundTrips (al : Allocator) (fd sfd : ℤ) (lib : FileMinMax) (files : Files) :
    (∀ ids : List Word, 4 * ids.length + 5 ≤ maxSize → RegisterRoundTrip al fd ids) ∧
      ∀ jobId jobOperation : Word,
        jobOperation.toInt = jobMin ∨ jobOperation.toInt = jobMax →
          JobRoundTrip al fd sfd lib files jobId jobOperation :=
  ⟨fun _ h => registerRoundTrip al fd h, fun jobId _ h => jobRoundTrip al fd sfd lib files jobId h⟩

/-- A client joins two groups, and returns a negative result for a job. -/
theorem roundTrips_minusFive :
    RegisterRoundTrip .exact 5 [7, 999] ∧
      JobRoundTrip .exact 5 4 ⟨fun _ => -5, fun _ => 0⟩ (fun _ => none) 3 1 := by
  obtain ⟨hregister, hjob⟩ :=
    roundTrips .exact 5 4 ⟨fun _ => -5, fun _ => 0⟩ (fun _ => none)
  exact ⟨hregister [7, 999] (by decide), hjob 3 1 (.inl (by decide))⟩

end Multicast
