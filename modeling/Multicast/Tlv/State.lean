import Mathlib.Data.Int.Notation
import Multicast.Lib.HeapBlock
import Multicast.Words

/-!
# Messages on the wire and the state of their reassembly

A message is a type byte, a length in network order and a payload of that length.
The receiver keeps a `TLVState` from one buffer to the next: how far the current
buffer was read, how much of the current payload is still missing, and whether a
header was cut by the end of a buffer.

## Main definitions

* `Multicast.TlvType` — the known types, with the byte of each
* `Multicast.Tlv` — a message, and `Tlv.bytes`, its form on the wire
* `Multicast.TLVState`, `initTlvState` — the state kept by the receiver
* `Multicast.HandlerCall` — a call of one of the functions in `TLV_callbacks`
-/

set_option autoImplicit false

namespace Multicast

open HeapBlock

/-! ### Messages -/

/-- The types with a handler. -/
inductive TlvType where
  | text
  | fileWrite
  | registerGroups
  | keepAlive
  | executeJobId
  | result
  | fileAppend
deriving DecidableEq, Repr

namespace TlvType

/-- The byte that announces a type. -/
def code : TlvType → UInt8
  | text => 1
  | fileWrite => 2
  | registerGroups => 3
  | keepAlive => 4
  | executeJobId => 5
  | result => 6
  | fileAppend => 7

/-- The `case` labels of the dispatch. -/
def ofCode (c : UInt8) : Option TlvType :=
  if c = 1 then some text
  else if c = 2 then some fileWrite
  else if c = 3 then some registerGroups
  else if c = 4 then some keepAlive
  else if c = 5 then some executeJobId
  else if c = 6 then some result
  else if c = 7 then some fileAppend
  else none

@[simp] theorem ofCode_code (t : TlvType) : ofCode t.code = some t := by
  cases t <;> rfl

theorem code_of_ofCode {c : UInt8} {t : TlvType} (h : ofCode c = some t) : t.code = c := by
  grind [ofCode, code]

end TlvType

/-- A message of a known type. The payload is no longer than a length field can
say. -/
structure Tlv where
  type : TlvType
  payload : List UInt8
  payload_lt : payload.length < 2 ^ 32

namespace Tlv

/-- The value of the length field. -/
def length (t : Tlv) : Word := BitVec.ofNat 32 t.payload.length

/-- The five header bytes. -/
def header (t : Tlv) : List UInt8 := t.type.code :: htonl t.length

/-- The message as it travels. -/
def bytes (t : Tlv) : List UInt8 := t.header ++ t.payload

@[simp] theorem toNat_length (t : Tlv) : t.length.toNat = t.payload.length :=
  Nat.mod_eq_of_lt t.payload_lt

@[simp] theorem length_header (t : Tlv) : t.header.length = 5 := rfl

@[simp] theorem length_bytes (t : Tlv) : t.bytes.length = 5 + t.payload.length := by
  simp [bytes]

end Tlv

/-- The bytes of messages sent one after another. -/
def stream (ts : List Tlv) : List UInt8 := ts.flatMap Tlv.bytes

@[simp] theorem stream_nil : stream [] = [] := rfl

@[simp] theorem stream_cons (t : Tlv) (ts : List Tlv) :
    stream (t :: ts) = t.header ++ (t.payload ++ stream ts) := by
  simp [stream, Tlv.bytes]

theorem eq_nil_of_stream_eq_nil {ts : List Tlv} (h : [] = stream ts) : ts = [] := by
  cases ts with
  | nil => rfl
  | cons t ts => simp [Tlv.header] at h

/-! ### The receiver -/

/-- `tlv_header_t`. -/
structure TlvHeader where
  type : UInt8
  length : Word
deriving DecidableEq

/-- The header that a byte string begins with. -/
def headerOf (bs : List UInt8) : TlvHeader := ⟨bs.getD 0 0, ntohl ((bs.drop 1).take 4)⟩

theorem headerOf_cons_htonl (c : UInt8) (w : Word) (rest : List UInt8) :
    headerOf (c :: htonl w ++ rest) = ⟨c, w⟩ := by
  have htake : (htonl w ++ rest).take 4 = htonl w := List.take_left' rfl
  simp [headerOf, htake]

theorem headerOf_append (t : Tlv) (rest : List UInt8) :
    headerOf (t.header ++ rest) = ⟨t.type.code, t.length⟩ :=
  headerOf_cons_htonl _ _ rest

/-- `TLV_State`. The pointer `tlv_header` is read only in the lines that set it, so
the header it points to is a local value of these lines. `len_bytes_processed`
counts to four and is a natural number here; the other counters are words. -/
structure TLVState where
  currentTlvHeader : TlvHeader
  remainingHeader : Word
  remainingBytes : Word
  r : Word
  c : Word
  tlvData : Pointer UInt8
  lenBytesProcessed : ℕ
  lenIsNotComplete : Bool
  tlvHeaderIsComplete : Bool
  tlvIsComplete : Bool
deriving DecidableEq

/-- `init_tlv_state`. -/
def initTlvState : TLVState where
  currentTlvHeader := ⟨0, 0⟩
  remainingHeader := 0
  remainingBytes := 0
  r := 0
  c := 0
  tlvData := .null
  lenBytesProcessed := 0
  lenIsNotComplete := false
  tlvHeaderIsComplete := true
  tlvIsComplete := true

/-! ### Handlers -/

/-- A call through `TLV_callbacks`, with the arguments its signature has. -/
inductive HandlerCall where
  | printText (data : Pointer UInt8)
  | fileWrite (clientFd : ℤ) (data : Pointer UInt8) (len : Word)
  | fileAppend (clientFd : ℤ) (data : Pointer UInt8) (len : Word)
  | regGroupId (clientFd : ℤ) (data : Pointer UInt8) (len : Word)
  | keepalive (data : Pointer UInt8)
  | executeJob (sfd : ℤ) (jobData : Pointer UInt8)
  | jobResult (clientFd : ℤ) (jobResultData : Pointer UInt8)
deriving DecidableEq

/-- The call made for a complete message of a type. -/
def TlvType.handler (clientSocketFd : ℤ) (data : Pointer UInt8) (len : Word) :
    TlvType → HandlerCall
  | text => .printText data
  | fileWrite => .fileWrite clientSocketFd data len
  | registerGroups => .regGroupId clientSocketFd data len
  | keepAlive => .keepalive data
  | executeJobId => .executeJob clientSocketFd data
  | result => .jobResult clientSocketFd data
  | fileAppend => .fileAppend clientSocketFd data len

namespace HandlerCall

/-- The type whose `case` makes the call. -/
def type : HandlerCall → TlvType
  | printText _ => .text
  | fileWrite _ _ _ => .fileWrite
  | fileAppend _ _ _ => .fileAppend
  | regGroupId _ _ _ => .registerGroups
  | keepalive _ => .keepAlive
  | executeJob _ _ => .executeJobId
  | jobResult _ _ => .result

/-- The length argument, for the handlers that take one. -/
def len : HandlerCall → Option Word
  | fileWrite _ _ n | fileAppend _ _ n | regGroupId _ _ n => some n
  | printText _ | keepalive _ | executeJob _ _ | jobResult _ _ => none

/-- The pointer argument. -/
def data : HandlerCall → Pointer UInt8
  | printText p | keepalive p => p
  | executeJob _ p | jobResult _ p => p
  | fileWrite _ p _ | fileAppend _ p _ | regGroupId _ p _ => p

end HandlerCall

/-- Whether the handler of a type is told the length of the payload. -/
def TlvType.takesLen : TlvType → Bool
  | fileWrite | fileAppend | registerGroups => true
  | text | keepAlive | executeJobId | result => false

@[simp] theorem TlvType.type_handler (fd : ℤ) (p : Pointer UInt8) (n : Word) (t : TlvType) :
    (t.handler fd p n).type = t := by
  cases t <;> rfl

@[simp] theorem TlvType.data_handler (fd : ℤ) (p : Pointer UInt8) (n : Word) (t : TlvType) :
    (t.handler fd p n).data = p := by
  cases t <;> rfl

@[simp] theorem TlvType.len_handler (fd : ℤ) (p : Pointer UInt8) (n : Word) (t : TlvType) :
    (t.handler fd p n).len = if t.takesLen then some n else none := by
  cases t <;> rfl

end Multicast
