import Multicast.Lib.GotoLoop
import Multicast.Tlv.State

/-!
# Reassembly of messages from received buffers

`assemble_tlv` walks one buffer. Its body ends by returning, when the buffer is
used up, or by jumping back to the label `start`, after a message was handed to
its handler. One pass over the body is cut here into the blocks of the source:
the start of a header that does not fit the buffer, the rest of such a header, a
header that lies in the buffer as a whole, and the payload.

The allocator is a parameter of every pass. A pass never depends on what it
hands out except in the cells a handler sees.

## Main definitions

* `Multicast.Event` — what a pass does besides changing the state
* `Multicast.assemblePass` — one pass, from the label to a jump or a return
* `Multicast.Assembles` — a call of `assemble_tlv` on a buffer returns
* `Multicast.Feeds` — calls on successive buffers with one persistent state

## Implementation notes

`r` is an `int` used as an offset. It never exceeds the length of the buffer, so
for a buffer shorter than `2 ^ 31` bytes its value is the same read signed or
unsigned; `RecvBuff` carries this bound. `c` exceeds it only when one message
does.
-/

set_option autoImplicit false

namespace Multicast

open HeapBlock GotoLoop

/-- `NO_TLV_DATA`. -/
def noTlvData : ℕ := 0

/-- `TLV_CONTINUE`. -/
def tlvContinue : ℕ := 1

/-- What a pass does besides changing the state: a copy of `bytes`, found at
offset `src` of the buffer, to offset `dst` of a block with `room` cells; a call
of a handler; or the message about an unknown type, whose payload ended at offset
`next` of the buffer. -/
inductive Event where
  | memcpy (src dst room : ℕ) (bytes : List UInt8)
  | call (handlerCall : HandlerCall)
  | discard (type : UInt8) (next : ℕ)
deriving DecidableEq

/-- The end of a block of the body: a return, or the state in which the next block
is entered. -/
abbrev Outcome := Pass TLVState (ℕ × TLVState)

section Pass

variable (al : Allocator) (recvBuff : List UInt8) (Bufflen : Word) (clientSocketFd : ℤ)

/-- `Bufflen - tlv_s->r`, an unsigned difference. -/
def TLVState.unread (tlvS : TLVState) : Word := Bufflen - tlvS.r

/-- The byte at an offset of the buffer. -/
def byteAt (off : Word) : UInt8 := recvBuff.getD off.toNat 0

/-- The bytes `memcpy` takes from the buffer. -/
def bytesAt (off n : Word) : List UInt8 := (recvBuff.drop off.toNat).take n.toNat

/-- "header is split across 2 packets": the type byte of a header that does not fit
the rest of the buffer. -/
def beginSplitHeader (tlvS : TLVState) : TLVState :=
  if tlvS.unread Bufflen < 5 ∧ tlvS.tlvHeaderIsComplete ∧ tlvS.remainingBytes = 0 then
    { tlvS with
      currentTlvHeader := { tlvS.currentTlvHeader with type := byteAt recvBuff tlvS.r }
      r := tlvS.r + 1
      tlvHeaderIsComplete := false
      lenBytesProcessed := 0 }
  else tlvS

/-- One round of the loop over the length bytes. The copy goes to the address of
the length, whatever the number of the byte. -/
def copyLengthByte (tlvS : TLVState) : TLVState :=
  { tlvS with
    currentTlvHeader :=
      { tlvS.currentTlvHeader with
        length := setLowByte tlvS.currentTlvHeader.length (byteAt recvBuff tlvS.r) }
    r := tlvS.r + 1
    remainingHeader := tlvS.remainingHeader - 1
    lenBytesProcessed := tlvS.lenBytesProcessed + 1
    lenIsNotComplete := decide (tlvS.lenBytesProcessed + 1 < 4) }

/-- The `while` loop over the length bytes, with the number of bytes that are
missing before the loop condition fails. -/
def copyLengthBytes : ℕ → TLVState → TLVState
  | 0, tlvS => tlvS
  | missing + 1, tlvS =>
    if tlvS.remainingHeader = 0 then tlvS
    else copyLengthBytes missing (copyLengthByte recvBuff tlvS)

/-- The end of a split header. The length is used as it lies in memory. -/
def endSplitHeader (tlvS : TLVState) : TLVState :=
  if tlvS.lenBytesProcessed = 4 then
    { tlvS with
      tlvHeaderIsComplete := true
      lenIsNotComplete := false
      remainingBytes := tlvS.currentTlvHeader.length }
  else tlvS

/-- The block for a header that an earlier buffer, or `beginSplitHeader`, left
incomplete. -/
def continueSplitHeader (tlvS : TLVState) : Outcome :=
  if tlvS.tlvHeaderIsComplete then .goto tlvS
  else if tlvS.unread Bufflen = 0 then .ret (tlvContinue, { tlvS with r := 0 })
  else
    let tlvS := endSplitHeader <| copyLengthBytes recvBuff (4 - tlvS.lenBytesProcessed)
      { tlvS with remainingHeader := tlvS.unread Bufflen }
    if tlvS.lenIsNotComplete then .ret (tlvContinue, { tlvS with r := 0 })
    else .goto tlvS

/-- "new tlv header is available": five bytes are left and no payload is under way. The block of
an earlier message is released; that it was not released before is checked in `checkedPass`. -/
def readHeader (tlvS : TLVState) : TLVState :=
  if 5 ≤ tlvS.unread Bufflen ∧ tlvS.tlvIsComplete then
    let header : TlvHeader :=
      ⟨byteAt recvBuff tlvS.r, ntohl (bytesAt recvBuff (tlvS.r + 1) 4)⟩
    { tlvS with
      currentTlvHeader := header
      remainingBytes := header.length
      r := tlvS.r + 5
      tlvData := .null }
  else tlvS

/-- "continue filling partial data": the payload goes on in a later buffer. -/
def fillPartial (tlvS : TLVState) : (ℕ × TLVState) × List Event :=
  let n := tlvS.unread Bufflen
  let data := tlvS.tlvData.realloc al n.toNat
  let bytes := bytesAt recvBuff tlvS.r n
  ((tlvContinue,
    { tlvS with
      tlvData := data.memcpy tlvS.c.toNat bytes
      remainingBytes := tlvS.remainingBytes - n
      c := tlvS.c + n
      r := 0
      tlvIsComplete := false }),
    [.memcpy tlvS.r.toNat tlvS.c.toNat data.room bytes])

/-- The payload ends in this buffer. A payload that began in an earlier buffer is
copied from the start of this one, to the bytes copied so far. -/
def fillComplete (tlvS : TLVState) : TLVState × Event :=
  let src : Word := if tlvS.tlvIsComplete then tlvS.r else 0
  let dst : Word := if tlvS.tlvIsComplete then 0 else tlvS.c
  let data := tlvS.tlvData.realloc al tlvS.remainingBytes.toNat
  let bytes := bytesAt recvBuff src tlvS.remainingBytes
  ({ tlvS with
      tlvData := data.memcpy dst.toNat bytes
      r := tlvS.r + tlvS.remainingBytes
      remainingBytes := 0
      tlvIsComplete := true
      c := 0 },
    .memcpy src.toNat dst.toNat data.room bytes)

/-- The `switch` on the type of a complete message. The default case goes back to
the start of the buffer, and keeps the pointer to the block it released. -/
def dispatch (tlvS : TLVState) : TLVState × Event :=
  match TlvType.ofCode tlvS.currentTlvHeader.type with
  | some type =>
    ({ tlvS with tlvData := .null, currentTlvHeader := ⟨0xFF, 0⟩ },
      .call (type.handler clientSocketFd tlvS.tlvData tlvS.currentTlvHeader.length))
  | none =>
    ({ tlvS with r := 0, tlvData := tlvS.tlvData.free },
      .discard tlvS.currentTlvHeader.type tlvS.r.toNat)

/-- The blocks after the header: the payload, and the dispatch of a complete
message. -/
def fill (tlvS : TLVState) : Outcome × List Event :=
  if tlvS.unread Bufflen < tlvS.remainingBytes then
    let out := fillPartial al recvBuff Bufflen tlvS
    (.ret out.1, out.2)
  else
    let filled := fillComplete al recvBuff tlvS
    let out := dispatch clientSocketFd filled.1
    (.goto out.1, [filled.2, out.2])

/-- One pass of `assemble_tlv`, from the label `start`. -/
def assemblePass : Body TLVState (ℕ × TLVState) Event := fun tlvS =>
  if tlvS.unread Bufflen = 0 ∧ tlvS.tlvIsComplete then
    (.ret (noTlvData, { tlvS with r := 0 }), [])
  else
    match continueSplitHeader recvBuff Bufflen (beginSplitHeader recvBuff Bufflen tlvS) with
    | .ret out => (.ret out, [])
    | .goto tlvS => fill al recvBuff Bufflen clientSocketFd (readHeader recvBuff Bufflen tlvS)

end Pass

/-! ### Calls -/

/-- A buffer as a reader passes it: the bytes that arrived, few enough for the
`int` that walks them. -/
structure RecvBuff where
  bytes : List UInt8
  length_lt : bytes.length < 2 ^ 31

namespace RecvBuff

/-- A header fits a buffer, and so does a byte of a payload. -/
theorem five_lt : 5 < 2 ^ 31 := by decide

theorem one_lt : 1 < 2 ^ 31 := by decide

/-- The true length of a buffer, as the argument `Bufflen`. -/
def len (b : RecvBuff) : Word := BitVec.ofNat 32 b.bytes.length

@[simp] theorem toNat_len (b : RecvBuff) : b.len.toNat = b.bytes.length :=
  Nat.mod_eq_of_lt (Nat.lt_trans b.length_lt (by decide))

end RecvBuff

variable (al : Allocator) (fd : ℤ)

/-- One pass over a buffer passed with its true length. -/
abbrev passOn (b : RecvBuff) : Body TLVState (ℕ × TLVState) Event :=
  assemblePass al b.bytes b.len fd

/-- `assemble_tlv`, called on `b` in state `s`, returns in state `s'` after the
events `ev`. -/
def Assembles (b : RecvBuff) (s s' : TLVState) (ev : List Event) : Prop :=
  ∃ code, Returns (passOn al fd b) s (code, s') ev

/-- An event seen from the start of the stream, for a buffer that begins at offset
`base` of it. -/
def Event.shift (base : ℕ) : Event → Event
  | memcpy src dst room bytes => memcpy (base + src) dst room bytes
  | call h => call h
  | discard type next => discard type (base + next)

/-- Successive calls on buffers, the first of which begins at offset `base` of the
stream; the events are those seen from the start of the stream. -/
inductive Feeds : ℕ → List RecvBuff → TLVState → TLVState → List Event → Prop
  | nil {base : ℕ} {s : TLVState} : Feeds base [] s s []
  | cons {base : ℕ} {b : RecvBuff} {bs : List RecvBuff} {s s' s'' : TLVState}
      {ev ev' : List Event} :
      Assembles al fd b s s' ev → Feeds (base + b.bytes.length) bs s' s'' ev' →
      Feeds base (b :: bs) s s'' (ev.map (Event.shift base) ++ ev')

/-- The handler calls among the events. -/
def calls (ev : List Event) : List HandlerCall :=
  ev.filterMap fun
    | .call h => some h
    | .memcpy .. | .discard .. => none

end Multicast
