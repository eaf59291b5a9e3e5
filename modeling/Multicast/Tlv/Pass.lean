import Mathlib.Logic.Function.Iterate
import Multicast.Tlv.Assemble

/-!
# What one pass does

A receiver at the label is in one of three situations: between two messages,
inside a payload, or inside a header that a buffer cut. Each is a predicate that
reads the words of the state as natural numbers. For each there is one lemma for
every way a pass can go; nothing later unfolds the pass.

## Main definitions

* `Multicast.Idle` — between messages, with the cursor at an offset
* `Multicast.Filling` — a header is complete and part of its payload is missing
* `Multicast.Pending` — a payload goes on in the next buffer
* `Multicast.SplitHeader` — the next buffer begins inside a header
* `Multicast.payloadEntry` — the state in which a pass comes to the payload

## Main results

* `fill_of_lt`, `fill_of_le` — the payload goes on, or ends, in this buffer
* `fill_of_known`, `fill_of_unknown` — what comes behind a payload that ends
* `passOn_idle_end`, `passOn_idle_short`, `passOn_idle` — a pass between messages
* `passOn_pending` — a pass inside a payload
* `passOn_split_short`, `passOn_split_few`, `passOn_split_many` — a pass inside a
  header
-/

set_option autoImplicit false

namespace Multicast

open HeapBlock GotoLoop

/-- Between two messages, with the cursor at offset `r`. -/
structure Idle (s : TLVState) (r : ℕ) : Prop where
  r_eq : s.r.toNat = r
  c_eq : s.c = 0
  rem_eq : s.remainingBytes = 0
  header_complete : s.tlvHeaderIsComplete = true
  complete : s.tlvIsComplete = true

/-- Between two messages, after a message of a known type or at the beginning:
nothing of an earlier message is left. -/
structure Clean (s : TLVState) (r : ℕ) : Prop extends Idle s r where
  data_eq : s.tlvData = .null
  length_eq : s.currentTlvHeader.length = 0

/-- A header was read; `got` bytes of its payload were copied and the next one is
at offset `r`. -/
structure Filling (s : TLVState) (type : UInt8) (len : Word) (got r : ℕ) : Prop where
  header_eq : s.currentTlvHeader = ⟨type, len⟩
  r_eq : s.r.toNat = r
  c_eq : s.c.toNat = got
  rem_add : s.remainingBytes.toNat + got = len.toNat
  header_complete : s.tlvHeaderIsComplete = true
  start_of_not_complete : s.tlvIsComplete = false → r = 0
  fresh_of_complete : s.tlvIsComplete = true → got = 0

/-- A payload of which `got` bytes arrived goes on in the next buffer. -/
structure Pending (s : TLVState) (type : UInt8) (len : Word) (got : ℕ) : Prop
    extends Filling s type len got 0 where
  not_complete : s.tlvIsComplete = false
  got_lt : got < len.toNat

/-- The next buffer begins inside a header of which the type and `k` bytes of the
length arrived. Of the length in memory only the low byte was touched; `high` is
the rest of it. -/
structure SplitHeader (s : TLVState) (type : UInt8) (k high : ℕ) : Prop where
  type_eq : s.currentTlvHeader.type = type
  high_eq : s.currentTlvHeader.length.toNat / 256 = high
  r_eq : s.r = 0
  c_eq : s.c = 0
  rem_eq : s.remainingBytes = 0
  header_not_complete : s.tlvHeaderIsComplete = false
  complete : s.tlvIsComplete = true
  k_eq : s.lenBytesProcessed = k
  k_lt : k < 4

/-- A call that returns sets the cursor back. -/
theorem Idle.rewind {s : TLVState} {r : ℕ} (h : Idle s r) : Idle { s with r := 0 } 0 :=
  ⟨rfl, h.c_eq, h.rem_eq, h.header_complete, h.complete⟩

theorem Clean.rewind {s : TLVState} {r : ℕ} (h : Clean s r) : Clean { s with r := 0 } 0 :=
  ⟨h.toIdle.rewind, h.data_eq, h.length_eq⟩

theorem clean_initTlvState : Clean initTlvState 0 := ⟨⟨rfl, rfl, rfl, rfl, rfl⟩, rfl, rfl⟩

variable (al : Allocator) (fd : ℤ) {b : RecvBuff} {s s' : TLVState} {type : UInt8} {len : Word}
variable {got r k high : ℕ}

theorem toNat_unread (h : s.r.toNat ≤ b.bytes.length) :
    (s.unread b.len).toNat = b.bytes.length - s.r.toNat := by
  have hb := b.length_lt
  rw [TLVState.unread, BitVec.toNat_sub, RecvBuff.toNat_len]
  omega

theorem unread_eq_zero_iff (h : s.r.toNat ≤ b.bytes.length) :
    s.unread b.len = 0 ↔ s.r.toNat = b.bytes.length := by
  rw [← BitVec.toNat_inj, toNat_unread h]
  change b.bytes.length - s.r.toNat = 0 ↔ _
  omega

theorem toNat_add_of_lt {w : Word} {n : ℕ} (h : w.toNat + n < 2 ^ 32) :
    (w + BitVec.ofNat 32 n).toNat = w.toNat + n := by
  rw [BitVec.toNat_add, BitVec.toNat_ofNat]
  omega

/-! ### The payload -/

/-- The payload goes on in a later buffer: everything that is left of this one is
copied behind the bytes copied before. -/
theorem fill_of_lt (h : Filling s type len got r) (hr : r ≤ b.bytes.length)
    (hlt : b.bytes.length - r + got < len.toNat) :
    ∃ s', fill al b.bytes b.len fd s = (.ret (tlvContinue, s'),
        [.memcpy r got (s.tlvData.realloc al (b.bytes.length - r)).room (b.bytes.drop r)]) ∧
      Pending s' type len (got + (b.bytes.length - r)) ∧
      s'.tlvData = (s.tlvData.realloc al (b.bytes.length - r)).memcpy got (b.bytes.drop r) := by
  have hn : (s.unread b.len).toNat = b.bytes.length - r := by
    rw [toNat_unread (by rw [h.r_eq]; exact hr), h.r_eq]
  have hlen := len.isLt
  have hrem := h.rem_add
  -- the bytes that are left are too few for the payload, and all of them are copied
  have hcond : s.unread b.len < s.remainingBytes := by
    rw [BitVec.lt_def, hn]
    omega
  have hbytes : bytesAt b.bytes s.r (s.unread b.len) = b.bytes.drop r := by
    rw [bytesAt, h.r_eq, hn]
    exact List.take_of_length_le (by simp)
  refine ⟨(fillPartial al b.bytes b.len s).1.2, ?_, ?_, ?_⟩
  · rw [fill, if_pos hcond]
    simp only [fillPartial, hn, hbytes, h.r_eq, h.c_eq]
  · refine ⟨⟨h.header_eq, by simp [fillPartial], ?_, ?_, h.header_complete,
      fun _ => rfl, fun hc => ?_⟩, rfl, by omega⟩
    · simp only [fillPartial, BitVec.toNat_add, h.c_eq, hn]
      omega
    · simp only [fillPartial, BitVec.toNat_sub, hn]
      omega
    · simp [fillPartial] at hc
  · simp only [fillPartial, hn, hbytes, h.c_eq]

/-- The payload ends in this buffer: the missing bytes are copied and the message
is dispatched. -/
theorem fill_of_le (h : Filling s type len got r) (hr : r ≤ b.bytes.length)
    (hle : len.toNat ≤ b.bytes.length - r + got) :
    ∃ filled, fill al b.bytes b.len fd s = (.goto (dispatch fd filled).1,
        [.memcpy r got (s.tlvData.realloc al (len.toNat - got)).room
          ((b.bytes.drop r).take (len.toNat - got)), (dispatch fd filled).2]) ∧
      Idle filled (r + (len.toNat - got)) ∧ filled.currentTlvHeader = ⟨type, len⟩ ∧
      filled.tlvData = (s.tlvData.realloc al (len.toNat - got)).memcpy got
        ((b.bytes.drop r).take (len.toNat - got)) := by
  have hb := b.length_lt
  have hn : (s.unread b.len).toNat = b.bytes.length - r := by
    rw [toNat_unread (by rw [h.r_eq]; exact hr), h.r_eq]
  have hrem := h.rem_add
  have hcond : ¬ s.unread b.len < s.remainingBytes := by
    rw [BitVec.lt_def, hn]
    omega
  have hremEq : s.remainingBytes.toNat = len.toNat - got := by omega
  -- a payload under way is read from the start of the buffer, where the cursor is anyway
  have hsrc : (if s.tlvIsComplete then s.r else 0 : Word).toNat = r := by
    split
    next => exact h.r_eq
    next hc =>
      rw [h.start_of_not_complete (by simpa using hc)]
      rfl
  have hdst : (if s.tlvIsComplete then 0 else s.c : Word).toNat = got := by
    split
    · -- nothing was copied yet
      rw [h.fresh_of_complete ‹_›]
      rfl
    · exact h.c_eq
  have hbytes : bytesAt b.bytes (if s.tlvIsComplete then s.r else 0) s.remainingBytes =
      (b.bytes.drop r).take (len.toNat - got) := by
    rw [bytesAt, hsrc, hremEq]
  refine ⟨(fillComplete al b.bytes s).1, ?_, ?_, h.header_eq, ?_⟩
  · rw [fill, if_neg hcond]
    simp only [fillComplete, hbytes, hsrc, hdst, hremEq]
  · refine ⟨?_, rfl, rfl, h.header_complete, rfl⟩
    simp only [fillComplete, BitVec.toNat_add, h.r_eq, hremEq]
    omega
  · simp only [fillComplete, hbytes, hdst, hremEq]

/-! ### The dispatch -/

theorem dispatch_of_known {t : TlvType} (ht : TlvType.ofCode s.currentTlvHeader.type = some t) :
    dispatch fd s = ({ s with tlvData := .null, currentTlvHeader := ⟨0xFF, 0⟩ },
      .call (t.handler fd s.tlvData s.currentTlvHeader.length)) := by
  rw [dispatch, ht]

theorem dispatch_of_unknown (ht : TlvType.ofCode s.currentTlvHeader.type = none) :
    dispatch fd s = ({ s with r := 0, tlvData := s.tlvData.free },
      .discard s.currentTlvHeader.type s.r.toNat) := by
  rw [dispatch, ht]

/-- A handler leaves the receiver behind the message, with nothing left of it. -/
theorem Idle.dispatch_known {t : TlvType} (h : Idle s r)
    (ht : TlvType.ofCode s.currentTlvHeader.type = some t) : Clean (dispatch fd s).1 r := by
  rw [dispatch_of_known fd ht]
  exact ⟨⟨h.r_eq, h.c_eq, h.rem_eq, h.header_complete, h.complete⟩, rfl, rfl⟩

/-- An unknown type leaves the receiver at the start of the buffer. -/
theorem Idle.dispatch_unknown (h : Idle s r)
    (ht : TlvType.ofCode s.currentTlvHeader.type = none) : Idle (dispatch fd s).1 0 := by
  rw [dispatch_of_unknown fd ht]
  exact ⟨rfl, h.c_eq, h.rem_eq, h.header_complete, h.complete⟩

/-- A payload of a known type ends in this buffer: its handler is called, and nothing of
the message is left. -/
theorem fill_of_known {t : TlvType} (ht : TlvType.ofCode type = some t)
    (h : Filling s type len got r) (hr : r ≤ b.bytes.length)
    (hle : len.toNat ≤ b.bytes.length - r + got) :
    ∃ s', fill al b.bytes b.len fd s = (.goto s',
        [.memcpy r got (s.tlvData.realloc al (len.toNat - got)).room
          ((b.bytes.drop r).take (len.toNat - got)),
        .call (t.handler fd ((s.tlvData.realloc al (len.toNat - got)).memcpy got
          ((b.bytes.drop r).take (len.toNat - got))) len)]) ∧
      Clean s' (r + (len.toNat - got)) := by
  obtain ⟨filled, hfill, hidle, hheader, hdata⟩ := fill_of_le al fd h hr hle
  have hknown : TlvType.ofCode filled.currentTlvHeader.type = some t := by rwa [hheader]
  have hclean := hidle.dispatch_known fd hknown
  rw [dispatch_of_known fd hknown, hheader, hdata] at hfill
  rw [dispatch_of_known fd hknown] at hclean
  exact ⟨_, hfill, hclean⟩

/-- A payload of an unknown type ends in this buffer: its block is released, and the
receiver goes back to the start of the buffer. -/
theorem fill_of_unknown (ht : TlvType.ofCode type = none)
    (h : Filling s type len got r) (hr : r ≤ b.bytes.length)
    (hle : len.toNat ≤ b.bytes.length - r + got) :
    ∃ s', fill al b.bytes b.len fd s = (.goto s',
        [.memcpy r got (s.tlvData.realloc al (len.toNat - got)).room
          ((b.bytes.drop r).take (len.toNat - got)),
        .discard type (r + (len.toNat - got))]) ∧
      Idle s' 0 ∧ s'.currentTlvHeader = ⟨type, len⟩ ∧
      s'.tlvData = ((s.tlvData.realloc al (len.toNat - got)).memcpy got
        ((b.bytes.drop r).take (len.toNat - got))).free := by
  obtain ⟨filled, hfill, hidle, hheader, hdata⟩ := fill_of_le al fd h hr hle
  have hunknown : TlvType.ofCode filled.currentTlvHeader.type = none := by rwa [hheader]
  have hback := hidle.dispatch_unknown fd hunknown
  rw [dispatch_of_unknown fd hunknown, hidle.r_eq, hheader] at hfill
  rw [dispatch_of_unknown fd hunknown] at hback
  exact ⟨_, hfill, hheader ▸ hback, rfl, by rw [hdata]⟩

/-- The payload goes on in a later buffer, or the message is handed to its handler,
or it is of an unknown type. -/
theorem fill_cases (h : Filling s type len got r) (hr : r ≤ b.bytes.length) :
    (b.bytes.length - r + got < len.toNat ∧ ∃ s' room bytes,
      fill al b.bytes b.len fd s =
        (.ret (tlvContinue, s'), [.memcpy r got room bytes]) ∧
      Pending s' type len (got + (b.bytes.length - r))) ∨
    (len.toNat ≤ b.bytes.length - r + got ∧ ∃ t s' room bytes handlerCall,
      TlvType.ofCode type = some t ∧
      fill al b.bytes b.len fd s =
        (.goto s', [.memcpy r got room bytes, .call handlerCall]) ∧
      Clean s' (r + (len.toNat - got))) ∨
    (len.toNat ≤ b.bytes.length - r + got ∧ TlvType.ofCode type = none ∧ ∃ s' room bytes,
      fill al b.bytes b.len fd s =
        (.goto s', [.memcpy r got room bytes, .discard type (r + (len.toNat - got))]) ∧
      Idle s' 0) := by
  rcases Nat.lt_or_ge (b.bytes.length - r + got) len.toNat with hlt | hle
  · obtain ⟨s', hfill, hpending, -⟩ := fill_of_lt al fd h hr hlt
    exact .inl ⟨hlt, s', _, _, hfill, hpending⟩
  · cases ht : TlvType.ofCode type with
    | some t =>
      obtain ⟨s', hfill, hclean⟩ := fill_of_known al fd ht h hr hle
      exact .inr (.inl ⟨hle, t, s', _, _, _, rfl, hfill, hclean⟩)
    | none =>
      obtain ⟨s', hfill, hback, -, -⟩ := fill_of_unknown al fd ht h hr hle
      exact .inr (.inr ⟨hle, rfl, s', _, _, hfill, hback⟩)

/-! ### The blocks before the payload -/

/-- The state in which a pass comes to the payload; none if it returns before. -/
def payloadEntry (recvBuff : List UInt8) (Bufflen : Word) (tlvS : TLVState) : Option TLVState :=
  if tlvS.unread Bufflen = 0 ∧ tlvS.tlvIsComplete then none
  else
    match continueSplitHeader recvBuff Bufflen (beginSplitHeader recvBuff Bufflen tlvS) with
    | .ret _ => none
    | .goto tlvS => some (readHeader recvBuff Bufflen tlvS)

/-- A pass that comes to the payload goes on with it. -/
theorem passOn_of_payloadEntry (h : payloadEntry b.bytes b.len s = some s') :
    passOn al fd b s = fill al b.bytes b.len fd s' := by
  rw [payloadEntry] at h
  rw [passOn, assemblePass]
  by_cases hzero : s.unread b.len = 0 ∧ s.tlvIsComplete
  · rw [if_pos hzero] at h
    cases h
  · rw [if_neg hzero] at h ⊢
    cases hcontinue : continueSplitHeader b.bytes b.len (beginSplitHeader b.bytes b.len s) with
    | ret out => simp [hcontinue] at h
    | goto s₁ =>
      rw [hcontinue] at h
      rw [← Option.some.inj h]

/-- The blocks before the payload, when the split header does not end the pass. -/
theorem payloadEntry_of_goto {s₁ : TLVState} (hzero : ¬ (s.unread b.len = 0 ∧ s.tlvIsComplete))
    (hbegin : beginSplitHeader b.bytes b.len s = s')
    (hcontinue : continueSplitHeader b.bytes b.len s' = .goto s₁) :
    payloadEntry b.bytes b.len s = some (readHeader b.bytes b.len s₁) := by
  rw [payloadEntry, if_neg hzero, hbegin, hcontinue]

/-! ### A pass between two messages -/

/-- The pass at the end of the buffer. -/
theorem passOn_idle_end (h : Idle s b.bytes.length) :
    passOn al fd b s = (.ret (noTlvData, { s with r := 0 }), []) := by
  have hzero := (unread_eq_zero_iff (Nat.le_of_eq h.r_eq)).mpr h.r_eq
  rw [passOn, assemblePass, if_pos ⟨hzero, h.complete⟩]

/-- The header of a message that begins at offset `r` of a buffer. -/
def RecvBuff.headerAt (b : RecvBuff) (r : ℕ) : TlvHeader := headerOf (b.bytes.drop r)

/-- The block that reads a header, entered with five bytes left. -/
theorem filling_readHeader (hr : s.r.toNat = r) (hc : s.c = 0)
    (hheader : s.tlvHeaderIsComplete = true) (hcomplete : s.tlvIsComplete = true)
    (hfive : r + 5 ≤ b.bytes.length) :
    Filling (readHeader b.bytes b.len s) (b.headerAt r).type (b.headerAt r).length 0 (r + 5) ∧
      (readHeader b.bytes b.len s).tlvIsComplete = true ∧
      (readHeader b.bytes b.len s).tlvData = .null := by
  have hb := b.length_lt
  have hread : 5 ≤ s.unread b.len ∧ s.tlvIsComplete = true := by
    refine ⟨?_, hcomplete⟩
    rw [BitVec.le_def, toNat_unread (by omega)]
    change 5 ≤ _
    omega
  have hone : (s.r + 1).toNat = r + 1 := by
    rw [← hr]
    exact toNat_add_of_lt (n := 1) (by omega)
  have hheaderAt : (⟨byteAt b.bytes s.r, ntohl (bytesAt b.bytes (s.r + 1) 4)⟩ : TlvHeader) =
      b.headerAt r := by
    rw [RecvBuff.headerAt, headerOf, byteAt, bytesAt, hone, hr, List.drop_drop]
    simp only [List.getD_eq_getElem?_getD, List.getElem?_drop, Nat.add_zero]
    rfl
  rw [readHeader, if_pos hread, hheaderAt]
  -- a new message begins with no block and a count of zero
  refine ⟨⟨rfl, ?_, by simp [hc], rfl, hheader, ?_, fun _ => rfl⟩, hcomplete, rfl⟩
  · rw [← hr]
    exact toNat_add_of_lt (n := 5) (by omega)
  · intro hnot
    simp [hcomplete] at hnot

/-- A pass that finds a whole header reads it. -/
theorem payloadEntry_idle (h : Idle s r) (hr : r + 5 ≤ b.bytes.length) :
    ∃ s₁, payloadEntry b.bytes b.len s = some s₁ ∧
      Filling s₁ (b.headerAt r).type (b.headerAt r).length 0 (r + 5) ∧
      s₁.tlvIsComplete = true ∧ s₁.tlvData = .null := by
  have hb := b.length_lt
  have hrr := h.r_eq
  have hzero : ¬ (s.unread b.len = 0 ∧ s.tlvIsComplete = true) := by
    rw [unread_eq_zero_iff (by omega)]
    omega
  have hfive : ¬ s.unread b.len < 5 := by
    rw [BitVec.lt_def, toNat_unread (by omega)]
    change ¬ _ < 5
    omega
  have hbegin : beginSplitHeader b.bytes b.len s = s := by
    rw [beginSplitHeader, if_neg (fun hc => hfive hc.1)]
  have hcontinue : continueSplitHeader b.bytes b.len s = .goto s := by
    rw [continueSplitHeader, if_pos h.header_complete]
  exact ⟨readHeader b.bytes b.len s, payloadEntry_of_goto hzero hbegin hcontinue,
    filling_readHeader hrr h.c_eq h.header_complete h.complete hr⟩

/-- A pass that finds a whole header reads it and goes on with the payload. -/
theorem passOn_idle (h : Idle s r) (hr : r + 5 ≤ b.bytes.length) :
    ∃ s₁, passOn al fd b s = fill al b.bytes b.len fd s₁ ∧
      Filling s₁ (b.headerAt r).type (b.headerAt r).length 0 (r + 5) ∧
      s₁.tlvIsComplete = true ∧ s₁.tlvData = .null := by
  obtain ⟨s₁, hentry, hfilling⟩ := payloadEntry_idle h hr
  exact ⟨s₁, passOn_of_payloadEntry al fd hentry, hfilling⟩

/-! ### A pass inside a payload -/

theorem Pending.remainingBytes_ne_zero (h : Pending s type len got) : s.remainingBytes ≠ 0 := by
  intro h0
  have hadd := h.rem_add
  have hlt := h.got_lt
  rw [h0] at hadd
  change 0 + got = len.toNat at hadd
  omega

theorem payloadEntry_pending (h : Pending s type len got) :
    payloadEntry b.bytes b.len s = some s := by
  have hbegin : beginSplitHeader b.bytes b.len s = s := by
    rw [beginSplitHeader, if_neg (fun hc => h.remainingBytes_ne_zero hc.2.2)]
  have hread : readHeader b.bytes b.len s = s := by
    rw [readHeader, if_neg (by simp [h.not_complete])]
  have hcontinue : continueSplitHeader b.bytes b.len s = .goto s := by
    rw [continueSplitHeader, if_pos h.header_complete]
  rw [payloadEntry_of_goto (by simp [h.not_complete]) hbegin hcontinue, hread]

theorem passOn_pending (h : Pending s type len got) :
    passOn al fd b s = fill al b.bytes b.len fd s :=
  passOn_of_payloadEntry al fd (payloadEntry_pending h)

/-! ### A pass inside a header -/

/-- The state after `n + 1` rounds of the loop over the length bytes. -/
theorem iterate_copyLengthByte (recvBuff : List UInt8) (s : TLVState) (n : ℕ) :
    (copyLengthByte recvBuff)^[n + 1] s =
      { s with
        currentTlvHeader :=
          { s.currentTlvHeader with
            length := setLowByte s.currentTlvHeader.length
              (byteAt recvBuff (s.r + BitVec.ofNat 32 n)) }
        r := s.r + BitVec.ofNat 32 (n + 1)
        remainingHeader := s.remainingHeader - BitVec.ofNat 32 (n + 1)
        lenBytesProcessed := s.lenBytesProcessed + (n + 1)
        lenIsNotComplete := decide (s.lenBytesProcessed + (n + 1) < 4) } := by
  induction n with
  | zero => simp [copyLengthByte]
  | succ n ih =>
    have hadd (w : Word) : w + BitVec.ofNat 32 (n + 1) + 1 = w + BitVec.ofNat 32 (n + 1 + 1) := by
      rw [BitVec.add_assoc]
      congr 1
      exact (BitVec.ofNat_add (n + 1) 1).symm
    have hsub (w : Word) :
        w - BitVec.ofNat 32 (n + 1) - 1 = w - BitVec.ofNat 32 (n + 1 + 1) := by
      have h1 : (1 : Word).toNat = 1 := rfl
      apply BitVec.eq_of_toNat_eq
      simp only [BitVec.toNat_sub, BitVec.toNat_ofNat, h1]
      omega
    -- every byte overwrites the low byte of the length that the one before it wrote
    rw [Function.iterate_succ_apply', ih]
    simp only [copyLengthByte, setLowByte_setLowByte, hadd, hsub]
    rfl

/-- The loop over the length bytes stops when four bytes were processed or the
buffer is used up. -/
theorem copyLengthBytes_eq_iterate (recvBuff : List UInt8) (missing : ℕ) (s : TLVState) :
    copyLengthBytes recvBuff missing s =
      (copyLengthByte recvBuff)^[min missing s.remainingHeader.toNat] s := by
  induction missing generalizing s with
  | zero => simp [copyLengthBytes]
  | succ missing ih =>
    rw [copyLengthBytes]
    split
    next h0 => simp [h0]
    next h0 =>
      -- the count of the bytes that are left does not wrap around, as it is not zero
      have hpos : s.remainingHeader.toNat ≠ 0 := fun h => h0 (BitVec.eq_of_toNat_eq h)
      have hlt := s.remainingHeader.isLt
      have hpred : (s.remainingHeader - 1).toNat = s.remainingHeader.toNat - 1 := by
        rw [BitVec.toNat_sub]
        change (2 ^ 32 - 1 + s.remainingHeader.toNat) % 2 ^ 32 = _
        omega
      rw [ih, ← Function.iterate_succ_apply]
      change (copyLengthByte recvBuff)^[min missing (s.remainingHeader - 1).toNat + 1] s = _
      rw [hpred]
      congr 1
      omega

/-- The block for a split header, entered with `k` length bytes read and fewer
than the missing ones left in the buffer: all of them are read. -/
theorem continueSplitHeader_short (hheader : s.tlvHeaderIsComplete = false)
    (hk : s.lenBytesProcessed = k) (hr : s.r.toNat = r) (hlt : r < b.bytes.length)
    (hshort : b.bytes.length - r + k < 4) :
    continueSplitHeader b.bytes b.len s = .ret (tlvContinue,
      { s with
        currentTlvHeader :=
          { s.currentTlvHeader with
            length := setLowByte s.currentTlvHeader.length (b.bytes.getD (b.bytes.length - 1) 0) }
        r := 0
        remainingHeader := 0
        lenBytesProcessed := k + (b.bytes.length - r)
        lenIsNotComplete := true }) := by
  have hb := b.length_lt
  have hn := toNat_unread (b := b) (s := s) (by omega)
  subst hk
  have hne : ¬ s.unread b.len = 0 := by
    rw [unread_eq_zero_iff (by omega)]
    omega
  obtain ⟨n, hn1⟩ : ∃ n, b.bytes.length - r = n + 1 := ⟨b.bytes.length - r - 1, by omega⟩
  have hmin : min (4 - s.lenBytesProcessed) (s.unread b.len).toNat = n + 1 := by omega
  have hlast : (s.r + BitVec.ofNat 32 n).toNat = b.bytes.length - 1 := by
    rw [toNat_add_of_lt (by omega)]
    omega
  have hleft : s.unread b.len - BitVec.ofNat 32 (n + 1) = 0 := by
    apply BitVec.eq_of_toNat_eq
    rw [BitVec.toNat_sub, BitVec.toNat_ofNat, hn]
    change _ = 0
    omega
  -- the loop ended at the end of the buffer, before the fourth byte
  have hlen : s.lenBytesProcessed + (n + 1) < 4 := by omega
  have hlen' : s.lenBytesProcessed + (n + 1) ≠ 4 := by omega
  rw [continueSplitHeader, if_neg (by simp [hheader]), if_neg hne]
  simp only [copyLengthBytes_eq_iterate, hmin, iterate_copyLengthByte, endSplitHeader, hlen',
    hlen, if_false, decide_true, if_true, byteAt, hlast, hleft, hn1]

/-- The block for a split header, entered with the missing length bytes in the
buffer: the last of them becomes the low byte of the length. -/
theorem continueSplitHeader_full (hheader : s.tlvHeaderIsComplete = false)
    (hk : s.lenBytesProcessed = k) (hk4 : k < 4) (hr : s.r.toNat = r)
    (hfull : r + (4 - k) ≤ b.bytes.length) :
    continueSplitHeader b.bytes b.len s = .goto
      { s with
        currentTlvHeader :=
          { s.currentTlvHeader with
            length := setLowByte s.currentTlvHeader.length (b.bytes.getD (r + (3 - k)) 0) }
        remainingHeader := BitVec.ofNat 32 (b.bytes.length - (r + (4 - k)))
        remainingBytes := setLowByte s.currentTlvHeader.length (b.bytes.getD (r + (3 - k)) 0)
        r := BitVec.ofNat 32 (r + (4 - k))
        tlvHeaderIsComplete := true
        lenBytesProcessed := 4
        lenIsNotComplete := false } := by
  have hb := b.length_lt
  have hn := toNat_unread (b := b) (s := s) (by omega)
  subst hk
  have hne : ¬ s.unread b.len = 0 := by
    rw [unread_eq_zero_iff (by omega)]
    omega
  obtain ⟨n, hn1⟩ : ∃ n, 4 - s.lenBytesProcessed = n + 1 :=
    ⟨3 - s.lenBytesProcessed, by omega⟩
  have hmin : min (n + 1) (s.unread b.len).toNat = n + 1 := by omega
  have hlast : (s.r + BitVec.ofNat 32 n).toNat = r + (3 - s.lenBytesProcessed) := by
    rw [toNat_add_of_lt (by omega)]
    omega
  have hleft : s.unread b.len - BitVec.ofNat 32 (n + 1) =
      BitVec.ofNat 32 (b.bytes.length - (r + (n + 1))) := by
    apply BitVec.eq_of_toNat_eq
    rw [BitVec.toNat_sub, BitVec.toNat_ofNat, BitVec.toNat_ofNat, hn]
    omega
  have hcursor : s.r + BitVec.ofNat 32 (n + 1) = BitVec.ofNat 32 (r + (n + 1)) := by
    apply BitVec.eq_of_toNat_eq
    rw [toNat_add_of_lt (by omega), BitVec.toNat_ofNat]
    omega
  -- the loop ended at the fourth byte
  have hlen : s.lenBytesProcessed + (n + 1) = 4 := by omega
  rw [continueSplitHeader, if_neg (by simp [hheader]), if_neg hne]
  simp only [copyLengthBytes_eq_iterate, hmin, iterate_copyLengthByte, endSplitHeader, hlen,
    if_true, byteAt, hlast, hleft, hcursor, hn1, Bool.false_eq_true, if_false]

/-- The pass that begins a header near the end of the buffer: the type and the
length bytes that are there are taken. -/
theorem passOn_idle_short (h : Idle s r) (hr : r < b.bytes.length)
    (hshort : b.bytes.length < r + 5) :
    ∃ s', passOn al fd b s = (.ret (tlvContinue, s'), []) ∧
      SplitHeader s' (b.bytes.getD r 0) (b.bytes.length - r - 1)
        (s.currentTlvHeader.length.toNat / 256) ∧ s'.tlvData = s.tlvData := by
  have hb := b.length_lt
  have hrr := h.r_eq
  have hn := toNat_unread (b := b) (s := s) (by omega)
  have hzero : ¬ (s.unread b.len = 0 ∧ s.tlvIsComplete = true) := by
    rw [unread_eq_zero_iff (by omega)]
    omega
  have hfive : s.unread b.len < 5 := by
    rw [BitVec.lt_def, hn]
    change _ < 5
    omega
  have hone : (s.r + 1).toNat = r + 1 := by
    rw [← hrr]
    exact toNat_add_of_lt (n := 1) (by omega)
  have hbegin : beginSplitHeader b.bytes b.len s =
      { s with
        currentTlvHeader := { s.currentTlvHeader with type := b.bytes.getD r 0 }
        r := s.r + 1
        tlvHeaderIsComplete := false
        lenBytesProcessed := 0 } := by
    rw [beginSplitHeader, if_pos ⟨hfive, h.header_complete, h.rem_eq⟩, byteAt, hrr]
  rw [passOn, assemblePass, if_neg hzero, hbegin]
  rcases Nat.lt_or_ge (r + 1) b.bytes.length with hmore | hmore
  · -- some length bytes are there
    rw [continueSplitHeader_short (r := r + 1) (k := 0) rfl rfl hone hmore (by omega)]
    refine ⟨_, rfl, ⟨rfl, toNat_setLowByte_div _ _, rfl, h.c_eq, h.rem_eq, rfl, h.complete, ?_,
      by omega⟩, rfl⟩
    change 0 + (b.bytes.length - (r + 1)) = _
    omega
  · -- the type was the last byte
    rw [continueSplitHeader, if_neg (by simp),
      if_pos ((unread_eq_zero_iff (by change (s.r + 1).toNat ≤ _; omega)).mpr
        (by change (s.r + 1).toNat = _; omega))]
    refine ⟨_, rfl, ⟨rfl, rfl, rfl, h.c_eq, h.rem_eq, rfl, h.complete, ?_, by omega⟩, rfl⟩
    change 0 = _
    omega

/-- A pass inside a header begins with the block for split headers. -/
theorem SplitHeader.begins (h : SplitHeader s type k high) (hb : 0 < b.bytes.length) :
    ¬ (s.unread b.len = 0 ∧ s.tlvIsComplete) ∧ beginSplitHeader b.bytes b.len s = s := by
  have hr : s.r.toNat = 0 := by rw [h.r_eq]; rfl
  constructor
  · rw [unread_eq_zero_iff (by omega)]
    omega
  · rw [beginSplitHeader, if_neg (by simp [h.header_not_complete])]

/-- An empty buffer changes nothing inside a header. -/
theorem passOn_split_empty (h : SplitHeader s type k high) (hb : b.bytes.length = 0) :
    passOn al fd b s = (.ret (noTlvData, { s with r := 0 }), []) := by
  have hr : s.r.toNat = 0 := by rw [h.r_eq]; rfl
  rw [passOn, assemblePass,
    if_pos ⟨(unread_eq_zero_iff (by omega)).mpr (by omega), h.complete⟩]

/-- A buffer that ends inside the header once more. -/
theorem passOn_split_short (h : SplitHeader s type k high) (hb : 0 < b.bytes.length)
    (hshort : k + b.bytes.length < 4) :
    ∃ s', passOn al fd b s = (.ret (tlvContinue, s'), []) ∧
      SplitHeader s' type (k + b.bytes.length) high ∧ s'.tlvData = s.tlvData := by
  have hr : s.r.toNat = 0 := by rw [h.r_eq]; rfl
  have hcontinue := continueSplitHeader_short h.header_not_complete h.k_eq hr hb (by omega)
  obtain ⟨hzero, hbegin⟩ := h.begins hb
  rw [passOn, assemblePass, if_neg hzero, hbegin, hcontinue]
  refine ⟨_, rfl, ⟨h.type_eq, ?_, rfl, h.c_eq, h.rem_eq, h.header_not_complete, h.complete, rfl,
    hshort⟩, rfl⟩
  rw [toNat_setLowByte_div, h.high_eq]

/-- The length that a split header ends up with: `high` and, as its low byte, the
last byte of the length field. -/
def splitLength (high : ℕ) (last : UInt8) : Word := BitVec.ofNat 32 (high * 256 + last.toNat)

/-- A buffer that ends the header and holds fewer than five bytes behind it: the
payload begins behind the header. -/
theorem payloadEntry_split_few (h : SplitHeader s type k high) (hfull : 4 - k ≤ b.bytes.length)
    (hfew : b.bytes.length < 4 - k + 5) :
    ∃ s₁, payloadEntry b.bytes b.len s = some s₁ ∧
      Filling s₁ type (splitLength high (b.bytes.getD (3 - k) 0)) 0 (4 - k) ∧
      s₁.tlvIsComplete = true ∧ s₁.tlvData = s.tlvData := by
  have hb := b.length_lt
  have hk := h.k_lt
  have hr : s.r.toNat = 0 := by rw [h.r_eq]; rfl
  have hlength : setLowByte s.currentTlvHeader.length (b.bytes.getD (3 - k) 0) =
      splitLength high (b.bytes.getD (3 - k) 0) := by
    rw [setLowByte, h.high_eq, splitLength]
  have hcontinue := continueSplitHeader_full h.header_not_complete h.k_eq hk hr
    (b := b) (by omega)
  simp only [Nat.zero_add, hlength] at hcontinue
  obtain ⟨hzero, hbegin⟩ := h.begins (b := b) (by omega)
  rw [payloadEntry_of_goto hzero hbegin hcontinue, readHeader, if_neg]
  · refine ⟨_, rfl, ⟨?_, ?_, ?_, rfl, rfl, ?_, fun _ => rfl⟩, h.complete, rfl⟩
    · rw [← h.type_eq]
    · exact Nat.mod_eq_of_lt (by omega)
    · simp [h.c_eq]
    · simp [h.complete]
  · -- the block for whole headers is not entered
    rintro ⟨hfive, -⟩
    rw [BitVec.le_def, toNat_unread] at hfive
    · simp only [BitVec.toNat_ofNat] at hfive
      change 5 ≤ _ at hfive
      omega
    · simp only [BitVec.toNat_ofNat]
      omega

theorem passOn_split_few (h : SplitHeader s type k high) (hfull : 4 - k ≤ b.bytes.length)
    (hfew : b.bytes.length < 4 - k + 5) :
    ∃ s₁, passOn al fd b s = fill al b.bytes b.len fd s₁ ∧
      Filling s₁ type (splitLength high (b.bytes.getD (3 - k) 0)) 0 (4 - k) ∧
      s₁.tlvIsComplete = true ∧ s₁.tlvData = s.tlvData := by
  obtain ⟨s₁, hentry, hfilling⟩ := payloadEntry_split_few h hfull hfew
  exact ⟨s₁, passOn_of_payloadEntry al fd hentry, hfilling⟩

/-- A buffer that ends the header and holds five more bytes: these are read as a
header, and the one that just ended is dropped. -/
theorem payloadEntry_split_many (h : SplitHeader s type k high)
    (hmany : 4 - k + 5 ≤ b.bytes.length) :
    ∃ s₁, payloadEntry b.bytes b.len s = some s₁ ∧
      Filling s₁ (b.headerAt (4 - k)).type (b.headerAt (4 - k)).length 0 (4 - k + 5) ∧
      s₁.tlvIsComplete = true ∧ s₁.tlvData = .null := by
  have hb := b.length_lt
  have hk := h.k_lt
  have hr : s.r.toNat = 0 := by rw [h.r_eq]; rfl
  have hcontinue := continueSplitHeader_full h.header_not_complete h.k_eq hk hr
    (b := b) (by omega)
  simp only [Nat.zero_add] at hcontinue
  -- the block that reads a header finds five bytes, and no sign of the one that just ended
  obtain ⟨hzero, hbegin⟩ := h.begins (b := b) (by omega)
  refine ⟨_, payloadEntry_of_goto hzero hbegin hcontinue,
    filling_readHeader ?_ h.c_eq rfl h.complete hmany⟩
  exact Nat.mod_eq_of_lt (by omega)

theorem passOn_split_many (h : SplitHeader s type k high)
    (hmany : 4 - k + 5 ≤ b.bytes.length) :
    ∃ s₁, passOn al fd b s = fill al b.bytes b.len fd s₁ ∧
      Filling s₁ (b.headerAt (4 - k)).type (b.headerAt (4 - k)).length 0 (4 - k + 5) ∧
      s₁.tlvIsComplete = true ∧ s₁.tlvData = .null := by
  obtain ⟨s₁, hentry, hfilling⟩ := payloadEntry_split_many h hmany
  exact ⟨s₁, passOn_of_payloadEntry al fd hentry, hfilling⟩

end Multicast
