import Mathlib.Algebra.GroupWithZero.Nat
import Multicast.Tlv.Termination

/-!
# What holds whenever the label is reached

The bytes of a buffer come from anybody. Whatever they are, a receiver that reaches the
label has its cursor inside the buffer, and its flags and counters fit each other. It reads
nothing outside the buffer, and when it hands a message to the dispatch, the length in the
header is the number of bytes that were copied for it.

The events tell what a pass copies, and `passReads` which parts of the buffer it reads for
this, with the numbers of bytes that the source asks for.

## Main definitions

* `Multicast.AtLabel` — the label is reached, with the number of bytes copied so far
* `Multicast.LabelInv` — the invariant
* `Multicast.passReads` — the accesses of a pass to the buffer
* `Multicast.AgreeOn` — two buffers are the same as far as they are read
* `Multicast.dispatched` — the state in which a pass comes to the dispatch

## Main results

* `assemblePass_congr` — a pass depends on the bytes that it reads only
* `atLabel_invariant` — the invariant, and what follows from it
* `exists_atLabel_of_arrives` — every state in which a call reaches the label is covered
-/

set_option autoImplicit false

namespace Multicast

open HeapBlock GotoLoop

/-! ### Arrivals -/

/-- The number of bytes that an event copies. -/
def Event.copied : Event → ℕ
  | memcpy _ _ _ bytes => bytes.length
  | call _ | discard _ _ => 0

/-- The number of bytes that events copy. -/
def copiedBytes (ev : List Event) : ℕ := (ev.map Event.copied).sum

/-- The label is reached in state `s`, in a call on `b`, and `got` bytes of the message that
is under way were copied. A pass that jumps is done with its message, and after a pass that
returns the next call is on any buffer. -/
inductive AtLabel (al : Allocator) : RecvBuff → TLVState → ℕ → Prop
  | init {b : RecvBuff} : AtLabel al b initTlvState 0
  | jump {fd : ℤ} {b : RecvBuff} {s s' : TLVState} {got : ℕ} {ev : List Event} :
      AtLabel al b s got → passOn al fd b s = (.goto s', ev) → AtLabel al b s' 0
  | call {fd : ℤ} {b b' : RecvBuff} {s s' : TLVState} {got code : ℕ} {ev : List Event} :
      AtLabel al b s got → passOn al fd b s = (.ret (code, s'), ev) →
      AtLabel al b' s' (got + copiedBytes ev)

/-- The state at the label, in a call on `b`. The cursor is an `int`; the sum of the copied
and the remaining bytes is one of words. -/
structure LabelInv (b : RecvBuff) (s : TLVState) : Prop where
  r_nonneg : 0 ≤ s.r.toInt
  r_le : s.r.toInt ≤ b.bytes.length
  complete : s.tlvIsComplete = true → s.c = 0
  not_complete : s.tlvIsComplete = false → s.tlvHeaderIsComplete = true ∧ s.r = 0 ∧
    s.remainingBytes ≠ 0 ∧ s.c + s.remainingBytes = s.currentTlvHeader.length
  header_not_complete : s.tlvHeaderIsComplete = false → s.tlvIsComplete = true ∧
    s.remainingBytes = 0 ∧ s.lenBytesProcessed < 4

/-! ### Accesses -/

section Reads

variable (recvBuff : List UInt8) (Bufflen : Word)

/-- `beginSplitHeader` reads the type. An access is an offset and a number of bytes. -/
def beginReads (tlvS : TLVState) : List (ℕ × ℕ) :=
  if tlvS.unread Bufflen < 5 ∧ tlvS.tlvHeaderIsComplete ∧ tlvS.remainingBytes = 0 then
    [(tlvS.r.toNat, 1)]
  else []

/-- `copyLengthBytes` reads byte after byte. -/
def lengthReads : ℕ → TLVState → List (ℕ × ℕ)
  | 0, _ => []
  | missing + 1, tlvS =>
    if tlvS.remainingHeader = 0 then []
    else (tlvS.r.toNat, 1) :: lengthReads missing (copyLengthByte recvBuff tlvS)

/-- The accesses of `continueSplitHeader`. -/
def splitReads (tlvS : TLVState) : List (ℕ × ℕ) :=
  if tlvS.tlvHeaderIsComplete then []
  else if tlvS.unread Bufflen = 0 then []
  else
    lengthReads recvBuff (4 - tlvS.lenBytesProcessed)
      { tlvS with remainingHeader := tlvS.unread Bufflen }

/-- `readHeader` reads the five bytes of a header. -/
def headerReads (tlvS : TLVState) : List (ℕ × ℕ) :=
  if 5 ≤ tlvS.unread Bufflen ∧ tlvS.tlvIsComplete then [(tlvS.r.toNat, 5)] else []

/-- The accesses of `fillPartial` and `fillComplete`. -/
def payloadReads (tlvS : TLVState) : List (ℕ × ℕ) :=
  if tlvS.unread Bufflen < tlvS.remainingBytes then
    [(tlvS.r.toNat, (tlvS.unread Bufflen).toNat)]
  else
    [((if tlvS.tlvIsComplete then tlvS.r else 0 : Word).toNat, tlvS.remainingBytes.toNat)]

/-- The accesses of a pass. -/
def passReads (tlvS : TLVState) : List (ℕ × ℕ) :=
  if tlvS.unread Bufflen = 0 ∧ tlvS.tlvIsComplete then []
  else
    let begun := beginSplitHeader recvBuff Bufflen tlvS
    beginReads Bufflen tlvS ++ splitReads recvBuff Bufflen begun ++
      match continueSplitHeader recvBuff Bufflen begun with
      | .ret _ => []
      | .goto tlvS =>
        headerReads Bufflen tlvS ++ payloadReads Bufflen (readHeader recvBuff Bufflen tlvS)

end Reads

/-- All accesses are to bytes of the buffer. -/
def Inside (b : RecvBuff) (reads : List (ℕ × ℕ)) : Prop :=
  ∀ access ∈ reads, access.1 + access.2 ≤ b.bytes.length

/-- Two buffers have the same bytes at the accesses. -/
def AgreeOn (recvBuff recvBuff' : List UInt8) (reads : List (ℕ × ℕ)) : Prop :=
  ∀ access ∈ reads,
    (recvBuff.drop access.1).take access.2 = (recvBuff'.drop access.1).take access.2

/-- The state in which a pass comes to the dispatch; none if it returns before. -/
def dispatched (al : Allocator) (recvBuff : List UInt8) (Bufflen : Word) (tlvS : TLVState) :
    Option TLVState :=
  (payloadEntry recvBuff Bufflen tlvS).bind fun tlvS =>
    if tlvS.unread Bufflen < tlvS.remainingBytes then none
    else some (fillComplete al recvBuff tlvS).1

variable {al : Allocator} {fd : ℤ} {b : RecvBuff} {s s' d : TLVState} {type : UInt8}
variable {len : Word} {got r code : ℕ} {ev : List Event} {reads reads' : List (ℕ × ℕ)}
variable {recvBuff recvBuff' : List UInt8}

/-! ### Nothing outside the buffer is read -/

theorem inside_nil : Inside b [] := fun _ h => absurd h List.not_mem_nil

theorem inside_append_iff : Inside b (reads ++ reads') ↔ Inside b reads ∧ Inside b reads' :=
  List.forall_mem_append

theorem inside_singleton_iff {off n : ℕ} :
    Inside b [(off, n)] ↔ off + n ≤ b.bytes.length := List.forall_mem_singleton

theorem inside_cons_iff {access : ℕ × ℕ} : Inside b (access :: reads) ↔
    access.1 + access.2 ≤ b.bytes.length ∧ Inside b reads := List.forall_mem_cons

/-- The type of a split header is in the buffer, unless the buffer is used up and a payload
is missing. -/
theorem inside_beginReads (hr : s.r.toNat ≤ b.bytes.length)
    (hrem : s.remainingBytes = 0 → s.tlvIsComplete = true)
    (hzero : ¬ (s.unread b.len = 0 ∧ s.tlvIsComplete)) :
    Inside b (beginReads b.len s) ∧
      (beginSplitHeader b.bytes b.len s).r.toNat ≤ b.bytes.length := by
  rw [unread_eq_zero_iff hr] at hzero
  unfold beginReads beginSplitHeader
  split
  case isFalse => exact ⟨inside_nil, hr⟩
  case isTrue hbegin =>
    have hb := b.length_lt
    have hlt : s.r.toNat < b.bytes.length := by
      have hne : s.r.toNat ≠ b.bytes.length := fun h => hzero ⟨h, hrem hbegin.2.2⟩
      omega
    have hone : (s.r + 1).toNat = s.r.toNat + 1 := toNat_add_of_lt (n := 1) (by omega)
    refine ⟨inside_singleton_iff.mpr hlt, ?_⟩
    change (s.r + 1).toNat ≤ _
    omega

/-- The loop reads only as long as bytes are left. -/
theorem inside_lengthReads (missing : ℕ)
    (h : s.r.toNat + s.remainingHeader.toNat = b.bytes.length) :
    Inside b (lengthReads b.bytes missing s) ∧
      (copyLengthBytes b.bytes missing s).r.toNat ≤ b.bytes.length := by
  induction missing generalizing s with
  | zero =>
    refine ⟨inside_nil, ?_⟩
    change s.r.toNat ≤ _
    omega
  | succ missing ih =>
    rw [lengthReads, copyLengthBytes]
    split
    case isTrue =>
      refine ⟨inside_nil, ?_⟩
      omega
    case isFalse hne =>
      have hb := b.length_lt
      have hpos : s.remainingHeader.toNat ≠ 0 := fun h0 => hne (BitVec.eq_of_toNat_eq h0)
      -- a byte is left, and the cursor goes behind it
      have hnext : (copyLengthByte b.bytes s).r.toNat +
          (copyLengthByte b.bytes s).remainingHeader.toNat = b.bytes.length := by
        have hone : (s.r + 1).toNat = s.r.toNat + 1 := toNat_add_of_lt (n := 1) (by omega)
        have hpred := BitVec.toNat_sub s.remainingHeader 1
        change (s.remainingHeader - 1).toNat =
          (2 ^ 32 - 1 + s.remainingHeader.toNat) % 2 ^ 32 at hpred
        change (s.r + 1).toNat + (s.remainingHeader - 1).toNat = _
        omega
      obtain ⟨hreads, hcursor⟩ := ih hnext
      refine ⟨inside_cons_iff.mpr ⟨?_, hreads⟩, hcursor⟩
      change s.r.toNat + 1 ≤ _
      omega

@[simp] theorem r_endSplitHeader : (endSplitHeader s).r = s.r := by
  unfold endSplitHeader
  split <;> rfl

theorem inside_splitReads (hr : s.r.toNat ≤ b.bytes.length) :
    Inside b (splitReads b.bytes b.len s) ∧
      ∀ s₁, continueSplitHeader b.bytes b.len s = .goto s₁ → s₁.r.toNat ≤ b.bytes.length := by
  unfold splitReads continueSplitHeader
  split
  case isTrue =>
    refine ⟨inside_nil, fun s₁ hgoto => ?_⟩
    rwa [← Pass.goto.inj hgoto]
  case isFalse =>
    split
    case isTrue => exact ⟨inside_nil, fun s₁ hgoto => nomatch hgoto⟩
    case isFalse =>
      have hunread := toNat_unread hr
      obtain ⟨hreads, hcursor⟩ := inside_lengthReads (4 - s.lenBytesProcessed) (b := b)
        (s := { s with remainingHeader := s.unread b.len }) (by dsimp only; omega)
      refine ⟨hreads, fun s₁ hgoto => ?_⟩
      dsimp only at hgoto
      split at hgoto
      case isTrue => cases hgoto
      case isFalse => rwa [← Pass.goto.inj hgoto, r_endSplitHeader]

theorem inside_headerReads (hr : s.r.toNat ≤ b.bytes.length) :
    Inside b (headerReads b.len s) ∧ (readHeader b.bytes b.len s).r.toNat ≤ b.bytes.length := by
  unfold headerReads readHeader
  split
  case isFalse => exact ⟨inside_nil, hr⟩
  case isTrue hfive =>
    have hb := b.length_lt
    have hle := hfive.1
    rw [BitVec.le_def, toNat_unread hr] at hle
    change 5 ≤ _ at hle
    have hcursor : (s.r + 5).toNat = s.r.toNat + 5 := toNat_add_of_lt (n := 5) (by omega)
    refine ⟨inside_singleton_iff.mpr (by omega), ?_⟩
    change (s.r + 5).toNat ≤ _
    omega

/-- A payload that goes on in a later buffer is copied up to the end of this one, and one
that ends here is no longer than what is left. -/
theorem inside_payloadReads (hr : s.r.toNat ≤ b.bytes.length) :
    Inside b (payloadReads b.len s) := by
  have hunread := toNat_unread hr
  unfold payloadReads
  split
  case isTrue => exact inside_singleton_iff.mpr (by omega)
  case isFalse hlt =>
    rw [BitVec.lt_def, hunread] at hlt
    rw [inside_singleton_iff]
    split
    · omega
    · -- a payload under way begins with the buffer
      change 0 + _ ≤ _
      omega

/-- A pass reads nothing outside its buffer. -/
theorem inside_passReads (hr : s.r.toNat ≤ b.bytes.length)
    (hrem : s.remainingBytes = 0 → s.tlvIsComplete = true) :
    Inside b (passReads b.bytes b.len s) := by
  unfold passReads
  split
  case isTrue => exact inside_nil
  case isFalse hzero =>
    obtain ⟨hbegin, hbegun⟩ := inside_beginReads hr hrem hzero
    obtain ⟨hsplit, hcontinued⟩ := inside_splitReads hbegun
    dsimp only
    rw [inside_append_iff, inside_append_iff]
    refine ⟨⟨hbegin, hsplit⟩, ?_⟩
    split
    case h_1 => exact inside_nil
    case h_2 s₁ hgoto =>
      obtain ⟨hheader, hentered⟩ := inside_headerReads (hcontinued s₁ hgoto)
      exact inside_append_iff.mpr ⟨hheader, inside_payloadReads hentered⟩

/-! ### Nothing but the accesses matters -/

theorem agreeOn_append_iff : AgreeOn recvBuff recvBuff' (reads ++ reads') ↔
    AgreeOn recvBuff recvBuff' reads ∧ AgreeOn recvBuff recvBuff' reads' :=
  List.forall_mem_append

theorem agreeOn_cons_iff {access : ℕ × ℕ} : AgreeOn recvBuff recvBuff' (access :: reads) ↔
    (recvBuff.drop access.1).take access.2 = (recvBuff'.drop access.1).take access.2 ∧
      AgreeOn recvBuff recvBuff' reads :=
  List.forall_mem_cons

theorem agreeOn_singleton_iff {access : ℕ × ℕ} : AgreeOn recvBuff recvBuff' [access] ↔
    (recvBuff.drop access.1).take access.2 = (recvBuff'.drop access.1).take access.2 :=
  List.forall_mem_singleton

/-- The first byte of an access. -/
theorem byteAt_congr {off : Word} {n : ℕ} (h : (recvBuff.drop off.toNat).take (n + 1) =
    (recvBuff'.drop off.toNat).take (n + 1)) : byteAt recvBuff off = byteAt recvBuff' off := by
  have hhead := congrArg List.head? h
  rw [List.head?_take, List.head?_take, if_neg n.succ_ne_zero, if_neg n.succ_ne_zero,
    List.head?_drop, List.head?_drop] at hhead
  rw [byteAt, byteAt, List.getD_eq_getElem?_getD, List.getD_eq_getElem?_getD, hhead]

theorem beginSplitHeader_congr (h : AgreeOn recvBuff recvBuff' (beginReads len s)) :
    beginSplitHeader recvBuff len s = beginSplitHeader recvBuff' len s := by
  unfold beginReads at h
  unfold beginSplitHeader
  split
  next hbegin =>
    rw [if_pos hbegin, agreeOn_singleton_iff] at h
    rw [byteAt_congr h]
  next => rfl

theorem copyLengthBytes_congr (missing : ℕ)
    (h : AgreeOn recvBuff recvBuff' (lengthReads recvBuff missing s)) :
    copyLengthBytes recvBuff missing s = copyLengthBytes recvBuff' missing s := by
  induction missing generalizing s with
  | zero => rfl
  | succ missing ih =>
    rw [lengthReads] at h
    rw [copyLengthBytes, copyLengthBytes]
    split
    next => rfl
    next hne =>
      rw [if_neg hne, agreeOn_cons_iff] at h
      have hbyte : copyLengthByte recvBuff s = copyLengthByte recvBuff' s := by
        rw [copyLengthByte, copyLengthByte, byteAt_congr h.1]
      rw [ih h.2, hbyte]

theorem continueSplitHeader_congr (h : AgreeOn recvBuff recvBuff' (splitReads recvBuff len s)) :
    continueSplitHeader recvBuff len s = continueSplitHeader recvBuff' len s := by
  unfold splitReads at h
  unfold continueSplitHeader
  split
  next => rfl
  next hheader =>
    split
    next => rfl
    next hzero =>
      rw [if_neg hheader, if_neg hzero] at h
      rw [copyLengthBytes_congr _ h]

theorem readHeader_congr (hr : s.r.toNat + 1 < 2 ^ 32)
    (h : AgreeOn recvBuff recvBuff' (headerReads len s)) :
    readHeader recvBuff len s = readHeader recvBuff' len s := by
  -- the length is behind the type, in the same access
  have hlength (bytes : List UInt8) :
      bytesAt bytes (s.r + 1) 4 = ((bytes.drop s.r.toNat).take 5).drop 1 := by
    have hone : (s.r + 1).toNat = s.r.toNat + 1 := toNat_add_of_lt (n := 1) hr
    rw [bytesAt, hone, List.drop_take, List.drop_drop]
    rfl
  unfold headerReads at h
  unfold readHeader
  split
  next hread =>
    rw [if_pos hread, agreeOn_singleton_iff] at h
    rw [byteAt_congr h, hlength, hlength, h]
  next => rfl

theorem fill_congr (h : AgreeOn recvBuff recvBuff' (payloadReads len s)) :
    fill al recvBuff len fd s = fill al recvBuff' len fd s := by
  unfold payloadReads at h
  unfold fill
  split
  next hpartial =>
    rw [if_pos hpartial, agreeOn_singleton_iff] at h
    rw [fillPartial, fillPartial, bytesAt, bytesAt, h]
  next hcomplete =>
    rw [if_neg hcomplete, agreeOn_singleton_iff] at h
    rw [fillComplete, fillComplete, bytesAt, bytesAt, h]

/-- A pass reads nothing else: it does the same on any buffer with the same bytes at the
accesses. -/
theorem assemblePass_congr (hr : s.r.toNat ≤ b.bytes.length)
    (hrem : s.remainingBytes = 0 → s.tlvIsComplete = true)
    (h : AgreeOn b.bytes recvBuff (passReads b.bytes b.len s)) :
    assemblePass al recvBuff b.len fd s = passOn al fd b s := by
  rw [passOn, assemblePass, assemblePass]
  unfold passReads at h
  split at h
  next hzero => rw [if_pos hzero, if_pos hzero]
  next hzero =>
    have hb := b.length_lt
    obtain ⟨-, hbegun⟩ := inside_beginReads hr hrem hzero
    obtain ⟨-, hcontinued⟩ := inside_splitReads hbegun
    dsimp only at h
    rw [agreeOn_append_iff, agreeOn_append_iff] at h
    obtain ⟨⟨hbegin, hsplit⟩, hrest⟩ := h
    rw [if_neg hzero, if_neg hzero, ← beginSplitHeader_congr hbegin,
      ← continueSplitHeader_congr hsplit]
    split
    next => rfl
    next s₁ hgoto =>
      have hcursor := hcontinued s₁ hgoto
      rw [hgoto] at hrest
      obtain ⟨hheader, hpayload⟩ := agreeOn_append_iff.mp hrest
      rw [← readHeader_congr (by omega) hheader, fill_congr hpayload]

/-! ### What is copied -/

theorem copiedBytes_singleton {src dst room : ℕ} {bytes : List UInt8} :
    copiedBytes [.memcpy src dst room bytes] = bytes.length := by
  simp [copiedBytes, Event.copied]

/-- A pass comes to the payload, with as many bytes copied before as `c` says, or it returns
and copies nothing. -/
theorem payloadEntry_cases (al : Allocator) (fd : ℤ) (h : Walking b s) :
    (∃ code s', passOn al fd b s = (.ret (code, s'), []) ∧ s'.c = s.c) ∨
      ∃ s₁ type len r, payloadEntry b.bytes b.len s = some s₁ ∧
        Filling s₁ type len s.c.toNat r ∧ r ≤ b.bytes.length := by
  cases h with
  | @idle r h hr =>
    have hc : s.c.toNat = 0 := by rw [h.c_eq]; rfl
    -- nothing is left, a part of a header, or a whole header
    rcases Nat.lt_or_ge b.bytes.length (r + 5) with hshort | hwhole
    · rcases Nat.eq_or_lt_of_le hr with rfl | hlt
      · exact .inl ⟨_, _, passOn_idle_end al fd h, rfl⟩
      · obtain ⟨s', hpass, hsplit, -⟩ := passOn_idle_short al fd h hlt hshort
        exact .inl ⟨_, s', hpass, by rw [hsplit.c_eq, h.c_eq]⟩
    · obtain ⟨s₁, hentry, hfilling, -⟩ := payloadEntry_idle h hwhole
      exact .inr ⟨s₁, _, _, _, hentry, hc ▸ hfilling, hwhole⟩
  | @split type k high h =>
    have hc : s.c.toNat = 0 := by rw [h.c_eq]; rfl
    have hk := h.k_lt
    rcases Nat.eq_zero_or_pos b.bytes.length with hempty | hpos
    · exact .inl ⟨_, _, passOn_split_empty al fd h hempty, rfl⟩
    rcases Nat.lt_or_ge (k + b.bytes.length) 4 with hshort | hfull
    · obtain ⟨s', hpass, hsplit, -⟩ := passOn_split_short al fd h hpos hshort
      exact .inl ⟨_, s', hpass, by rw [hsplit.c_eq, h.c_eq]⟩
    -- with five more bytes behind the header, the block for whole headers reads another one
    rcases Nat.lt_or_ge b.bytes.length (4 - k + 5) with hfew | hmany
    · obtain ⟨s₁, hentry, hfilling, -⟩ := payloadEntry_split_few h (by omega) hfew
      exact .inr ⟨s₁, _, _, _, hentry, hc ▸ hfilling, by omega⟩
    · obtain ⟨s₁, hentry, hfilling, -⟩ := payloadEntry_split_many h hmany
      exact .inr ⟨s₁, _, _, _, hentry, hc ▸ hfilling, hmany⟩
  | @pending type len got h =>
    exact .inr ⟨s, type, len, 0, payloadEntry_pending h, h.c_eq ▸ h.toFilling, Nat.zero_le _⟩

/-- A pass that returns adds what it copied to `c`. -/
theorem c_of_ret (h : Walking b s) (hpass : passOn al fd b s = (.ret (code, s'), ev)) :
    s'.c.toNat = s.c.toNat + copiedBytes ev := by
  rcases payloadEntry_cases al fd h with ⟨code, s₁, hret, hc⟩ |
    ⟨s₁, type, len, r, hentry, hfilling, hr⟩
  · obtain ⟨⟨-, rfl⟩, rfl⟩ := by simpa [hret] using hpass
    exact congrArg BitVec.toNat hc
  · rw [passOn_of_payloadEntry al fd hentry] at hpass
    rcases Nat.lt_or_ge (b.bytes.length - r + s.c.toNat) len.toNat with hlt | hle
    · obtain ⟨s₂, hfill, hpending, -⟩ := fill_of_lt al fd hfilling hr hlt
      obtain ⟨⟨-, rfl⟩, rfl⟩ := by simpa [hfill] using hpass
      rw [hpending.c_eq, copiedBytes_singleton, List.length_drop]
    · -- the message would be complete
      obtain ⟨filled, hfill, -⟩ := fill_of_le al fd hfilling hr hle
      simp [hfill] at hpass

/-- A pass that jumps is done with its message. -/
theorem c_of_goto (h : Walking b s) (hpass : passOn al fd b s = (.goto s', ev)) : s'.c = 0 := by
  cases passOn_cases al fd h with
  | ret hret => simp [hret] at hpass
  | call hcall hclean =>
    obtain ⟨rfl, -⟩ := by simpa [hcall] using hpass
    exact hclean.c_eq
  | discard hdiscard hback =>
    obtain ⟨rfl, -⟩ := by simpa [hdiscard] using hpass
    exact hback.c_eq

/-- A pass that comes to the dispatch goes on from there. -/
theorem passOn_of_dispatched (al : Allocator) (fd : ℤ)
    (hd : dispatched al b.bytes b.len s = some d) :
    ∃ copy, passOn al fd b s = (.goto (dispatch fd d).1, [copy, (dispatch fd d).2]) := by
  obtain ⟨s₁, hentry, hswitch⟩ := Option.bind_eq_some_iff.mp hd
  split at hswitch
  case isTrue => cases hswitch
  case isFalse hle =>
    refine ⟨(fillComplete al b.bytes s₁).2, ?_⟩
    rw [passOn_of_payloadEntry al fd hentry, fill, if_neg hle, ← Option.some.inj hswitch]

/-- The dispatch copies nothing. -/
theorem copiedBytes_dispatch {src dst room : ℕ} {bytes : List UInt8} :
    copiedBytes [.memcpy src dst room bytes, (dispatch fd s).2] = bytes.length := by
  unfold dispatch
  split <;> simp [copiedBytes, Event.copied]

/-- At the dispatch, the header has the number of the bytes that were copied. -/
theorem length_of_dispatched (fd : ℤ) (h : Walking b s)
    (hd : dispatched al b.bytes b.len s = some d) :
    d.currentTlvHeader.length.toNat = s.c.toNat + copiedBytes (passOn al fd b s).2 := by
  obtain ⟨copy, hgoto⟩ := passOn_of_dispatched al fd hd
  obtain ⟨s₁, hentry, hswitch⟩ := Option.bind_eq_some_iff.mp hd
  rcases payloadEntry_cases al fd h with ⟨code, s₂, hret, -⟩ |
    ⟨s₂, type, len, r, hentry', hfilling, hr⟩
  · simp [hret] at hgoto
  · obtain rfl := Option.some.inj (hentry.symm.trans hentry')
    have hadd := hfilling.rem_add
    split at hswitch
    case isTrue => cases hswitch
    case isFalse hlt =>
      obtain rfl := Option.some.inj hswitch
      have hheader : (fillComplete al b.bytes s₁).1.currentTlvHeader = ⟨type, len⟩ :=
        hfilling.header_eq
      rw [BitVec.lt_def, toNat_unread (by rw [hfilling.r_eq]; exact hr), hfilling.r_eq] at hlt
      obtain ⟨filled, hfill, -⟩ := fill_of_le al fd hfilling hr (by omega)
      rw [passOn_of_payloadEntry al fd hentry, hfill, hheader]
      -- the rest of the payload is in the buffer
      rw [copiedBytes_dispatch, List.length_take, List.length_drop]
      dsimp only
      omega

/-! ### The invariant -/

/-- Whenever the label is reached, the receiver is where a pass can begin, and `c` counts
what was copied. -/
theorem AtLabel.counted (h : AtLabel al b s got) : Walking b s ∧ s.c.toNat = got := by
  induction h with
  | init => exact ⟨.idle clean_initTlvState.toIdle (Nat.zero_le _), rfl⟩
  | jump _ hpass ih =>
    exact ⟨ih.1.of_jumps ⟨_, hpass⟩, congrArg BitVec.toNat (c_of_goto ih.1 hpass)⟩
  | call _ hpass ih =>
    obtain ⟨hwalking, hc⟩ := ih
    refine ⟨(hwalking.resting_of_ret hpass).walking, ?_⟩
    rw [c_of_ret hwalking hpass, hc]

theorem Walking.r_le (h : Walking b s) : s.r.toNat ≤ b.bytes.length := by
  cases h with
  | idle h hr => exact h.r_eq ▸ hr
  | split h =>
    rw [h.r_eq]
    exact Nat.zero_le _
  | pending h =>
    rw [h.r_eq]
    exact Nat.zero_le _

/-- What was copied and what remains is the payload. -/
theorem Pending.c_add_remainingBytes (h : Pending s type len got) :
    s.c + s.remainingBytes = s.currentTlvHeader.length := by
  have hlen := len.isLt
  have hadd := h.rem_add
  rw [h.header_eq]
  apply BitVec.eq_of_toNat_eq
  rw [BitVec.toNat_add, h.c_eq]
  dsimp only
  omega

theorem Walking.complete_of_remainingBytes (h : Walking b s) (hrem : s.remainingBytes = 0) :
    s.tlvIsComplete = true := by
  cases h with
  | idle h => exact h.complete
  | split h => exact h.complete
  | pending h => exact absurd hrem h.remainingBytes_ne_zero

theorem Walking.labelInv (h : Walking b s) : LabelInv b s := by
  have hb := b.length_lt
  have hr := h.r_le
  have hint : s.r.toInt = s.r.toNat := BitVec.toInt_eq_toNat_of_lt (by omega)
  refine ⟨by omega, by omega, fun hcomplete => ?_, fun hnot => ?_, fun hnot => ?_⟩
  · cases h with
    | idle h => exact h.c_eq
    | split h => exact h.c_eq
    | pending h => cases hcomplete.symm.trans h.not_complete
  · cases h with
    | idle h => cases h.complete.symm.trans hnot
    | split h => cases h.complete.symm.trans hnot
    | pending h =>
      exact ⟨h.header_complete, BitVec.eq_of_toNat_eq h.r_eq, h.remainingBytes_ne_zero,
        h.c_add_remainingBytes⟩
  · cases h with
    | idle h => cases h.header_complete.symm.trans hnot
    | split h => exact ⟨h.complete, h.rem_eq, h.k_eq ▸ h.k_lt⟩
    | pending h => cases h.header_complete.symm.trans hnot

/-- Whenever the label is reached, the invariant holds; a pass from there that returns
leaves the cursor at the start of the next buffer; a pass reads nothing outside the buffer, and
nothing but these accesses matters to it; and if it comes to the dispatch, the header has the
number of the bytes that were copied. -/
theorem atLabel_invariant (al : Allocator) (b : RecvBuff) (s : TLVState) (got : ℕ)
    (h : AtLabel al b s got) (fd : ℤ) :
    LabelInv b s ∧
      (∀ code s' ev, passOn al fd b s = (.ret (code, s'), ev) → s'.r = 0) ∧
      Inside b (passReads b.bytes b.len s) ∧
      (∀ recvBuff, AgreeOn b.bytes recvBuff (passReads b.bytes b.len s) →
        assemblePass al recvBuff b.len fd s = passOn al fd b s) ∧
      ∀ d, dispatched al b.bytes b.len s = some d →
        d.currentTlvHeader.length.toNat = got + copiedBytes (passOn al fd b s).2 := by
  obtain ⟨hwalking, rfl⟩ := h.counted
  refine ⟨hwalking.labelInv, fun code s' ev hret => ?_, ?_, fun recvBuff hagree => ?_,
    fun d hd => ?_⟩
  · exact BitVec.eq_of_toNat_eq (hwalking.resting_of_ret hret).r_eq
  · exact inside_passReads hwalking.r_le hwalking.complete_of_remainingBytes
  · exact assemblePass_congr hwalking.r_le hwalking.complete_of_remainingBytes hagree
  · exact length_of_dispatched fd hwalking hd

/-- The header of a message of two bytes, and the first of them. -/
def halfBuff : RecvBuff := ⟨[2, 0, 0, 0, 2, 65], by decide⟩

/-- The second byte, and the beginning of another header. -/
def restBuff : RecvBuff := ⟨[66, 1, 0], by decide⟩

/-- The state behind the first buffer. -/
def halfState : TLVState :=
  { initTlvState with
    currentTlvHeader := ⟨2, 2⟩
    remainingBytes := 1
    c := 1
    tlvData := .block [some 65]
    tlvIsComplete := false }

theorem atLabel_invariant_restBuff :
    LabelInv restBuff halfState ∧
      (∀ code s' ev, passOn .exact 4 restBuff halfState = (.ret (code, s'), ev) → s'.r = 0) ∧
      Inside restBuff (passReads restBuff.bytes restBuff.len halfState) ∧
      (∀ recvBuff, AgreeOn restBuff.bytes recvBuff
          (passReads restBuff.bytes restBuff.len halfState) →
        assemblePass .exact recvBuff restBuff.len 4 halfState =
          passOn .exact 4 restBuff halfState) ∧
      ∀ d, dispatched .exact restBuff.bytes restBuff.len halfState = some d →
        d.currentTlvHeader.length.toNat =
          1 + copiedBytes (passOn .exact 4 restBuff halfState).2 :=
  have hpass : passOn .exact 4 halfBuff initTlvState =
      (.ret (tlvContinue, halfState), [.memcpy 5 0 1 [65]]) := rfl
  atLabel_invariant .exact restBuff halfState 1 (.call .init hpass) 4

/-! ### Calls -/

/-- After a call, the label is reached in the next one. -/
theorem AtLabel.exists_of_returns {out : ℕ × TLVState} (h : AtLabel al b s got)
    (hret : Returns (passOn al fd b) s out ev) (b' : RecvBuff) :
    ∃ got', AtLabel al b' out.2 got' := by
  induction hret generalizing got with
  | ret hpass => exact ⟨_, .call h hpass⟩
  | goto hpass _ ih => exact ih (.jump h hpass)

theorem Reachable.exists_atLabel (h : Reachable al s) (b : RecvBuff) :
    ∃ got, AtLabel al b s got := by
  induction h generalizing b with
  | init => exact ⟨0, .init⟩
  | @call fd b₁ s s' ev _ hcall ih =>
    obtain ⟨code, hret⟩ := hcall
    obtain ⟨got, hlabel⟩ := ih b₁
    exact hlabel.exists_of_returns hret b

/-- Whenever a call reaches the label, in a state that earlier calls led to, the invariant
applies. -/
theorem exists_atLabel_of_arrives (hs : Reachable al s) (h : Arrives (passOn al fd b) s s') :
    ∃ got, AtLabel al b s' got := by
  induction h with
  | refl => exact hs.exists_atLabel b
  | tail _ hjump ih =>
    obtain ⟨got, hlabel⟩ := ih
    obtain ⟨ev, hpass⟩ := hjump
    exact ⟨0, .jump hlabel hpass⟩

end Multicast
