import Mathlib.Data.List.Infix
import Multicast.Tlv.Runs

/-!
# Framing of header-aligned buffers

The stream may be cut anywhere except inside a header. A run over the buffers is
then a sequence of deliveries: the payload of each message is copied piece by
piece to its place, and the handler is called behind the last piece.

A payload that goes on over several buffers is the inner induction, over the
buffers; the messages of the stream are the outer one.

## Main definitions

* `Multicast.HeaderAligned` — no buffer ends strictly inside a header
* `Multicast.copied` — the bytes copied by events, with source and destination
* `Multicast.Delivers` — the events are those of delivering the given messages

## Main results

* `exists_completion` — a payload under way is completed
* `exists_continues_of_aligned` — the messages that are left are delivered
* `feeds_of_headerAligned` — all messages of the stream are delivered
-/

set_option autoImplicit false

namespace Multicast

open HeapBlock GotoLoop

/-- Offset `n` of the stream is strictly inside the header of one of the
messages. -/
def InsideHeader (ts : List Tlv) (n : ℕ) : Prop :=
  ∃ before t after, ts = before ++ t :: after ∧
    (stream before).length < n ∧ n < (stream before).length + 5

/-- No buffer ends strictly inside a header. -/
def HeaderAligned (ts : List Tlv) (bufs : List RecvBuff) : Prop :=
  ∀ front back, bufs = front ++ back → ¬ InsideHeader ts (joined front).length

/-- Bytes copied one after another, from offset `src` of the stream to offset
`dst` of the payload. -/
def placed (src dst : ℕ) (bytes : List UInt8) : List (ℕ × ℕ × UInt8) :=
  bytes.zipIdx.map fun (x, i) => (src + i, dst + i, x)

/-- The bytes copied by events, each with its source and its destination. -/
def copied (ev : List Event) : List (ℕ × ℕ × UInt8) :=
  ev.flatMap fun
    | .memcpy src dst _ bytes => placed src dst bytes
    | .call _ | .discard _ _ => []

/-- Whether an event is a copy. -/
def Event.isCopy : Event → Bool
  | memcpy .. => true
  | call _ | discard _ _ => false

/-- The events deliver the messages, the first of which begins at offset `pos` of
the stream: byte `k` of each payload is copied once, from its place in the stream
to offset `k`, nothing else is copied, and then the handler of the type is called,
with the length if it takes one. -/
inductive Delivers : ℕ → List Tlv → List Event → Prop
  | nil {pos : ℕ} : Delivers pos [] []
  | cons {pos : ℕ} {t : Tlv} {ts : List Tlv} {copies ev : List Event}
      {handlerCall : HandlerCall} :
      (∀ e ∈ copies, e.isCopy) → copied copies = placed (pos + 5) 0 t.payload →
      handlerCall.type = t.type →
      handlerCall.len = (if t.type.takesLen then some t.length else none) →
      Delivers (pos + t.bytes.length) ts ev →
      Delivers pos (t :: ts) (copies ++ .call handlerCall :: ev)

variable (al : Allocator) (fd : ℤ) {b : RecvBuff} {bufs : List RecvBuff} {s s₁ : TLVState}
variable {t : Tlv} {ts : List Tlv} {type : UInt8} {len : Word} {got r n : ℕ}

/-! ### Places in the stream -/

@[simp] theorem not_insideHeader_nil : ¬ InsideHeader [] n := by
  rintro ⟨before, t, after, h, -⟩
  simp at h

/-- A place in a stream belongs to the first message or to one behind it. -/
theorem exists_message_cons_iff {R : ℕ → Tlv → Prop} :
    (∃ before u after, t :: ts = before ++ u :: after ∧ R (stream before).length u) ↔
      R 0 t ∨ ∃ before u after, ts = before ++ u :: after ∧
        R (t.bytes.length + (stream before).length) u := by
  have hlength (before : List Tlv) :
      (stream (t :: before)).length = t.bytes.length + (stream before).length := by
    rw [stream_cons, ← List.append_assoc, ← Tlv.bytes, List.length_append]
  constructor
  · rintro ⟨before, u, after, h, hR⟩
    cases before with
    | nil =>
      obtain ⟨rfl, rfl⟩ := List.cons_eq_cons.mp h
      exact .inl hR
    | cons t' before =>
      obtain ⟨rfl, rfl⟩ := List.cons_eq_cons.mp h
      exact .inr ⟨before, u, after, rfl, hlength before ▸ hR⟩
  · rintro (hR | ⟨before, u, after, rfl, hR⟩)
    · exact ⟨[], t, ts, rfl, hR⟩
    · exact ⟨t :: before, u, after, rfl, (hlength before).symm ▸ hR⟩

/-- An offset is inside the first header, or inside one behind the first message. -/
theorem insideHeader_cons_iff : InsideHeader (t :: ts) n ↔
    (0 < n ∧ n < 5) ∨ (t.bytes.length ≤ n ∧ InsideHeader ts (n - t.bytes.length)) := by
  unfold InsideHeader
  rw [exists_message_cons_iff (R := fun k _ => k < n ∧ n < k + 5)]
  refine or_congr (by simp) ?_
  constructor
  · rintro ⟨before, u, after, rfl, hlo, hhi⟩
    exact ⟨by omega, before, u, after, rfl, by omega, by omega⟩
  · rintro ⟨hle, before, u, after, rfl, hlo, hhi⟩
    exact ⟨before, u, after, rfl, by omega, by omega⟩

/-- Behind the first message. -/
theorem insideHeader_cons_add_iff :
    InsideHeader (t :: ts) (t.bytes.length + n) ↔ InsideHeader ts n := by
  have hfive : 5 ≤ t.bytes.length := by
    rw [Tlv.length_bytes]
    omega
  rw [insideHeader_cons_iff, Nat.add_sub_cancel_left]
  constructor
  · rintro (⟨-, hlt⟩ | ⟨-, h⟩)
    · omega
    · exact h
  · exact fun h => .inr ⟨Nat.le_add_right _ _, h⟩

instance decidableInsideHeader : ∀ (ts : List Tlv) (n : ℕ), Decidable (InsideHeader ts n)
  | [], _ => isFalse not_insideHeader_nil
  | t :: ts, n =>
    have := decidableInsideHeader ts (n - t.bytes.length)
    decidable_of_iff _ insideHeader_cons_iff.symm

theorem headerAligned_iff {ts : List Tlv} {bufs : List RecvBuff} :
    HeaderAligned ts bufs ↔ ∀ front ∈ bufs.inits, ¬ InsideHeader ts (joined front).length := by
  constructor
  · intro h front hfront
    obtain ⟨back, rfl⟩ := (List.mem_inits _ _).mp hfront
    exact h front back rfl
  · rintro h front back rfl
    exact h front ((List.mem_inits _ _).mpr ⟨back, rfl⟩)

instance (ts : List Tlv) (bufs : List RecvBuff) : Decidable (HeaderAligned ts bufs) :=
  decidable_of_iff _ headerAligned_iff.symm

theorem placed_append (src dst : ℕ) (xs ys : List UInt8) :
    placed src dst (xs ++ ys) =
      placed src dst xs ++ placed (src + xs.length) (dst + xs.length) ys := by
  simp only [placed, List.zipIdx_append, List.map_append, Nat.zero_add]
  congr 1
  rw [List.zipIdx_eq_map_add, List.map_map]
  apply List.map_congr_left
  rintro ⟨x, i⟩ -
  simp only [Function.comp, Prod.mk.injEq, and_true]
  omega

@[simp] theorem copied_nil : copied [] = [] := rfl

@[simp] theorem copied_cons_memcpy (src dst room : ℕ) (bytes : List UInt8) (ev : List Event) :
    copied (.memcpy src dst room bytes :: ev) = placed src dst bytes ++ copied ev := rfl

/-- What both ways of cutting one list have in common. -/
theorem exists_eq_append_of_le {α : Type*} {xs ys as bs : List α} (h : xs ++ ys = as ++ bs)
    (hle : as.length ≤ xs.length) : ∃ rest, xs = as ++ rest ∧ rest ++ ys = bs := by
  obtain ⟨rest, rfl⟩ : as <+: xs :=
    List.prefix_of_prefix_length_le ⟨bs, h.symm⟩ ⟨ys, rfl⟩ hle
  rw [List.append_assoc, List.append_cancel_left_eq] at h
  exact ⟨rest, rfl, h⟩

/-! ### One payload -/

/-- The run over `b` and `bufs`, entered at the label in state `s`, comes to the
label in state `s'` on `b'`, with `bufs'` to follow, after the events `ev`. -/
def Leads (base : ℕ) (b : RecvBuff) (bufs : List RecvBuff) (s : TLVState) (ev : List Event)
    (skipped : List RecvBuff) (b' : RecvBuff) (bufs' : List RecvBuff) (s' : TLVState) : Prop :=
  b :: bufs = skipped ++ b' :: bufs' ∧
    ∀ s'' rest, Continues al fd (base + (joined skipped).length) b' bufs' s' s'' rest →
      Continues al fd base b bufs s s'' (ev ++ rest)

/-- A call that returns is followed by the call on the next buffer. -/
theorem Leads.of_ret {base code : ℕ} {b' : RecvBuff}
    (hpass : passOn al fd b s = (.ret (code, s₁), [])) :
    Leads al fd base b (b' :: bufs) s [] [b] b' bufs s₁ := by
  refine ⟨rfl, fun s'' rest h => (continues_ret_iff hpass).mpr ⟨rest, rfl, ?_⟩⟩
  exact feeds_cons_iff.mpr (by simpa using h)

/-- The run from state `s` completes a message of type `t`: the bytes `missing` are
copied from offset `src` of the stream to offset `dst` of the payload, the handler is
called, and `tail` is left. -/
inductive Completes (base : ℕ) (b : RecvBuff) (bufs : List RecvBuff) (s : TLVState)
    (t : TlvType) (len : Word) (src dst : ℕ) (missing tail : List UInt8) : Prop
  | intro (copies : List Event) (handlerCall : HandlerCall) (skipped bufs' : List RecvBuff)
      (b' : RecvBuff) (s' : TLVState) (r' : ℕ)
      (leads : Leads al fd base b bufs s (copies ++ [.call handlerCall]) skipped b' bufs' s')
      (clean : Clean s' r') (within : r' ≤ b'.bytes.length)
      (left : b'.bytes.drop r' ++ joined bufs' = tail)
      (place : base + (joined skipped).length + r' = src + missing.length)
      (only_copies : ∀ e ∈ copies, e.isCopy) (copied_eq : copied copies = placed src dst missing)
      (type_eq : handlerCall.type = t)
      (len_eq : handlerCall.len = if t.takesLen then some len else none)

/-- A payload that ends in the buffer. -/
theorem completes_of_le {t : TlvType} (ht : TlvType.ofCode type = some t) {base : ℕ}
    {missing tail : List UInt8} (hpass : passOn al fd b s = fill al b.bytes b.len fd s₁)
    (hfilling : Filling s₁ type len got r) (hr : r ≤ b.bytes.length)
    (hmissing : missing.length + got = len.toNat)
    (hbytes : b.bytes.drop r ++ joined bufs = missing ++ tail)
    (hle : len.toNat ≤ b.bytes.length - r + got) :
    Completes al fd base b bufs s t len (base + r) got missing tail := by
  obtain ⟨s', hfill, hclean⟩ := fill_of_known al fd ht hfilling hr hle
  have hcount : len.toNat - got = missing.length := by omega
  obtain ⟨rest, hrest, htail⟩ :=
    exists_eq_append_of_le hbytes (by rw [List.length_drop]; omega)
  have htake : (b.bytes.drop r).take missing.length = missing := by
    rw [hrest, List.take_left' rfl]
  have hdrop : b.bytes.drop (r + missing.length) ++ joined bufs = tail := by
    rw [← List.drop_drop, hrest, List.drop_left' rfl, htail]
  rw [hcount, htake] at hfill
  rw [hcount] at hclean
  refine .intro [.memcpy (base + r) got _ missing] _ [] bufs b s' (r + missing.length)
    ⟨rfl, fun s'' rest h => (continues_goto_iff (hpass.trans hfill)).mpr ⟨rest, rfl, h⟩⟩
    hclean (by omega) hdrop (by simp [Nat.add_assoc]) (by simp [Event.isCopy]) (by simp)
    (by simp) (by simp)

/-- A payload under way is completed, in this buffer or in those that follow. -/
theorem exists_completion {t : TlvType} (ht : TlvType.ofCode type = some t) {base : ℕ}
    {missing tail : List UInt8} (hpass : passOn al fd b s = fill al b.bytes b.len fd s₁)
    (hfilling : Filling s₁ type len got r) (hr : r ≤ b.bytes.length)
    (hmissing : missing.length + got = len.toNat)
    (hbytes : b.bytes.drop r ++ joined bufs = missing ++ tail) :
    Completes al fd base b bufs s t len (base + r) got missing tail := by
  induction bufs generalizing b s s₁ got r base missing with
  | nil =>
    have hlength := congrArg List.length hbytes
    simp only [joined_nil, List.append_nil, List.length_append, List.length_drop] at hlength
    exact completes_of_le al fd ht hpass hfilling hr hmissing hbytes (by omega)
  | cons b' bufs ih =>
    rcases Nat.lt_or_ge (b.bytes.length - r + got) len.toNat with hlt | hle
    swap
    · exact completes_of_le al fd ht hpass hfilling hr hmissing hbytes hle
    -- the rest of this buffer belongs to the payload, which goes on in the next one
    obtain ⟨s', hfill, hpending, -⟩ := fill_of_lt al fd hfilling hr hlt
    generalize (s₁.tlvData.realloc al (b.bytes.length - r)).room = room at hfill
    obtain ⟨missing', rfl, hleft⟩ :=
      exists_eq_append_of_le hbytes.symm (by rw [List.length_drop]; omega)
    rw [List.length_append, List.length_drop] at hmissing
    have hsource : base + r + (b.bytes.drop r).length = base + b.bytes.length + 0 := by
      rw [List.length_drop]
      omega
    have hrest : Completes al fd (base + b.bytes.length) b' bufs s' t len
        (base + b.bytes.length + 0) (got + (b.bytes.length - r)) missing' tail :=
      ih (passOn_pending al fd hpending) hpending.toFilling (Nat.zero_le _) (by omega)
        hleft.symm
    obtain ⟨copies, handlerCall, skipped, bufs', b'', s'', r', ⟨hsuffix, hlead⟩, hclean, hwithin,
      hleft, hplace, honly, hcopied, htype, hlen⟩ := hrest
    refine .intro (.memcpy (base + r) got room (b.bytes.drop r) :: copies) handlerCall
      (b :: skipped) bufs' b'' s'' r' ⟨by rw [hsuffix, List.cons_append], fun s'' rest h => ?_⟩
      hclean hwithin hleft ?_ ?_ ?_ htype hlen
    · refine (continues_ret_iff (hpass.trans hfill)).mpr ⟨_, rfl, feeds_cons_iff.mpr ?_⟩
      apply hlead s'' rest
      rwa [joined_cons, List.length_append, ← Nat.add_assoc] at h
    · rw [joined_cons, List.length_append, List.length_append]
      omega
    · simpa [Event.isCopy] using honly
    · rw [copied_cons_memcpy, placed_append, hcopied, hsource, List.length_drop]

/-! ### The stream -/

/-- Behind a message no buffer ends inside the header of a later one. -/
theorem not_insideHeader_tail {skipped bufs' : List RecvBuff} {b' : RecvBuff} {r' : ℕ}
    (haligned : ∀ front back, b :: bufs = front ++ back → front ≠ [] →
      ¬ InsideHeader (t :: ts) ((joined front).length - r))
    (hsuffix : b :: bufs = skipped ++ b' :: bufs')
    (hplace : (joined skipped).length + r' = r + t.bytes.length)
    (hwithin : r' ≤ b'.bytes.length) :
    ∀ front back, b' :: bufs' = front ++ back → front ≠ [] →
      ¬ InsideHeader ts ((joined front).length - r') := by
  intro front back hfront hne hinside
  -- a cut of the rest is a cut of the whole
  refine haligned (skipped ++ front) back (by rw [hsuffix, hfront, List.append_assoc])
    (by simp [hne]) ?_
  have hlonger : r' ≤ (joined front).length := by
    cases front with
    | nil => exact absurd rfl hne
    | cons b₁ front =>
      obtain ⟨rfl, -⟩ := List.cons_eq_cons.mp hfront
      rw [joined_cons, List.length_append]
      omega
  have heq : (joined (skipped ++ front)).length - r =
      t.bytes.length + ((joined front).length - r') := by
    rw [joined_append, List.length_append]
    omega
  rw [heq, insideHeader_cons_add_iff]
  exact hinside

/-- A buffer that does not end inside the header of the next message has it as a whole, and
the pass goes on with the payload. -/
theorem exists_filling_of_not_insideHeader (h : Idle s r) (hlt : r < b.bytes.length)
    (hbytes : b.bytes.drop r ++ joined bufs = stream (t :: ts))
    (hnot : ¬ InsideHeader (t :: ts) (b.bytes.length - r)) :
    ∃ s₁, passOn al fd b s = fill al b.bytes b.len fd s₁ ∧
      Filling s₁ t.type.code t.length 0 (r + 5) ∧ r + 5 ≤ b.bytes.length ∧
      b.bytes.drop (r + 5) ++ joined bufs = t.payload ++ stream ts := by
  have hheader : r + 5 ≤ b.bytes.length := by
    by_contra hshort
    apply hnot
    rw [insideHeader_cons_iff]
    omega
  rw [stream_cons] at hbytes
  obtain ⟨rest, hrest, hpayload⟩ := exists_eq_append_of_le hbytes
    (by rw [List.length_drop, Tlv.length_header]; omega)
  have hbehind : b.bytes.drop (r + 5) = rest := by
    rw [← List.drop_drop, hrest, List.drop_left' t.length_header]
  obtain ⟨s₁, hpass, hfilling, -, -⟩ := passOn_header al fd h hrest
  exact ⟨s₁, hpass, hfilling, hheader, by rw [hbehind, hpayload]⟩

/-- The messages that are left are delivered. The state is between two messages,
with the first of them at offset `r` of the buffer. -/
theorem exists_continues_of_aligned (base : ℕ) (hs : Clean s r) (hr : r ≤ b.bytes.length)
    (hbytes : b.bytes.drop r ++ joined bufs = stream ts)
    (haligned : ∀ front back, b :: bufs = front ++ back → front ≠ [] →
      ¬ InsideHeader ts ((joined front).length - r)) :
    ∃ s' ev, Continues al fd base b bufs s s' ev ∧ Delivers (base + r) ts ev ∧ Clean s' 0 := by
  -- every step either leaves the buffer or consumes a message
  induction hn : ts.length + bufs.length using Nat.strongRecOn
    generalizing b bufs s r ts base with
  | ind n ih =>
    rcases Nat.eq_or_lt_of_le hr with rfl | hlt
    · have hend := passOn_idle_end al fd hs.toIdle
      have hclean := hs.rewind
      rw [List.drop_length, List.nil_append] at hbytes
      cases bufs with
      | nil =>
        obtain rfl := eq_nil_of_stream_eq_nil hbytes
        exact ⟨_, [], (continues_ret_iff hend).mpr ⟨[], rfl, .nil⟩, .nil, hclean⟩
      | cons b' bufs =>
        obtain ⟨s', ev, hrun, hdelivers, hs'⟩ := ih (ts.length + bufs.length)
          (by rw [List.length_cons] at hn; omega) (base + b.bytes.length) hclean
          (Nat.zero_le _) hbytes (fun front back hfront hne => by
            have h := haligned (b :: front) back (by rw [hfront, List.cons_append]) (by simp)
            rwa [joined_cons, List.length_append, Nat.add_sub_cancel_left] at h) rfl
        exact ⟨s', ev, (Leads.of_ret al fd hend).2 s' ev (by simpa using hrun), hdelivers, hs'⟩
    · cases ts with
      | nil =>
        have h := congrArg List.length hbytes
        rw [List.length_append, List.length_drop, stream_nil, List.length_nil] at h
        omega
      | cons t ts =>
        have hnot := haligned [b] bufs rfl (List.cons_ne_nil b [])
        rw [joined_cons, joined_nil, List.append_nil] at hnot
        obtain ⟨s₁, hpass, hfilling, hheader, hpayload⟩ :=
          exists_filling_of_not_insideHeader al fd hs.toIdle hlt hbytes hnot
        have hcompletes : Completes al fd base b bufs s t.type t.length (base + (r + 5)) 0
            t.payload (stream ts) :=
          exists_completion al fd (TlvType.ofCode_code _) hpass hfilling hheader (by simp) hpayload
        obtain ⟨copies, handlerCall, skipped, bufs', b', s₂, r', ⟨hsuffix, hlead⟩, hclean,
          hwithin, hleft, hplace, honly, hcopied, htype, hlen⟩ := hcompletes
        have hbuffers := congrArg List.length hsuffix
        simp only [List.length_cons, List.length_append] at hbuffers hn
        have hplace' : (joined skipped).length + r' = r + t.bytes.length := by
          rw [Tlv.length_bytes]
          omega
        obtain ⟨s', ev, hrun, hdelivers, hs'⟩ := ih (ts.length + bufs'.length) (by omega)
          (base + (joined skipped).length) hclean hwithin hleft
          (not_insideHeader_tail haligned hsuffix hplace' hwithin) rfl
        have hnext : base + (joined skipped).length + r' = base + r + t.bytes.length := by omega
        refine ⟨s', copies ++ .call handlerCall :: ev, ?_, ?_, hs'⟩
        · simpa using hlead s' ev hrun
        · refine .cons honly ?_ htype hlen (hnext ▸ hdelivers)
          rw [hcopied, Nat.add_assoc]

/-- **Framing.** The messages of a stream that is cut into buffers, none of which
ends strictly inside a header, are delivered one by one, in order, and the state
behind the last buffer is clean. -/
theorem feeds_of_headerAligned (al : Allocator) (fd : ℤ) (ts : List Tlv)
    (bufs : List RecvBuff) (hdiv : joined bufs = stream ts) (haligned : HeaderAligned ts bufs) :
    ∃ s' ev, Feeds al fd 0 bufs initTlvState s' ev ∧ Delivers 0 ts ev ∧
      s'.r = 0 ∧ s'.c = 0 ∧ s'.remainingBytes = 0 ∧
      s'.tlvHeaderIsComplete = true ∧ s'.tlvIsComplete = true := by
  have hinit := clean_initTlvState
  suffices h : ∃ s' ev, Feeds al fd 0 bufs initTlvState s' ev ∧ Delivers 0 ts ev ∧ Clean s' 0 by
    obtain ⟨s', ev, hrun, hdelivers, hs'⟩ := h
    exact ⟨s', ev, hrun, hdelivers, BitVec.eq_of_toNat_eq hs'.r_eq, hs'.c_eq, hs'.rem_eq,
      hs'.header_complete, hs'.complete⟩
  cases bufs with
  | nil =>
    obtain rfl := eq_nil_of_stream_eq_nil hdiv
    exact ⟨_, [], .nil, .nil, hinit⟩
  | cons b bufs =>
    obtain ⟨s', ev, hrun, hdelivers, hs'⟩ := exists_continues_of_aligned al fd 0 hinit
      (Nat.zero_le _) hdiv (fun front back hfront _ => haligned front back hfront)
    exact ⟨s', ev, feeds_cons_iff.mpr hrun, hdelivers, hs'⟩

/-- A keepalive message, then a text of three bytes. -/
def keepAliveThenText : List Tlv :=
  [⟨.keepAlive, [4], by decide⟩, ⟨.text, [104, 105, 10], by decide⟩]

/-- The same stream, cut behind the first header and inside the text. -/
def keepAliveThenTextBuffs : List RecvBuff :=
  [⟨[4, 0, 0, 0, 1], by decide⟩, ⟨[4, 1, 0, 0, 0, 3, 104], by decide⟩, ⟨[105, 10], by decide⟩]

theorem feeds_keepAliveThenText :
    ∃ s' ev, Feeds .exact 4 0 keepAliveThenTextBuffs initTlvState s' ev ∧
      Delivers 0 keepAliveThenText ev ∧ s'.r = 0 ∧ s'.c = 0 ∧ s'.remainingBytes = 0 ∧
      s'.tlvHeaderIsComplete = true ∧ s'.tlvIsComplete = true :=
  feeds_of_headerAligned .exact 4 keepAliveThenText keepAliveThenTextBuffs (by decide) (by decide)

end Multicast
