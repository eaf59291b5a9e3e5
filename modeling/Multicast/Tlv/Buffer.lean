import Multicast.Tlv.Framing

/-!
# The block of a payload

For every piece of a payload the block is resized to the length of the piece, and not to
that of the payload so far. The first piece is copied to the start of the block and fits.
Every further piece is copied behind the bytes that came before, to a block with room for
this piece alone.

So the block holds the payload exactly if the payload comes in one piece. The header may
come in an earlier buffer.

## Main definitions

* `Multicast.InsidePayload`, `PayloadAligned` — buffers that end strictly inside a payload
* `Multicast.KeepsPayloads` — all copies are within the block, and the handlers read the
  payloads
* `Multicast.CutsAvoid` — where the buffers end, seen from a place in the first of them

## Main results

* `not_keeps_of_pending` — a second piece is never copied within the block
* `keepsPayloads_iff` — the payloads are kept exactly if no buffer ends inside of one
* `not_keepsPayloads_cutText` — a stream whose payload is not kept
-/

set_option autoImplicit false

namespace Multicast

open HeapBlock GotoLoop

/-- Offset `n` of the stream is strictly inside the payload of one of the messages. -/
def InsidePayload (ts : List Tlv) (n : ℕ) : Prop :=
  ∃ before t after, ts = before ++ t :: after ∧
    (stream before).length + 5 < n ∧ n < (stream before).length + t.bytes.length

/-- No buffer ends strictly inside a payload. -/
def PayloadAligned (ts : List Tlv) (bufs : List RecvBuff) : Prop :=
  ∀ front back, bufs = front ++ back → ¬ InsidePayload ts (joined front).length

/-- A copy writes only cells of the block. -/
def Event.WithinBlock : Event → Prop
  | memcpy _ dst room bytes => dst + bytes.length ≤ room
  | call _ | discard _ _ => True

/-- Every copy is within the block as it was last allocated, and the handlers, called one
for each message, read the payloads. -/
structure KeepsPayloads (ts : List Tlv) (ev : List Event) : Prop where
  within : ∀ e ∈ ev, e.WithinBlock
  held : List.Forall₂
    (fun h t => h.data.read 0 t.payload.length = some t.payload) (calls ev) ts

/-- A run from the label keeps the payloads of `ts`, with an allocator that rounds nothing
up. -/
def Keeps (fd : ℤ) (base : ℕ) (b : RecvBuff) (bufs : List RecvBuff) (s : TLVState)
    (ts : List Tlv) : Prop :=
  ∃ s' ev, Continues .exact fd base b bufs s s' ev ∧ KeepsPayloads ts ev

/-- No buffer ends where `P` holds. Places are counted from offset `r` of the first one. -/
def CutsAvoid (P : ℕ → Prop) (b : RecvBuff) : List RecvBuff → ℕ → Prop
  | [], r => ¬ P (b.bytes.length - r)
  | b' :: bufs, r => ¬ P (b.bytes.length - r) ∧
    CutsAvoid (fun n => P (b.bytes.length - r + n)) b' bufs 0

variable {fd : ℤ} {base r m n len got : ℕ} {b b' : RecvBuff} {bufs : List RecvBuff}
variable {s s₁ s' : TLVState} {t : Tlv} {ts us : List Tlv} {ev ev' ev₁ : List Event}
variable {P : ℕ → Prop}

/-! ### Places in the stream -/

theorem not_insidePayload_nil : ¬ InsidePayload [] n := by
  rintro ⟨before, t, after, h, -⟩
  simp at h

/-- An offset is inside the first payload, or inside one behind the first message. -/
theorem insidePayload_cons_iff : InsidePayload (t :: ts) n ↔
    (5 < n ∧ n < t.bytes.length) ∨
      (t.bytes.length ≤ n ∧ InsidePayload ts (n - t.bytes.length)) := by
  unfold InsidePayload
  rw [exists_message_cons_iff (R := fun k u => k + 5 < n ∧ n < k + u.bytes.length)]
  refine or_congr (by simp) ?_
  constructor
  · rintro ⟨before, u, after, rfl, hlo, hhi⟩
    exact ⟨by omega, before, u, after, rfl, by omega, by omega⟩
  · rintro ⟨hle, before, u, after, rfl, hlo, hhi⟩
    exact ⟨before, u, after, rfl, by omega, by omega⟩

/-- Behind the first message. -/
theorem insidePayload_cons_add_iff :
    InsidePayload (t :: ts) (t.bytes.length + n) ↔ InsidePayload ts n := by
  rw [insidePayload_cons_iff, Nat.add_sub_cancel_left]
  constructor
  · rintro (⟨-, hlt⟩ | ⟨-, h⟩)
    · omega
    · exact h
  · exact fun h => .inr ⟨Nat.le_add_right _ _, h⟩

/-! ### Where the buffers end -/

theorem CutsAvoid.not_first (h : CutsAvoid P b bufs r) : ¬ P (b.bytes.length - r) := by
  cases bufs with
  | nil => exact h
  | cons b' bufs => exact h.1

/-- The place from which one counts is moved forward in its buffer. -/
theorem cutsAvoid_add_iff (hle : r + m ≤ b.bytes.length) :
    CutsAvoid P b bufs r ↔ CutsAvoid (fun n => P (m + n)) b bufs (r + m) := by
  have hcut : b.bytes.length - r = m + (b.bytes.length - (r + m)) := by omega
  cases bufs with
  | nil => rw [CutsAvoid, CutsAvoid, hcut]
  | cons b' bufs =>
    rw [CutsAvoid, CutsAvoid, hcut]
    simp only [Nat.add_assoc]

/-- All parts of the buffers from the first one on end where `P` does not hold. -/
theorem cutsAvoid_iff : CutsAvoid P b bufs 0 ↔
    ∀ front back, b :: bufs = front ++ back → front ≠ [] → ¬ P (joined front).length := by
  induction bufs generalizing P b with
  | nil =>
    constructor
    · intro h front back hfront hne
      cases front with
      | nil => exact absurd rfl hne
      | cons b₁ front =>
        obtain ⟨rfl, hsplit⟩ := List.cons_eq_cons.mp hfront
        obtain ⟨rfl, -⟩ := List.append_eq_nil_iff.mp hsplit.symm
        simpa [CutsAvoid] using h
    · intro h
      simpa [CutsAvoid] using h [b] [] rfl (by simp)
  | cons b' bufs ih =>
    rw [CutsAvoid, ih]
    -- the first cut is behind the first buffer, the others are those of the rest
    constructor
    · rintro ⟨hfirst, hrest⟩ front back hfront hne
      cases front with
      | nil => exact absurd rfl hne
      | cons b₁ front =>
        obtain ⟨rfl, hsplit⟩ := List.cons_eq_cons.mp hfront
        rw [joined_cons, List.length_append]
        cases front with
        | nil => simpa using hfirst
        | cons b₂ front => exact hrest (b₂ :: front) back hsplit (by simp)
    · intro h
      refine ⟨by simpa using h [b] (b' :: bufs) rfl (by simp), fun front back hfront hne => ?_⟩
      have hcut := h (b :: front) back (by rw [hfront, List.cons_append]) (by simp)
      rwa [joined_cons, List.length_append] at hcut

theorem HeaderAligned.cutsAvoid (h : HeaderAligned ts (b :: bufs)) :
    CutsAvoid (InsideHeader ts) b bufs 0 :=
  cutsAvoid_iff.mpr fun front back hfront _ => h front back hfront

/-! ### Events that keep payloads -/

theorem withinBlock_shift {e : Event} : (e.shift base).WithinBlock ↔ e.WithinBlock := by
  cases e <;> exact Iff.rfl

/-- What comes behind events that kept the payloads of the first messages. -/
theorem keepsPayloads_append_iff (h : KeepsPayloads us ev) :
    KeepsPayloads (us ++ ts) (ev ++ ev') ↔ KeepsPayloads ts ev' := by
  constructor
  · rintro ⟨hwithin, hheld⟩
    refine ⟨fun e he => hwithin e (List.mem_append_right _ he), ?_⟩
    have hdrop := List.forall₂_drop_append _ us ts hheld
    rwa [calls_append, List.drop_left' h.held.length_eq] at hdrop
  · rintro ⟨hwithin, hheld⟩
    refine ⟨fun e he => ?_, ?_⟩
    · rcases List.mem_append.mp he with he | he
      · exact h.within e he
      · exact hwithin e he
    · rw [calls_append]
      exact List.rel_append h.held hheld

theorem KeepsPayloads.map_shift (h : KeepsPayloads ts ev) (base : ℕ) :
    KeepsPayloads ts (ev.map (Event.shift base)) := by
  refine ⟨fun e he => ?_, ?_⟩
  · obtain ⟨e', he', rfl⟩ := List.mem_map.mp he
    exact withinBlock_shift.mpr (h.within e' he')
  · rw [calls_map_shift]
    exact h.held

theorem keepsPayloads_nil : KeepsPayloads [] [] := ⟨fun _ he => absurd he List.not_mem_nil, .nil⟩

/-- A run whose next pass jumps, after it handed over messages. -/
theorem keeps_of_goto_iff (hpass : passOn .exact fd b s = (.goto s₁, ev₁))
    (hkeeps : KeepsPayloads us ev₁) :
    Keeps fd base b bufs s (us ++ ts) ↔ Keeps fd base b bufs s₁ ts := by
  constructor
  · rintro ⟨s', ev, hrun, hev⟩
    obtain ⟨rest, rfl, hrest⟩ := (continues_goto_iff hpass).mp hrun
    exact ⟨s', rest, hrest, (keepsPayloads_append_iff (hkeeps.map_shift base)).mp hev⟩
  · rintro ⟨s', rest, hrest, hev⟩
    exact ⟨s', _, (continues_goto_iff hpass).mpr ⟨rest, rfl, hrest⟩,
      (keepsPayloads_append_iff (hkeeps.map_shift base)).mpr hev⟩

/-- A run whose next pass returns, in the middle of a message or at its end. -/
theorem keeps_of_ret_iff {code : ℕ} (hpass : passOn .exact fd b s = (.ret (code, s₁), ev₁))
    (hkeeps : KeepsPayloads [] ev₁) :
    Keeps fd base b (b' :: bufs) s ts ↔ Keeps fd (base + b.bytes.length) b' bufs s₁ ts := by
  constructor
  · rintro ⟨s', ev, hrun, hev⟩
    obtain ⟨rest, rfl, hrest⟩ := (continues_ret_iff hpass).mp hrun
    exact ⟨s', rest, feeds_cons_iff.mp hrest,
      (keepsPayloads_append_iff (hkeeps.map_shift base)).mp hev⟩
  · rintro ⟨s', rest, hrest, hev⟩
    exact ⟨s', _, (continues_ret_iff hpass).mpr ⟨rest, rfl, feeds_cons_iff.mpr hrest⟩,
      (keepsPayloads_append_iff (hkeeps.map_shift base)).mpr hev⟩

/-! ### Pieces of a payload -/

/-- The first piece of a payload is copied to a block of its length. -/
theorem keepsPayloads_memcpy (p : Pointer UInt8) (src : ℕ) (bytes : List UInt8) :
    KeepsPayloads [] [.memcpy src 0 (p.realloc .exact bytes.length).room bytes] := by
  refine ⟨?_, .nil⟩
  rw [List.forall_mem_singleton, Pointer.room_realloc_exact]
  exact Nat.le_of_eq (Nat.zero_add _)

/-- A payload that comes as a whole is copied to a block of its length, and the handler
reads it. -/
theorem keepsPayloads_message {p : Pointer UInt8} {src : ℕ} :
    KeepsPayloads [t] [.memcpy src 0 (p.realloc .exact t.payload.length).room t.payload,
      .call (t.type.handler fd ((p.realloc .exact t.payload.length).memcpy 0 t.payload)
        t.length)] := by
  refine ⟨?_, .cons ?_ .nil⟩
  · rw [List.forall_mem_cons, List.forall_mem_singleton]
    refine ⟨?_, trivial⟩
    rw [Pointer.room_realloc_exact]
    exact Nat.le_of_eq (Nat.zero_add _)
  · rw [TlvType.data_handler]
    exact Pointer.read_memcpy_realloc_exact p t.payload

/-- Every further piece is copied behind the bytes that came before it, to a block with
room for this piece alone. -/
theorem not_keeps_of_pending {type : UInt8} {len : Word} (h : Pending s type len got)
    (hgot : 0 < got) : ¬ Keeps fd base b bufs s ts := by
  rintro ⟨s', ev, hrun, hkeeps⟩
  have hpass := passOn_pending .exact fd h (b := b)
  rcases Nat.lt_or_ge (b.bytes.length - 0 + got) len.toNat with hlt | hle
  · obtain ⟨s₁, hfill, -⟩ := fill_of_lt .exact fd h.toFilling (Nat.zero_le _) hlt
    obtain ⟨rest, rfl, -⟩ := (continues_ret_iff (hpass.trans hfill)).mp hrun
    have hwithin : got + (b.bytes.drop 0).length ≤ _ := hkeeps.within _ List.mem_cons_self
    rw [Pointer.room_realloc_exact, List.length_drop] at hwithin
    omega
  · obtain ⟨filled, hfill, -⟩ := fill_of_le .exact fd h.toFilling (Nat.zero_le _) hle
    obtain ⟨rest, rfl, -⟩ := (continues_goto_iff (hpass.trans hfill)).mp hrun
    have hwithin : got + ((b.bytes.drop 0).take (len.toNat - got)).length ≤ _ :=
      hkeeps.within _ List.mem_cons_self
    rw [Pointer.room_realloc_exact, List.length_take, List.length_drop] at hwithin
    omega

/-- What is asked of the messages behind a payload: the run keeps them exactly if no later
buffer ends inside of one. -/
def KeepsLater (fd : ℤ) (ts : List Tlv) (k : ℕ) : Prop :=
  ∀ (base : ℕ) (b : RecvBuff) (bufs : List RecvBuff) (s : TLVState) (r : ℕ), bufs.length ≤ k →
    Clean s r → r ≤ b.bytes.length → b.bytes.drop r ++ joined bufs = stream ts →
    CutsAvoid (InsideHeader ts) b bufs r →
    (Keeps fd base b bufs s ts ↔ CutsAvoid (InsidePayload ts) b bufs r)

/-- A payload that comes as a whole is kept, and the rest is about the messages behind. -/
theorem keeps_payload_iff_of_le (hlater : KeepsLater fd ts bufs.length)
    (hpass : passOn .exact fd b s = fill .exact b.bytes b.len fd s₁)
    (hfilling : Filling s₁ t.type.code t.length 0 r) (hr : r ≤ b.bytes.length)
    (hbytes : b.bytes.drop r ++ joined bufs = t.payload ++ stream ts)
    (haligned : CutsAvoid (fun n => InsideHeader (t :: ts) (5 + n)) b bufs r)
    (hle : t.payload.length ≤ b.bytes.length - r) :
    Keeps fd base b bufs s (t :: ts) ↔
      CutsAvoid (fun n => InsidePayload (t :: ts) (5 + n)) b bufs r := by
  have hplace (n : ℕ) : 5 + (t.payload.length + n) = t.bytes.length + n := by
    rw [Tlv.length_bytes, Nat.add_assoc]
  obtain ⟨rest, hrest, hleft⟩ :=
    exists_eq_append_of_le hbytes (by rw [List.length_drop]; omega)
  have htake : (b.bytes.drop r).take t.payload.length = t.payload := by
    rw [hrest, List.take_left' rfl]
  have hdrop : b.bytes.drop (r + t.payload.length) ++ joined bufs = stream ts := by
    rw [← List.drop_drop, hrest, List.drop_left' rfl, hleft]
  obtain ⟨s', hfill, hclean⟩ := fill_of_known .exact fd (TlvType.ofCode_code t.type) hfilling hr
    (by rw [Tlv.toNat_length]; omega)
  rw [Tlv.toNat_length, Nat.sub_zero, htake] at hfill
  rw [Tlv.toNat_length, Nat.sub_zero] at hclean
  -- places in the stream are counted from behind the message from here on
  have hheader := (cutsAvoid_add_iff (m := t.payload.length) (by omega)).mp haligned
  simp only [hplace, insideHeader_cons_add_iff] at hheader
  rw [cutsAvoid_add_iff (m := t.payload.length) (by omega)]
  simp only [hplace, insidePayload_cons_add_iff]
  have hmessage : Keeps fd base b bufs s ([t] ++ ts) ↔ Keeps fd base b bufs s' ts :=
    keeps_of_goto_iff (hpass.trans hfill) keepsPayloads_message
  exact hmessage.trans (hlater base b bufs s' _ (Nat.le_refl _) hclean (by omega) hdrop hheader)

/-- A payload whose header was read is kept exactly if it does not go on in a further
buffer. Before its first byte buffers may end. -/
theorem keeps_payload_iff (hlater : KeepsLater fd ts bufs.length)
    (hpass : passOn .exact fd b s = fill .exact b.bytes b.len fd s₁)
    (hfilling : Filling s₁ t.type.code t.length 0 r) (hr : r ≤ b.bytes.length)
    (hbytes : b.bytes.drop r ++ joined bufs = t.payload ++ stream ts)
    (haligned : CutsAvoid (fun n => InsideHeader (t :: ts) (5 + n)) b bufs r) :
    Keeps fd base b bufs s (t :: ts) ↔
      CutsAvoid (fun n => InsidePayload (t :: ts) (5 + n)) b bufs r := by
  induction bufs generalizing b s s₁ r base with
  | nil =>
    have hlength := congrArg List.length hbytes
    simp only [joined_nil, List.append_nil, List.length_append, List.length_drop] at hlength
    exact keeps_payload_iff_of_le hlater hpass hfilling hr hbytes haligned (by omega)
  | cons b' bufs ih =>
    rcases Nat.lt_or_ge (b.bytes.length - r) t.payload.length with hlt | hle
    swap
    · exact keeps_payload_iff_of_le hlater hpass hfilling hr hbytes haligned hle
    obtain ⟨s', hfill, hpending, -⟩ := fill_of_lt .exact fd hfilling hr
      (by rw [Tlv.toNat_length]; omega)
    have hpiece := keepsPayloads_memcpy s₁.tlvData r (b.bytes.drop r)
    rw [List.length_drop] at hpiece
    rw [keeps_of_ret_iff (hpass.trans hfill) hpiece, CutsAvoid]
    rw [CutsAvoid] at haligned
    rcases Nat.eq_zero_or_pos (b.bytes.length - r) with hnone | hsome
    · -- nothing of the payload was copied
      have hstart : ¬ InsidePayload (t :: ts) 5 := by
        rw [insidePayload_cons_iff, Tlv.length_bytes]
        omega
      simp only [hnone, Nat.add_zero, Nat.zero_add] at hpending haligned ⊢
      have hempty : b.bytes.drop r = [] := List.drop_eq_nil_of_le (by omega)
      rw [hempty, List.nil_append] at hbytes
      have hlater' : KeepsLater fd ts bufs.length := fun base b bufs' s r hlength =>
        hlater base b bufs' s r (Nat.le_succ_of_le hlength)
      rw [and_iff_right hstart]
      exact ih hlater' (passOn_pending .exact fd hpending) hpending.toFilling (Nat.zero_le _)
        hbytes haligned.2
    · -- the buffer ends inside the payload
      have hinside : InsidePayload (t :: ts) (5 + (b.bytes.length - r)) := by
        rw [insidePayload_cons_iff, Tlv.length_bytes]
        omega
      rw [Nat.zero_add] at hpending
      exact iff_of_false (not_keeps_of_pending hpending hsome) fun h => h.1 hinside

/-! ### The stream -/

/-- The messages that are left are kept exactly if no buffer ends inside the payload of one
of them. -/
theorem keeps_iff (hs : Clean s r) (hr : r ≤ b.bytes.length)
    (hbytes : b.bytes.drop r ++ joined bufs = stream ts)
    (haligned : CutsAvoid (InsideHeader ts) b bufs r) :
    Keeps fd base b bufs s ts ↔ CutsAvoid (InsidePayload ts) b bufs r := by
  -- every step either leaves the buffer or consumes a message
  induction hn : ts.length + bufs.length using Nat.strongRecOn
    generalizing b bufs s r ts base with
  | ind n ih =>
    rcases Nat.eq_or_lt_of_le hr with rfl | hlt
    · have hend := passOn_idle_end .exact fd hs.toIdle
      rw [List.drop_length, List.nil_append] at hbytes
      cases bufs with
      | nil =>
        obtain rfl := eq_nil_of_stream_eq_nil hbytes
        exact iff_of_true ⟨_, [], (continues_ret_iff hend).mpr ⟨[], rfl, .nil⟩, keepsPayloads_nil⟩
          not_insidePayload_nil
      | cons b' bufs =>
        have hstart : ¬ InsidePayload ts 0 := by
          rintro ⟨before, t, after, -, hlo, -⟩
          omega
        rw [CutsAvoid] at haligned
        rw [keeps_of_ret_iff hend keepsPayloads_nil, CutsAvoid]
        simp only [Nat.sub_self, Nat.zero_add] at haligned ⊢
        rw [and_iff_right hstart]
        exact ih _ (by rw [List.length_cons] at hn; omega) hs.rewind (Nat.zero_le _) hbytes
          haligned.2 rfl
    · cases ts with
      | nil =>
        have h := congrArg List.length hbytes
        rw [List.length_append, List.length_drop, stream_nil, List.length_nil] at h
        omega
      | cons t ts =>
        obtain ⟨s₁, hpass, hfilling, hheader, hpayload⟩ :=
          exists_filling_of_not_insideHeader .exact fd hs.toIdle hlt hbytes haligned.not_first
        have hlater : KeepsLater fd ts bufs.length := by
          intro base b' bufs' s' r' hlength hs' hr' hbytes' haligned'
          exact ih _ (by rw [List.length_cons] at hn; omega) hs' hr' hbytes' haligned' rfl
        rw [cutsAvoid_add_iff hheader] at haligned ⊢
        exact keeps_payload_iff hlater hpass hfilling hheader hpayload haligned

theorem keeps_initTlvState_iff (hdiv : joined (b :: bufs) = stream ts)
    (haligned : HeaderAligned ts (b :: bufs)) :
    Keeps fd 0 b bufs initTlvState ts ↔ CutsAvoid (InsidePayload ts) b bufs 0 :=
  keeps_iff clean_initTlvState (Nat.zero_le _) hdiv haligned.cutsAvoid

/-- A run over buffers that are not cut inside a header returns with all copies within the
block, and all handlers reading the payloads that were sent, exactly if no buffer ends
strictly inside a payload. -/
theorem keepsPayloads_iff (fd : ℤ) (ts : List Tlv) (bufs : List RecvBuff)
    (hdiv : joined bufs = stream ts) (haligned : HeaderAligned ts bufs) :
    (∃ s' ev, Feeds .exact fd 0 bufs initTlvState s' ev ∧ KeepsPayloads ts ev) ↔
      PayloadAligned ts bufs := by
  cases bufs with
  | nil =>
    obtain rfl := eq_nil_of_stream_eq_nil hdiv
    exact iff_of_true ⟨_, [], .nil, keepsPayloads_nil⟩ fun _ _ _ => not_insidePayload_nil
  | cons b bufs =>
    simp only [feeds_cons_iff]
    refine (keeps_initTlvState_iff hdiv haligned).trans (cutsAvoid_iff.trans ?_)
    constructor
    · intro h front back hfront
      cases front with
      | nil =>
        -- the stream begins with a header
        rintro ⟨before, t, after, -, hlo, -⟩
        change _ < 0 at hlo
        omega
      | cons b₁ front => exact h _ back hfront (List.cons_ne_nil _ _)
    · intro h front back hfront _
      exact h front back hfront

/-- The same messages, cut behind both headers. -/
def behindHeadersBuffs : List RecvBuff :=
  [⟨[4, 0, 0, 0, 1], RecvBuff.five_lt⟩, ⟨[4, 1, 0, 0, 0, 3], by decide⟩,
    ⟨[104, 105, 10], by decide⟩]

theorem keepsPayloads_behindHeaders :
    (∃ s' ev, Feeds .exact 4 0 behindHeadersBuffs initTlvState s' ev ∧
      KeepsPayloads keepAliveThenText ev) ↔
      PayloadAligned keepAliveThenText behindHeadersBuffs :=
  keepsPayloads_iff 4 keepAliveThenText behindHeadersBuffs (by decide) (by decide)

/-- The second piece of a text is copied behind the first, to a block with room for the
second alone. -/
theorem not_keepsPayloads_cutText :
    joined keepAliveThenTextBuffs = stream keepAliveThenText ∧
      HeaderAligned keepAliveThenText keepAliveThenTextBuffs ∧
      (∀ b ∈ keepAliveThenTextBuffs, b.bytes ≠ []) ∧
      ¬ ∃ s' ev, Feeds .exact 4 0 keepAliveThenTextBuffs initTlvState s' ev ∧
        KeepsPayloads keepAliveThenText ev := by
  have hdiv : joined keepAliveThenTextBuffs = stream keepAliveThenText := by decide
  have haligned : HeaderAligned keepAliveThenText keepAliveThenTextBuffs := by decide
  refine ⟨hdiv, haligned, by decide, ?_⟩
  rintro ⟨s', ev, hrun, hkeeps⟩
  have hcuts := (keeps_initTlvState_iff hdiv haligned).mp ⟨s', ev, feeds_cons_iff.mp hrun, hkeeps⟩
  -- the second buffer ends behind the first letter
  have hinside : InsidePayload keepAliveThenText 12 :=
    insidePayload_cons_iff.mpr (.inr ⟨by decide, insidePayload_cons_iff.mpr (.inl (by decide))⟩)
  exact hcuts.2.1 hinside

end Multicast
