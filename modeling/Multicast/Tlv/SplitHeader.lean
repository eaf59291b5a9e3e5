import Multicast.Tlv.Runs

/-!
# Headers cut by the end of a buffer

A header that is cut is taken apart byte by byte. Every length byte is copied to
the same address, so that only the last of them stays, and the block behind it
does not know whether a header was just completed: with five more bytes in the
buffer it reads them as the next header.

What the receiver makes of a cut header is compared with what it makes of the same
header in one piece, over all buffers that follow. Two states that differ only in
what the code never reads again are `Alike`; the passes from such states end
alike, whatever the buffer holds.

## Main definitions

* `Multicast.Alike` — two states at the label that behave alike
* `Multicast.HeaderCut` — a way of cutting a header, and the bytes behind it
* `Multicast.RecoversHeader` — the cut makes no difference

## Main results

* `Alike.passOn` — passes from states that are alike end alike
* `exists_feeds_of_alike` — and so do all calls that follow
* `recoversHeader_iff` — a cut makes no difference exactly when the length fits one
  byte and fewer than five bytes follow the header in its last buffer
-/

set_option autoImplicit false

namespace Multicast

open HeapBlock GotoLoop

/-- Two states at the label, in a call on `b`, that behave alike. The fields that are
left out, the counters of an unfinished header and the low byte of its length, are
set before they are read. -/
inductive Alike (b : RecvBuff) (s s' : TLVState) : Prop
  | idle {r : ℕ} (h : Idle s r) (h' : Idle s' r) (hr : r ≤ b.bytes.length)
      (data : s.tlvData = s'.tlvData)
      (high : s.currentTlvHeader.length.toNat / 256 = s'.currentTlvHeader.length.toNat / 256)
  | split {type : UInt8} {k high : ℕ} (h : SplitHeader s type k high)
      (h' : SplitHeader s' type k high) (data : s.tlvData = s'.tlvData)
  | pending {type : UInt8} {len : Word} {got : ℕ} (h : Pending s type len got)
      (h' : Pending s' type len got) (data : s.tlvData = s'.tlvData)

variable (al : Allocator) (fd : ℤ) {b b₁ b₂ : RecvBuff} {s s' s₁ s₂ : TLVState}
variable {type : UInt8} {len : Word} {got r r₁ r₂ k high : ℕ}

/-! ### Payloads -/

/-- Two receivers fill the same payload from the same bytes. -/
inductive FillsAlike (b₁ b₂ : RecvBuff) (s₁ s₂ : TLVState) (type : UInt8) (len : Word)
    (got r₁ r₂ : ℕ) : Prop
  | ret (room : ℕ) (bytes : List UInt8) (s₁' s₂' : TLVState)
      (fill₁ : fill al b₁.bytes b₁.len fd s₁ =
        (.ret (tlvContinue, s₁'), [.memcpy r₁ got room bytes]))
      (fill₂ : fill al b₂.bytes b₂.len fd s₂ =
        (.ret (tlvContinue, s₂'), [.memcpy r₂ got room bytes]))
      (alike : ∀ b, Alike b s₁' s₂')
  | call (room : ℕ) (bytes : List UInt8) (s₁' s₂' : TLVState) (handlerCall : HandlerCall)
      (fill₁ : fill al b₁.bytes b₁.len fd s₁ =
        (.goto s₁', [.memcpy r₁ got room bytes, .call handlerCall]))
      (fill₂ : fill al b₂.bytes b₂.len fd s₂ =
        (.goto s₂', [.memcpy r₂ got room bytes, .call handlerCall]))
      (clean₁ : Clean s₁' (r₁ + (len.toNat - got))) (clean₂ : Clean s₂' (r₂ + (len.toNat - got)))
      (within₁ : r₁ + (len.toNat - got) ≤ b₁.bytes.length)
      (within₂ : r₂ + (len.toNat - got) ≤ b₂.bytes.length)
  | discard (room : ℕ) (bytes : List UInt8) (s₁' s₂' : TLVState)
      (unknown : TlvType.ofCode type = none)
      (fill₁ : fill al b₁.bytes b₁.len fd s₁ =
        (.goto s₁', [.memcpy r₁ got room bytes, .discard type (r₁ + (len.toNat - got))]))
      (fill₂ : fill al b₂.bytes b₂.len fd s₂ =
        (.goto s₂', [.memcpy r₂ got room bytes, .discard type (r₂ + (len.toNat - got))]))
      (alike : ∀ b, Alike b s₁' s₂')

theorem fillsAlike (h₁ : Filling s₁ type len got r₁) (h₂ : Filling s₂ type len got r₂)
    (hr₁ : r₁ ≤ b₁.bytes.length) (hr₂ : r₂ ≤ b₂.bytes.length)
    (hleft : b₁.bytes.drop r₁ = b₂.bytes.drop r₂) (hdata : s₁.tlvData = s₂.tlvData) :
    FillsAlike al fd b₁ b₂ s₁ s₂ type len got r₁ r₂ := by
  have hcount := congrArg List.length hleft
  rw [List.length_drop, List.length_drop] at hcount
  have hrem := h₁.rem_add
  rcases Nat.lt_or_ge (b₁.bytes.length - r₁ + got) len.toNat with hlt | hle
  · -- the payload goes on behind both buffers
    obtain ⟨s₁', hfill₁, hpending₁, hdata₁⟩ := fill_of_lt al fd h₁ hr₁ hlt
    obtain ⟨s₂', hfill₂, hpending₂, hdata₂⟩ := fill_of_lt al fd h₂ hr₂ (by omega)
    rw [← hcount, ← hleft, ← hdata] at hfill₂ hdata₂
    rw [← hcount] at hpending₂
    exact .ret _ _ s₁' s₂' hfill₁ hfill₂
      fun b => .pending hpending₁ hpending₂ (hdata₁.trans hdata₂.symm)
  · have hle₂ : len.toNat ≤ b₂.bytes.length - r₂ + got := by omega
    cases ht : TlvType.ofCode type with
    | some t =>
      obtain ⟨s₁', hfill₁, hclean₁⟩ := fill_of_known al fd ht h₁ hr₁ hle
      obtain ⟨s₂', hfill₂, hclean₂⟩ := fill_of_known al fd ht h₂ hr₂ hle₂
      rw [← hleft, ← hdata] at hfill₂
      exact .call _ _ s₁' s₂' _ hfill₁ hfill₂ hclean₁ hclean₂ (by omega) (by omega)
    | none =>
      obtain ⟨s₁', hfill₁, hback₁, hheader₁, hdata₁⟩ := fill_of_unknown al fd ht h₁ hr₁ hle
      obtain ⟨s₂', hfill₂, hback₂, hheader₂, hdata₂⟩ := fill_of_unknown al fd ht h₂ hr₂ hle₂
      rw [← hleft, ← hdata] at hfill₂ hdata₂
      refine .discard _ _ s₁' s₂' ht hfill₁ hfill₂
        fun b => .idle hback₁ hback₂ (Nat.zero_le _) (hdata₁.trans hdata₂.symm) ?_
      rw [hheader₁, hheader₂]

/-! ### Alike states -/

variable {al fd}

theorem Alike.symm (h : Alike b s s') : Alike b s' s := by
  cases h with
  | idle h h' hr hdata hhigh => exact .idle h' h hr hdata.symm hhigh.symm
  | split h h' hdata => exact .split h' h hdata.symm
  | pending h h' hdata => exact .pending h' h hdata.symm

/-- The outcome of a pass that fills the same payload. -/
theorem FillsAlike.passRel (h : FillsAlike al fd b b s₁ s₂ type len got r r) :
    PassRel (Alike b) (fun out out' => ∀ b, Alike b out.2 out'.2)
      (fill al b.bytes b.len fd s₁) (fill al b.bytes b.len fd s₂) := by
  cases h with
  | ret room bytes s₁' s₂' h₁ h₂ halike =>
    rw [h₁, h₂]
    exact .ret halike
  | call room bytes s₁' s₂' handlerCall h₁ h₂ hclean₁ hclean₂ hwithin _ =>
    rw [h₁, h₂]
    refine .goto (.idle hclean₁.toIdle hclean₂.toIdle hwithin ?_ ?_)
    · rw [hclean₁.data_eq, hclean₂.data_eq]
    · rw [hclean₁.length_eq, hclean₂.length_eq]
  | discard room bytes s₁' s₂' _ h₁ h₂ halike =>
    rw [h₁, h₂]
    exact .goto (halike b)

/-- **One pass.** Passes from states that are alike end alike. -/
theorem Alike.passOn (al : Allocator) (fd : ℤ) (h : Alike b s s') :
    PassRel (Alike b) (fun out out' => ∀ b, Alike b out.2 out'.2)
      (passOn al fd b s) (passOn al fd b s') := by
  cases h with
  | @idle r h h' hr hdata hhigh =>
    -- where the states begin does not matter, only how much of the buffer is left
    rcases Nat.eq_or_lt_of_le hr with rfl | hlt
    · rw [passOn_idle_end al fd h, passOn_idle_end al fd h']
      exact .ret fun b => .idle h.rewind h'.rewind (Nat.zero_le _) hdata hhigh
    rcases Nat.lt_or_ge b.bytes.length (r + 5) with hshort | hwhole
    · obtain ⟨s₁, hpass, hsplit, hdata₁⟩ := passOn_idle_short al fd h hlt hshort
      obtain ⟨s₁', hpass', hsplit', hdata₁'⟩ := passOn_idle_short al fd h' hlt hshort
      rw [← hhigh] at hsplit'
      rw [hpass, hpass']
      exact .ret fun b => .split hsplit hsplit' (by rw [hdata₁, hdata₁', hdata])
    · obtain ⟨s₁, hpass, hfilling, -, hdata₁⟩ := passOn_idle al fd h hwhole
      obtain ⟨s₁', hpass', hfilling', -, hdata₁'⟩ := passOn_idle al fd h' hwhole
      rw [hpass, hpass']
      exact (fillsAlike al fd hfilling hfilling' hwhole hwhole rfl
        (hdata₁.trans hdata₁'.symm)).passRel
  | @split type k high h h' hdata =>
    rcases Nat.eq_zero_or_pos b.bytes.length with hempty | hpos
    · rw [passOn_split_empty al fd h hempty, passOn_split_empty al fd h' hempty]
      exact .ret fun b => .split
        ⟨h.type_eq, h.high_eq, rfl, h.c_eq, h.rem_eq, h.header_not_complete, h.complete, h.k_eq,
          h.k_lt⟩
        ⟨h'.type_eq, h'.high_eq, rfl, h'.c_eq, h'.rem_eq, h'.header_not_complete, h'.complete,
          h'.k_eq, h'.k_lt⟩ hdata
    rcases Nat.lt_or_ge (k + b.bytes.length) 4 with hshort | hfull
    · obtain ⟨s₁, hpass, hsplit, hdata₁⟩ := passOn_split_short al fd h hpos hshort
      obtain ⟨s₁', hpass', hsplit', hdata₁'⟩ := passOn_split_short al fd h' hpos hshort
      rw [hpass, hpass']
      exact .ret fun b => .split hsplit hsplit' (by rw [hdata₁, hdata₁', hdata])
    have hheader : 4 - k ≤ b.bytes.length := by omega
    rcases Nat.lt_or_ge b.bytes.length (4 - k + 5) with hfew | hmany
    · obtain ⟨s₁, hpass, hfilling, -, hdata₁⟩ := passOn_split_few al fd h hheader hfew
      obtain ⟨s₁', hpass', hfilling', -, hdata₁'⟩ := passOn_split_few al fd h' hheader hfew
      rw [hpass, hpass']
      exact (fillsAlike al fd hfilling hfilling' hheader hheader rfl
        (by rw [hdata₁, hdata₁', hdata])).passRel
    · obtain ⟨s₁, hpass, hfilling, -, hdata₁⟩ := passOn_split_many al fd h hmany
      obtain ⟨s₁', hpass', hfilling', -, hdata₁'⟩ := passOn_split_many al fd h' hmany
      rw [hpass, hpass']
      exact (fillsAlike al fd hfilling hfilling' hmany hmany rfl
        (hdata₁.trans hdata₁'.symm)).passRel
  | pending h h' hdata =>
    rw [passOn_pending al fd h, passOn_pending al fd h']
    exact (fillsAlike al fd h.toFilling h'.toFilling (Nat.zero_le _) (Nat.zero_le _) rfl
      hdata).passRel

/-- **All calls that follow.** From states that are alike, calls on the same buffers
return after the same events. -/
theorem exists_feeds_of_alike {base : ℕ} {bufs : List RecvBuff} {s₁ : TLVState} {ev : List Event}
    (h : Feeds al fd base bufs s s₁ ev) (halike : ∀ b, Alike b s s') :
    ∃ s₁', Feeds al fd base bufs s' s₁' ev := by
  induction h generalizing s' with
  | nil => exact ⟨_, .nil⟩
  | @cons base b bufs _ _ _ _ _ hcall _ ih =>
    obtain ⟨code, hret⟩ := hcall
    obtain ⟨⟨code', s₂⟩, hret', halike'⟩ :=
      hret.simulate (fun _ _ h => h.passOn al fd) (halike b)
    obtain ⟨s₁', hrest⟩ := ih halike'
    exact ⟨s₁', .cons ⟨code', hret'⟩ hrest⟩

theorem feeds_iff_of_alike {base : ℕ} {bufs : List RecvBuff} {ev : List Event}
    (halike : ∀ b, Alike b s s') :
    (∃ s₁, Feeds al fd base bufs s s₁ ev) ↔ ∃ s₁, Feeds al fd base bufs s' s₁ ev :=
  ⟨fun ⟨_, h⟩ => exists_feeds_of_alike h halike,
    fun ⟨_, h⟩ => exists_feeds_of_alike h fun b => (halike b).symm⟩

/-! ### Cut headers -/

/-- A way of cutting the header of a message with a known type and any length: the
buffers `frags` hold the first bytes of it, the next buffer holds the rest, `tail`,
and the bytes `following` that come behind the header. -/
structure HeaderCut (type : TlvType) (len : Word) where
  frags : List RecvBuff
  tail : List UInt8
  following : List UInt8
  cut : joined frags ++ tail = type.code :: htonl len
  frags_ne : joined frags ≠ []
  tail_ne : tail ≠ []
  fits : 5 + following.length < 2 ^ 31

namespace HeaderCut

variable {t : TlvType} (cut : HeaderCut t len)

theorem length_cut : (joined cut.frags).length + cut.tail.length = 5 := by
  have h := congrArg List.length cut.cut
  simpa using h

/-- The buffer in which the header ends. -/
def last : RecvBuff where
  bytes := cut.tail ++ cut.following
  length_lt := by
    have h := cut.length_cut
    have hfits := cut.fits
    rw [List.length_append]
    omega

/-- The buffer that holds the header in one piece. -/
def whole : RecvBuff where
  bytes := t.code :: htonl len ++ cut.following
  length_lt := by
    have hfits := cut.fits
    rw [List.length_append]
    exact hfits

/-- The length bytes among the first part of the header. -/
def taken : ℕ := (joined cut.frags).length - 1

theorem taken_add : cut.taken + 1 = (joined cut.frags).length := by
  have h := List.length_pos_iff.mpr cut.frags_ne
  rw [taken]
  omega

theorem tail_eq : cut.tail.length = 4 - cut.taken := by
  have h := cut.length_cut
  have h' := cut.taken_add
  omega

theorem taken_lt : cut.taken < 4 := by
  have h := cut.length_cut
  have h' := cut.taken_add
  have htail := List.length_pos_iff.mpr cut.tail_ne
  omega

@[simp] theorem length_last :
    cut.last.bytes.length = cut.tail.length + cut.following.length := List.length_append

@[simp] theorem length_whole : cut.whole.bytes.length = 5 + cut.following.length := by
  rw [whole, List.length_append]
  rfl

/-- The last byte of the header is the low byte of the length. -/
theorem getD_last : cut.last.bytes.getD (3 - cut.taken) 0 = UInt8.ofNat len.toNat := by
  have hlen := cut.taken_add
  have hlt := cut.taken_lt
  have hbytes : (joined cut.frags ++ cut.last.bytes).getD 4 0 = UInt8.ofNat len.toNat := by
    rw [last, ← List.append_assoc, cut.cut]
    rfl
  rw [List.getD_eq_getElem?_getD, List.getElem?_append_right (by omega)] at hbytes
  rw [← hbytes, List.getD_eq_getElem?_getD]
  congr 2
  omega

end HeaderCut

/-- A cut makes no difference. The receiver comes out of the header with the type and
the length that were sent and takes the bytes behind the header for the payload; and
whatever follows, the calls return after the same events as when the header is in one
piece. -/
def RecoversHeader (al : Allocator) (fd : ℤ) {type : TlvType} (cut : HeaderCut type len)
    (s : TLVState) : Prop :=
  (∃ s₀ s₁, Feeds al fd 0 cut.frags s s₀ [] ∧
    passOn al fd cut.last s₀ = fill al cut.last.bytes cut.last.len fd s₁ ∧
    Filling s₁ type.code len 0 cut.tail.length) ∧
  ∀ later ev, (∃ s', Feeds al fd 0 (cut.frags ++ cut.last :: later) s s' ev) ↔
    ∃ s', Feeds al fd 0 (cut.whole :: later) s s' ev

variable (al fd)

/-- Buffers that hold nothing but length bytes. -/
theorem exists_feeds_split {bufs : List RecvBuff} (base : ℕ) (h : SplitHeader s type k high)
    (hshort : k + (joined bufs).length < 4) :
    ∃ s', Feeds al fd base bufs s s' [] ∧ SplitHeader s' type (k + (joined bufs).length) high ∧
      s'.tlvData = s.tlvData := by
  induction bufs generalizing s k base with
  | nil => exact ⟨s, .nil, by simpa using h, rfl⟩
  | cons b bufs ih =>
    rw [joined_cons, List.length_append] at hshort
    obtain ⟨code, s₁, hpass, hsplit, hdata⟩ : ∃ code s₁, passOn al fd b s = (.ret (code, s₁), []) ∧
        SplitHeader s₁ type (k + b.bytes.length) high ∧ s₁.tlvData = s.tlvData := by
      rcases Nat.eq_zero_or_pos b.bytes.length with hempty | hpos
      · refine ⟨_, _, passOn_split_empty al fd h hempty, ?_, rfl⟩
        rw [hempty, Nat.add_zero]
        exact ⟨h.type_eq, h.high_eq, rfl, h.c_eq, h.rem_eq, h.header_not_complete, h.complete,
          h.k_eq, h.k_lt⟩
      · obtain ⟨s₁, hpass, hsplit, hdata⟩ := passOn_split_short al fd h hpos (by omega)
        exact ⟨_, s₁, hpass, hsplit, hdata⟩
    obtain ⟨s', hrun, hsplit', hdata'⟩ := ih (base + b.bytes.length) hsplit (by omega)
    refine ⟨s', .cons ⟨code, .ret hpass⟩ hrun, ?_, hdata'.trans hdata⟩
    rwa [joined_cons, List.length_append, ← Nat.add_assoc]

/-- The first bytes of a header, in one buffer or several. -/
theorem exists_feeds_cut {bufs : List RecvBuff} (base : ℕ) {c : UInt8} {more : List UInt8}
    (h : Idle s 0) (hbytes : joined bufs = c :: more) (hshort : more.length < 4) :
    ∃ s', Feeds al fd base bufs s s' [] ∧
      SplitHeader s' c more.length (s.currentTlvHeader.length.toNat / 256) ∧
      s'.tlvData = s.tlvData := by
  induction bufs generalizing s base with
  | nil => simp at hbytes
  | cons b bufs ih =>
    cases hb : b.bytes with
    | nil =>
      -- an empty buffer changes nothing
      rw [joined_cons, hb, List.nil_append] at hbytes
      have hend : Idle s b.bytes.length := by rwa [hb]
      obtain ⟨s', hrun, hsplit, hdata⟩ := ih (base + b.bytes.length) h.rewind hbytes
      exact ⟨s', .cons ⟨_, .ret (passOn_idle_end al fd hend)⟩ hrun, hsplit, hdata⟩
    | cons c' rest =>
      rw [joined_cons, hb, List.cons_append] at hbytes
      obtain ⟨rfl, rfl⟩ := List.cons_eq_cons.mp hbytes
      have hlen : b.bytes.length = rest.length + 1 := by rw [hb, List.length_cons]
      rw [List.length_append] at hshort
      obtain ⟨s₁, hpass, hsplit, hdata⟩ :=
        passOn_idle_short al fd (b := b) h (by omega) (by omega)
      have htype : b.bytes.getD 0 0 = c' := by rw [hb]; rfl
      have hk : b.bytes.length - 0 - 1 = rest.length := by omega
      rw [htype, hk] at hsplit
      obtain ⟨s', hrun, hsplit', hdata'⟩ :=
        exists_feeds_split al fd (base + b.bytes.length) hsplit hshort
      refine ⟨s', .cons ⟨_, .ret hpass⟩ hrun, ?_, hdata'.trans hdata⟩
      rwa [List.length_append]

/-- The cut header up to its last buffer. -/
theorem HeaderCut.exists_feeds_frags {t : TlvType} (cut : HeaderCut t len) (hs : Clean s 0) :
    ∃ s₀, Feeds al fd 0 cut.frags s s₀ [] ∧ SplitHeader s₀ t.code cut.taken 0 ∧
      s₀.tlvData = .null := by
  obtain ⟨c, more, hbytes⟩ := List.exists_cons_of_ne_nil cut.frags_ne
  have hc : c = t.code := by
    have h := cut.cut
    rw [hbytes, List.cons_append] at h
    exact (List.cons_eq_cons.mp h).1
  have hmore : more.length = cut.taken := by rw [HeaderCut.taken, hbytes]; rfl
  obtain ⟨s₀, hrun, hsplit, hdata⟩ :=
    exists_feeds_cut al fd 0 hs.toIdle hbytes (by have := cut.taken_lt; omega)
  rw [hc, hmore, hs.length_eq] at hsplit
  exact ⟨s₀, hrun, hsplit, hdata.trans hs.data_eq⟩

/-! ### The header read wrongly -/

/-- The first copy of a pass over a payload begins where the payload does. -/
theorem src_eq_of_fill_eq (h₁ : Filling s₁ type len got r₁) {type' : UInt8} {len' : Word}
    {got' : ℕ} (h₂ : Filling s₂ type' len' got' r₂) (hr₁ : r₁ ≤ b.bytes.length)
    (hr₂ : r₂ ≤ b.bytes.length)
    (heq : fill al b.bytes b.len fd s₁ = fill al b.bytes b.len fd s₂) : r₁ = r₂ := by
  rcases fill_cases al fd h₁ hr₁ with ⟨-, _, _, _, hfill, -⟩ | ⟨-, _, _, _, _, _, -, hfill, -⟩ |
    ⟨-, -, _, _, _, hfill, -⟩ <;>
  rcases fill_cases al fd h₂ hr₂ with ⟨-, _, _, _, hfill', -⟩ | ⟨-, _, _, _, _, _, -, hfill', -⟩ |
    ⟨-, -, _, _, _, hfill', -⟩ <;>
  simp_all

/-- The length of a message of a known type can be told from the pass over its
payload. -/
theorem len_eq_of_fill_eq {t : TlvType} {len' : Word} (h₁ : Filling s₁ t.code len 0 r)
    (h₂ : Filling s₂ t.code len' 0 r) (hr : r ≤ b.bytes.length)
    (heq : fill al b.bytes b.len fd s₁ = fill al b.bytes b.len fd s₂) : len = len' := by
  rcases fill_cases al fd h₁ hr with ⟨-, s₁', _, _, hfill, hpending⟩ |
    ⟨-, _, s₁', _, _, _, -, hfill, hclean⟩ | ⟨-, hnone, -⟩
  · rcases fill_cases al fd h₂ hr with ⟨-, s₂', _, _, hfill', hpending'⟩ |
      ⟨-, _, s₂', _, _, _, -, hfill', -⟩ | ⟨-, hnone, -⟩
    · obtain rfl : s₁' = s₂' := by simp_all
      have hheader := hpending.header_eq.symm.trans hpending'.header_eq
      simpa using hheader
    · simp_all
    · simp at hnone
  · rcases fill_cases al fd h₂ hr with ⟨-, s₂', _, _, hfill', -⟩ |
      ⟨-, _, s₂', _, _, _, -, hfill', hclean'⟩ | ⟨-, hnone, -⟩
    · simp_all
    · obtain rfl : s₁' = s₂' := by simp_all
      have hcursor := hclean.r_eq.symm.trans hclean'.r_eq
      exact BitVec.eq_of_toNat_eq (by omega)
    · simp at hnone
  · simp at hnone

/-- The length that the receiver makes of a cut header is what was sent only if it
fits one byte. -/
theorem splitLength_eq_iff : splitLength 0 (UInt8.ofNat len.toNat) = len ↔ len.toNat < 256 := by
  have hlen := len.isLt
  rw [← BitVec.toNat_inj, splitLength, BitVec.toNat_ofNat, UInt8.toNat_ofNat']
  omega

/-! ### The exact condition -/

variable {t : TlvType}

/-- A receiver that comes out of the header rightly had fewer than five more bytes
and a length of one byte. -/
theorem HeaderCut.few_of_filling (cut : HeaderCut t len) {s₀ : TLVState}
    (hsplit : SplitHeader s₀ t.code cut.taken 0)
    (hpass : passOn al fd cut.last s₀ = fill al cut.last.bytes cut.last.len fd s₁)
    (hfilling : Filling s₁ t.code len 0 cut.tail.length) :
    cut.following.length < 5 ∧ len.toNat < 256 := by
  have htail := cut.tail_eq
  have hlast := cut.length_last
  have hwithin : cut.tail.length ≤ cut.last.bytes.length := by omega
  rcases Nat.lt_or_ge cut.following.length 5 with hfew | hmany
  · -- the header is kept, with the length that its last byte makes
    obtain ⟨s₂, hpass', hfilling', -, -⟩ :=
      passOn_split_few al fd hsplit (by omega) (by omega) (b := cut.last)
    rw [cut.getD_last, ← htail] at hfilling'
    have hlen := len_eq_of_fill_eq al fd hfilling hfilling' hwithin (hpass.symm.trans hpass')
    exact ⟨hfew, splitLength_eq_iff.mp hlen.symm⟩
  · -- the pass reads a payload that begins five bytes later
    obtain ⟨s₂, hpass', hfilling', -, -⟩ :=
      passOn_split_many al fd hsplit (by omega) (b := cut.last)
    have hsrc := src_eq_of_fill_eq al fd hfilling hfilling' hwithin (by omega)
      (hpass.symm.trans hpass')
    omega

theorem few_of_recoversHeader {cut : HeaderCut t len} (hs : Clean s 0)
    (h : RecoversHeader al fd cut s) : cut.following.length < 5 ∧ len.toNat < 256 := by
  obtain ⟨⟨s₀, s₁, hfrags, hpass, hfilling⟩, -⟩ := h
  obtain ⟨s₀', hfrags', hsplit, -⟩ := cut.exists_feeds_frags al fd hs
  obtain ⟨rfl, -⟩ := hfrags.unique hfrags'
  exact cut.few_of_filling al fd hsplit hpass hfilling

/-- Fewer than five bytes are left, in two buffers that end at the same offset of the
stream. The next calls do the same. -/
theorem continues_iff_of_short {base₁ base₂ : ℕ} {later : List RecvBuff} {ev : List Event}
    (h₁ : Clean s₁ r₁) (h₂ : Clean s₂ r₂) (hr₁ : r₁ ≤ b₁.bytes.length)
    (hr₂ : r₂ ≤ b₂.bytes.length) (hleft : b₁.bytes.drop r₁ = b₂.bytes.drop r₂)
    (hshort : b₁.bytes.length < r₁ + 5)
    (hend : base₁ + b₁.bytes.length = base₂ + b₂.bytes.length) :
    (∃ s', Continues al fd base₁ b₁ later s₁ s' ev) ↔
      ∃ s', Continues al fd base₂ b₂ later s₂ s' ev := by
  have hcount := congrArg List.length hleft
  rw [List.length_drop, List.length_drop] at hcount
  suffices h : ∃ code₁ code₂ s₁' s₂', passOn al fd b₁ s₁ = (.ret (code₁, s₁'), []) ∧
      passOn al fd b₂ s₂ = (.ret (code₂, s₂'), []) ∧ ∀ b, Alike b s₁' s₂' by
    obtain ⟨code₁, code₂, s₁', s₂', hpass₁, hpass₂, halike⟩ := h
    simpa [continues_ret_iff hpass₁, continues_ret_iff hpass₂, hend] using
      feeds_iff_of_alike halike
  -- both buffers are used up, or both end in the same part of a header
  rcases Nat.eq_or_lt_of_le hr₁ with rfl | hlt
  · obtain rfl : r₂ = b₂.bytes.length := by omega
    refine ⟨_, _, _, _, passOn_idle_end al fd h₁.toIdle, passOn_idle_end al fd h₂.toIdle,
      fun b => .idle h₁.toIdle.rewind h₂.toIdle.rewind (Nat.zero_le _) ?_ ?_⟩
    · exact h₁.data_eq.trans h₂.data_eq.symm
    · exact congrArg (·.toNat / 256) (h₁.length_eq.trans h₂.length_eq.symm)
  · obtain ⟨s₁', hpass₁, hsplit₁, hdata₁⟩ := passOn_idle_short al fd h₁.toIdle hlt hshort
    obtain ⟨s₂', hpass₂, hsplit₂, hdata₂⟩ :=
      passOn_idle_short al fd (b := b₂) h₂.toIdle (by omega) (by omega)
    have htype : b₂.bytes.getD r₂ 0 = b₁.bytes.getD r₁ 0 := by
      have h := congrArg (·.getD 0 0) hleft
      simpa [List.getD_eq_getElem?_getD] using h.symm
    rw [htype, ← hcount, h₂.length_eq, ← h₁.length_eq] at hsplit₂
    refine ⟨_, _, _, _, hpass₁, hpass₂, fun b => .split hsplit₁ hsplit₂ ?_⟩
    rw [hdata₁, hdata₂, h₁.data_eq, h₂.data_eq]

/-- A payload of a known type is filled from the same bytes, and fewer than five bytes
are left behind the header. -/
theorem continues_iff_of_fillsAlike {base₁ base₂ : ℕ} {later : List RecvBuff} {ev : List Event}
    (hpass₁ : passOn al fd b₁ s = fill al b₁.bytes b₁.len fd s₁)
    (hpass₂ : passOn al fd b₂ s' = fill al b₂.bytes b₂.len fd s₂)
    (h : FillsAlike al fd b₁ b₂ s₁ s₂ t.code len got r₁ r₂)
    (hleft : b₁.bytes.drop r₁ = b₂.bytes.drop r₂) (hshort : b₁.bytes.length < r₁ + 5)
    (hstart : base₁ + r₁ = base₂ + r₂)
    (hend : base₁ + b₁.bytes.length = base₂ + b₂.bytes.length) :
    (∃ u, Continues al fd base₁ b₁ later s u ev) ↔
      ∃ u, Continues al fd base₂ b₂ later s' u ev := by
  cases h with
  | ret room bytes s₁' s₂' hfill₁ hfill₂ halike =>
    simp only [continues_ret_iff (hpass₁.trans hfill₁), continues_ret_iff (hpass₂.trans hfill₂),
      hend, List.map_cons, List.map_nil, Event.shift, hstart]
    constructor
    · rintro ⟨u, rest, rfl, hrest⟩
      obtain ⟨u', hrest'⟩ := exists_feeds_of_alike hrest halike
      exact ⟨u', rest, rfl, hrest'⟩
    · rintro ⟨u, rest, rfl, hrest⟩
      obtain ⟨u', hrest'⟩ := exists_feeds_of_alike hrest fun b => (halike b).symm
      exact ⟨u', rest, rfl, hrest'⟩
  | call room bytes s₁' s₂' handlerCall hfill₁ hfill₂ hclean₁ hclean₂ hwithin₁ hwithin₂ =>
    -- the passes jump back with the same bytes left, too few for a header
    have hleft' : b₁.bytes.drop (r₁ + (len.toNat - got)) =
        b₂.bytes.drop (r₂ + (len.toNat - got)) := by
      rw [← List.drop_drop, ← List.drop_drop, hleft]
    have hnext (rest : List Event) :
        (∃ u, Continues al fd base₁ b₁ later s₁' u rest) ↔
          ∃ u, Continues al fd base₂ b₂ later s₂' u rest :=
      continues_iff_of_short al fd hclean₁ hclean₂ hwithin₁ hwithin₂ hleft' (by omega) hend
    simp only [continues_goto_iff (hpass₁.trans hfill₁), continues_goto_iff (hpass₂.trans hfill₂),
      List.map_cons, List.map_nil, Event.shift, hstart]
    constructor
    · rintro ⟨u, rest, rfl, hrest⟩
      obtain ⟨u', hrest'⟩ := (hnext rest).mp ⟨u, hrest⟩
      exact ⟨u', rest, rfl, hrest'⟩
    · rintro ⟨u, rest, rfl, hrest⟩
      obtain ⟨u', hrest'⟩ := (hnext rest).mpr ⟨u, hrest⟩
      exact ⟨u', rest, rfl, hrest'⟩
  | discard _ _ _ _ hunknown => simp at hunknown

/-- **Cut headers.** A cut makes no difference if and only if fewer than five bytes
follow the header in the buffer in which it ends, and the length fits one byte. -/
theorem recoversHeader_iff (al : Allocator) (fd : ℤ) {t : TlvType} {len : Word}
    (cut : HeaderCut t len) (s : TLVState) (hs : Clean s 0) :
    RecoversHeader al fd cut s ↔ cut.following.length < 5 ∧ len.toNat < 256 := by
  constructor
  · exact few_of_recoversHeader al fd hs
  · rintro ⟨hfew, hbyte⟩
    obtain ⟨s₀, hfrags, hsplit, hdata⟩ := cut.exists_feeds_frags al fd hs
    have htail := cut.tail_eq
    have htaken := cut.taken_add
    have hlength := cut.length_cut
    have hlast := cut.length_last
    have hwhole := cut.length_whole
    obtain ⟨s₁, hpass₁, hfilling₁, -, hdata₁⟩ :=
      passOn_split_few al fd hsplit (by omega) (by omega) (b := cut.last)
    rw [cut.getD_last, splitLength_eq_iff.mpr hbyte, ← htail] at hfilling₁
    refine ⟨⟨s₀, s₁, hfrags, hpass₁, hfilling₁⟩, fun later ev => ?_⟩
    obtain ⟨s₂, hpass₂, hfilling₂, -, hdata₂⟩ :=
      passOn_idle al fd hs.toIdle (by omega) (b := cut.whole)
    have hheader : cut.whole.headerAt 0 = ⟨t.code, len⟩ := headerOf_cons_htonl _ _ _
    rw [hheader] at hfilling₂
    have hleft : cut.last.bytes.drop cut.tail.length = cut.whole.bytes.drop (0 + 5) := by
      rw [HeaderCut.last, List.drop_left' rfl]
      rfl
    have hfills := fillsAlike al fd hfilling₁ hfilling₂ (by omega) (by omega) hleft
      (by rw [hdata₁, hdata, hdata₂])
    -- the fragments make no event, so that only the last buffer is compared
    have hsame : (∃ s', Continues al fd (joined cut.frags).length cut.last later s₀ s' ev) ↔
        ∃ s', Continues al fd 0 cut.whole later s s' ev :=
      continues_iff_of_fillsAlike al fd hpass₁ hpass₂ hfills hleft (by omega) (by omega) (by omega)
    simp only [feeds_append_iff, feeds_cons_iff, Nat.zero_add]
    rw [← hsame]
    constructor
    · rintro ⟨s', s₀', ev₁, ev₂, hfrags', hrest, rfl⟩
      obtain ⟨rfl, rfl⟩ := hfrags.unique hfrags'
      exact ⟨s', hrest⟩
    · rintro ⟨s', hrest⟩
      exact ⟨s', s₀, [], ev, hfrags, hrest, rfl⟩

/-- A keepalive message whose header is cut behind its type. -/
def keepAliveCut (following : List UInt8) (fits : 5 + following.length < 2 ^ 31) :
    HeaderCut .keepAlive 1 where
  frags := [⟨[4], by decide⟩]
  tail := [0, 0, 0, 1]
  following := following
  cut := by decide
  frags_ne := by decide
  tail_ne := by decide
  fits := fits

theorem recoversHeader_keepAliveCut :
    RecoversHeader .exact 4 (keepAliveCut [4] (by decide)) initTlvState :=
  (recoversHeader_iff .exact 4 (keepAliveCut [4] (by decide)) initTlvState
    clean_initTlvState).mpr ⟨by decide, by decide⟩

/-- With a second keepalive message in the same buffer, the payload of the first is
read as a header. -/
theorem not_recoversHeader_keepAliveCut :
    ¬ RecoversHeader .exact 4 (keepAliveCut [4, 4, 0, 0, 0, 1, 4] (by decide)) initTlvState := by
  intro h
  obtain ⟨hfew, -⟩ := few_of_recoversHeader .exact 4 clean_initTlvState h
  exact absurd hfew (by decide)

end Multicast
