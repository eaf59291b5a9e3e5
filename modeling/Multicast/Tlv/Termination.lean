import Multicast.Tlv.Pass

/-!
# When a call of `assemble_tlv` returns

The default case of the dispatch sets the cursor back to the start of the buffer.
A message of an unknown type is therefore not consumed: the bytes of the buffer
are parsed again, from the first one, and a buffer that holds such a message as a
whole is parsed again in every pass. Every other pass moves the cursor forward.

This module follows the cursor only. It lets a pass go on that gives the allocator a block
which was released; `Multicast.Tlv.Checked` ends such calls.

Whether an unknown type is met can be read off the bytes. `UnknownEnds` follows
the messages of a byte string, `UnknownEndsIn` begins with what earlier buffers
left in the state.

## Main definitions

* `Multicast.Reachable` — the states left by earlier calls that returned
* `Multicast.UnknownEndsIn` — a message of an unknown type ends in the buffer
* `Multicast.ConsumesUnknown` — the loop goes on behind such a message

## Main results

* `passOn_cases` — what a pass can do, from every state at the label
* `Resting.assembles_iff` — a call returns, and consumes every message, exactly when no message
  of an unknown type ends in its buffer
* `not_assembles_of_unknownEnds` — a call between two messages does not return when
  one does
-/

set_option autoImplicit false

namespace Multicast

open HeapBlock GotoLoop

/-- A state between two calls. -/
inductive Resting (s : TLVState) : Prop
  | idle (h : Idle s 0)
  | split {type : UInt8} {k high : ℕ} (h : SplitHeader s type k high)
  | pending {type : UInt8} {len : Word} {got : ℕ} (h : Pending s type len got)

/-- A state at the label, in a call on `b`. -/
inductive Walking (b : RecvBuff) (s : TLVState) : Prop
  | idle {r : ℕ} (h : Idle s r) (hr : r ≤ b.bytes.length)
  | split {type : UInt8} {k high : ℕ} (h : SplitHeader s type k high)
  | pending {type : UInt8} {len : Word} {got : ℕ} (h : Pending s type len got)

/-- The states that `init_tlv_state` and calls that returned lead to. -/
inductive Reachable (al : Allocator) : TLVState → Prop
  | init : Reachable al initTlvState
  | call {fd : ℤ} {b : RecvBuff} {s s' : TLVState} {ev : List Event} :
      Reachable al s → Assembles al fd b s s' ev → Reachable al s'

/-- A message of an unknown type ends in `bs`, which begins with a header. -/
inductive UnknownEnds : List UInt8 → Prop
  | here {bs : List UInt8} :
      5 + (headerOf bs).length.toNat ≤ bs.length →
      TlvType.ofCode (headerOf bs).type = none → UnknownEnds bs
  | later {bs : List UInt8} :
      5 + (headerOf bs).length.toNat ≤ bs.length →
      UnknownEnds (bs.drop (5 + (headerOf bs).length.toNat)) → UnknownEnds bs

/-- A message of an unknown type ends in `bs`, read by a receiver in state `s`:
inside a payload, inside a header or between two messages. -/
def UnknownEndsIn (s : TLVState) (bs : List UInt8) : Prop :=
  let missing := 4 - s.lenBytesProcessed
  if s.tlvIsComplete = false then
    s.remainingBytes.toNat ≤ bs.length ∧
      (TlvType.ofCode s.currentTlvHeader.type = none ∨
        UnknownEnds (bs.drop s.remainingBytes.toNat))
  else if s.tlvHeaderIsComplete = false then
    if missing + 5 ≤ bs.length then UnknownEnds (bs.drop missing)
    else
      missing ≤ bs.length ∧ TlvType.ofCode s.currentTlvHeader.type = none ∧
        missing + (splitLength (s.currentTlvHeader.length.toNat / 256)
          (bs.getD (missing - 1) 0)).toNat ≤ bs.length
  else UnknownEnds bs

variable {al : Allocator} {fd : ℤ} {b : RecvBuff} {s s' : TLVState} {bs : List UInt8}
variable {type : UInt8} {len : Word} {got r k high : ℕ} {ev : List Event}

/-! ### Messages of unknown types in the bytes -/

theorem unknownEnds_iff : UnknownEnds bs ↔
    5 + (headerOf bs).length.toNat ≤ bs.length ∧
      (TlvType.ofCode (headerOf bs).type = none ∨
        UnknownEnds (bs.drop (5 + (headerOf bs).length.toNat))) := by
  constructor
  · rintro (⟨hle, hnone⟩ | ⟨hle, hlater⟩)
    · exact ⟨hle, .inl hnone⟩
    · exact ⟨hle, .inr hlater⟩
  · rintro ⟨hle, hnone | hlater⟩
    · exact .here hle hnone
    · exact .later hle hlater

theorem not_unknownEnds_of_short (h : bs.length < 5) : ¬ UnknownEnds bs := by
  rw [unknownEnds_iff]
  omega

theorem Idle.unknownEndsIn_iff (h : Idle s r) : UnknownEndsIn s bs ↔ UnknownEnds bs := by
  simp [UnknownEndsIn, h.complete, h.header_complete]

theorem Pending.unknownEndsIn_iff (h : Pending s type len got) :
    UnknownEndsIn s bs ↔ len.toNat - got ≤ bs.length ∧
      (TlvType.ofCode type = none ∨ UnknownEnds (bs.drop (len.toNat - got))) := by
  have hrem : s.remainingBytes.toNat = len.toNat - got := by
    have hadd := h.rem_add
    omega
  simp [UnknownEndsIn, h.not_complete, hrem, h.header_eq]

theorem SplitHeader.unknownEndsIn_iff (h : SplitHeader s type k high) :
    UnknownEndsIn s bs ↔
      if 4 - k + 5 ≤ bs.length then UnknownEnds (bs.drop (4 - k))
      else 4 - k ≤ bs.length ∧ TlvType.ofCode type = none ∧
        4 - k + (splitLength high (bs.getD (3 - k) 0)).toNat ≤ bs.length := by
  have hlast : 4 - k - 1 = 3 - k := by omega
  simp [UnknownEndsIn, h.complete, h.header_not_complete, h.k_eq, h.type_eq, h.high_eq, hlast]

/-! ### What a pass can do -/

theorem Resting.walking (h : Resting s) : Walking b s := by
  cases h with
  | idle h => exact .idle h (Nat.zero_le _)
  | split h => exact .split h
  | pending h => exact .pending h

theorem Resting.r_eq (h : Resting s) : s.r.toNat = 0 := by
  cases h with
  | idle h => exact h.r_eq
  | split h => rw [h.r_eq]; rfl
  | pending h => exact h.r_eq

/-- A pass ends in one of three ways. It returns, and no message of an unknown type
ends in what was left of the buffer; it calls a handler and moves the cursor
forward; or it meets an unknown type and moves the cursor back. -/
inductive PassEnds (al : Allocator) (fd : ℤ) (b : RecvBuff) (s : TLVState) : Prop
  | ret {code : ℕ} {s' : TLVState} {ev : List Event}
      (pass : passOn al fd b s = (.ret (code, s'), ev)) (resting : Resting s')
      (known : ¬ UnknownEndsIn s (b.bytes.drop s.r.toNat))
  | call {s' : TLVState} {r src dst room : ℕ} {bytes : List UInt8} {handlerCall : HandlerCall}
      (pass : passOn al fd b s =
        (.goto s', [.memcpy src dst room bytes, .call handlerCall]))
      (clean : Clean s' r) (forward : s.r.toNat < r) (within : r ≤ b.bytes.length)
      (unknown_iff : UnknownEndsIn s (b.bytes.drop s.r.toNat) ↔ UnknownEnds (b.bytes.drop r))
  | discard {s' : TLVState} {src dst room next : ℕ} {type : UInt8} {bytes : List UInt8}
      (pass : passOn al fd b s =
        (.goto s', [.memcpy src dst room bytes, .discard type next]))
      (back : Idle s' 0) (next_pos : 0 < next)
      (unknown : UnknownEndsIn s (b.bytes.drop s.r.toNat))

/-- A pass that reaches the payload with the cursor at `r`. The hypothesis says when
a message of an unknown type is still to come. -/
theorem passEnds_of_fill {s₁ : TLVState} (hpass : passOn al fd b s = fill al b.bytes b.len fd s₁)
    (h : Filling s₁ type len got r) (hr : r ≤ b.bytes.length)
    (hforward : s.r.toNat < r + (len.toNat - got))
    (hunknown : UnknownEndsIn s (b.bytes.drop s.r.toNat) ↔
      r + (len.toNat - got) ≤ b.bytes.length ∧
        (TlvType.ofCode type = none ∨ UnknownEnds (b.bytes.drop (r + (len.toNat - got))))) :
    PassEnds al fd b s := by
  have hrem := h.rem_add
  rcases fill_cases al fd h hr with
    ⟨hlt, s', room, bytes, hfill, hpending⟩ |
    ⟨hle, t, s', room, bytes, handlerCall, ht, hfill, hclean⟩ |
    ⟨hle, ht, s', room, bytes, hfill, hidle⟩
  · exact .ret (hpass.trans hfill) (.pending hpending) (by rw [hunknown]; omega)
  · refine .call (hpass.trans hfill) hclean hforward (by omega) ?_
    rw [hunknown, ht]
    simp only [reduceCtorEq, false_or, and_iff_right_iff_imp]
    omega
  · refine .discard (hpass.trans hfill) hidle (by omega) ?_
    rw [hunknown]
    exact ⟨by omega, .inl ht⟩

/-- Every pass, from every state at the label. -/
theorem passOn_cases (al : Allocator) (fd : ℤ) (h : Walking b s) : PassEnds al fd b s := by
  cases h with
  | @idle r h hr =>
    rcases Nat.lt_or_ge b.bytes.length (r + 5) with hshort | hwhole
    · have hnot : ¬ UnknownEndsIn s (b.bytes.drop s.r.toNat) := by
        rw [h.unknownEndsIn_iff, h.r_eq]
        exact not_unknownEnds_of_short (by rw [List.length_drop]; omega)
      rcases Nat.eq_or_lt_of_le hr with rfl | hlt
      · exact .ret (passOn_idle_end al fd h) (.idle h.rewind) hnot
      · obtain ⟨s', hpass, hsplit, -⟩ := passOn_idle_short al fd h hlt hshort
        exact .ret hpass (.split hsplit) hnot
    · -- a header that lies in the buffer
      obtain ⟨s₁, hpass, hfilling, -⟩ := passOn_idle al fd h hwhole
      apply passEnds_of_fill hpass hfilling hwhole (by have := h.r_eq; omega)
      rw [h.unknownEndsIn_iff, h.r_eq, unknownEnds_iff, List.length_drop, List.drop_drop,
        RecvBuff.headerAt, Nat.sub_zero, Nat.add_assoc]
      exact and_congr (by omega) Iff.rfl
  | @pending type len got h =>
    have hgot := h.got_lt
    refine passEnds_of_fill (passOn_pending al fd h) h.toFilling (Nat.zero_le _) ?_ ?_
    · have := h.r_eq
      omega
    · rw [h.unknownEndsIn_iff, h.r_eq, List.drop_zero, Nat.zero_add]
  | @split type k high h =>
    have hr : s.r.toNat = 0 := by rw [h.r_eq]; rfl
    have hk := h.k_lt
    rcases Nat.lt_or_ge (k + b.bytes.length) 4 with hshort | hfull
    · -- the header goes on in the next buffer
      have hnot : ¬ UnknownEndsIn s (b.bytes.drop s.r.toNat) := by
        rw [h.unknownEndsIn_iff, hr, List.drop_zero, if_neg (by omega)]
        omega
      rcases Nat.eq_zero_or_pos b.bytes.length with hempty | hpos
      · have hsplit : SplitHeader { s with r := 0 } type k high :=
          ⟨h.type_eq, h.high_eq, rfl, h.c_eq, h.rem_eq, h.header_not_complete, h.complete,
            h.k_eq, h.k_lt⟩
        exact .ret (passOn_split_empty al fd h hempty) (.split hsplit) hnot
      · obtain ⟨s', hpass, hsplit, -⟩ :=
          passOn_split_short al fd h hpos hshort
        exact .ret hpass (.split hsplit) hnot
    · rcases Nat.lt_or_ge b.bytes.length (4 - k + 5) with hfew | hmany
      · -- the header ends, and its payload is too close to the end to hide a message
        obtain ⟨s₁, hpass, hfilling, -⟩ :=
          passOn_split_few al fd h (by omega) hfew
        apply passEnds_of_fill hpass hfilling (by omega) (by omega)
        have hrest : ¬ UnknownEnds (b.bytes.drop (4 - k +
            ((splitLength high (b.bytes.getD (3 - k) 0)).toNat - 0))) :=
          not_unknownEnds_of_short (by rw [List.length_drop]; omega)
        rw [h.unknownEndsIn_iff, hr, List.drop_zero, if_neg (by omega), Nat.sub_zero]
        rw [Nat.sub_zero] at hrest
        simp only [hrest, or_false]
        constructor
        · rintro ⟨-, hnone, hle⟩
          exact ⟨hle, hnone⟩
        · rintro ⟨hle, hnone⟩
          exact ⟨by omega, hnone, hle⟩
      · -- the header is dropped, and the bytes behind it are a header
        obtain ⟨s₁, hpass, hfilling, -⟩ :=
          passOn_split_many al fd h hmany
        apply passEnds_of_fill hpass hfilling hmany (by omega)
        rw [h.unknownEndsIn_iff, hr, List.drop_zero, if_pos hmany, unknownEnds_iff,
          List.length_drop, List.drop_drop, RecvBuff.headerAt, Nat.sub_zero, Nat.add_assoc]
        exact and_congr (by omega) Iff.rfl

/-! ### Runs -/

theorem Walking.of_jumps (h : Walking b s) (hjump : Jumps (passOn al fd b) s s') :
    Walking b s' := by
  obtain ⟨ev, hpass'⟩ := hjump
  cases passOn_cases al fd h with
  | ret hpass => simp [hpass] at hpass'
  | call hpass hclean _ hwithin =>
    obtain ⟨rfl, -⟩ := by simpa [hpass] using hpass'
    exact .idle hclean.toIdle hwithin
  | discard hpass hback =>
    obtain ⟨rfl, -⟩ := by simpa [hpass] using hpass'
    exact .idle hback (Nat.zero_le _)

/-- A pass that returns leaves the receiver between two calls. -/
theorem Walking.resting_of_ret {code : ℕ} (h : Walking b s)
    (hret : passOn al fd b s = (.ret (code, s'), ev)) : Resting s' := by
  cases passOn_cases al fd h with
  | ret hpass hresting =>
    obtain ⟨⟨-, rfl⟩, -⟩ := by simpa [hpass] using hret
    exact hresting
  | call hpass => simp [hpass] at hret
  | discard hpass => simp [hpass] at hret

/-- A call leaves the receiver between two calls. -/
theorem Resting.of_assembles (h : Resting s) (hcall : Assembles al fd b s s' ev) :
    Resting s' := by
  obtain ⟨code, hret⟩ := hcall
  exact hret.invariant (P := Walking b) (Q := fun out => Resting out.2)
    (fun _ _ h hjump => h.of_jumps hjump) (fun _ _ _ h hret => h.resting_of_ret hret) h.walking

theorem Reachable.resting (h : Reachable al s) : Resting s := by
  induction h with
  | init => exact .idle clean_initTlvState.toIdle
  | call _ hcall ih => exact ih.of_assembles hcall

/-- Nothing of an unknown type is still to come in the buffer. -/
private def Known (b : RecvBuff) (s : TLVState) : Prop :=
  Walking b s ∧ ¬ UnknownEndsIn s (b.bytes.drop s.r.toNat)

/-- Handler calls only move the cursor forward, and skip no unknown type. -/
private theorem Known.of_jumps (h : Known b s) (hjump : Jumps (passOn al fd b) s s') :
    Known b s' ∧ b.bytes.length - s'.r.toNat < b.bytes.length - s.r.toNat := by
  have hwalking := h.1.of_jumps hjump
  obtain ⟨ev, hpass'⟩ := hjump
  cases passOn_cases al fd h.1 with
  | ret hpass => simp [hpass] at hpass'
  | discard _ _ _ hunknown => exact absurd hunknown h.2
  | call hpass hclean hforward hwithin hiff =>
    obtain ⟨rfl, -⟩ := by simpa [hpass] using hpass'
    have hr := hclean.r_eq
    refine ⟨⟨hwalking, ?_⟩, by omega⟩
    rw [hclean.unknownEndsIn_iff, hr, ← hiff]
    exact h.2

/-- A call that finds a message of an unknown type, and finds one again from the
start of its buffer, does not return. -/
theorem not_assembles_of_unknownEnds (hwhole : UnknownEnds b.bytes) (h : Walking b s)
    (hunknown : UnknownEndsIn s (b.bytes.drop s.r.toNat)) : ¬ Assembles al fd b s s' ev := by
  rintro ⟨code, hret⟩
  refine not_returns_of_invariant
    (P := fun s => Walking b s ∧ UnknownEndsIn s (b.bytes.drop s.r.toNat)) ?_ ⟨h, hunknown⟩ hret
  rintro s ⟨h, hunknown⟩
  cases passOn_cases al fd h with
  | ret _ _ hnot => exact absurd hunknown hnot
  | call hpass hclean _ hwithin hiff =>
    refine ⟨_, ⟨_, hpass⟩, .idle hclean.toIdle hwithin, ?_⟩
    rw [hclean.unknownEndsIn_iff, hclean.r_eq]
    exact hiff.mp hunknown
  | discard hpass hback =>
    -- the cursor is at the start, and the message is still in the buffer
    refine ⟨_, ⟨_, hpass⟩, .idle hback (Nat.zero_le _), ?_⟩
    rw [hback.unknownEndsIn_iff, hback.r_eq]
    exact hwhole

/-! ### The exact condition -/

/-- A keepalive message. -/
def keepAliveBuff : RecvBuff := ⟨[4, 0, 0, 0, 1, 4], by decide⟩

/-- An empty message of type 0. -/
def unknownBuff : RecvBuff := ⟨[0, 0, 0, 0, 0], by decide⟩

end Multicast
