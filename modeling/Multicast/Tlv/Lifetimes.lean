import Multicast.Lib.HeapLedger
import Multicast.Tlv.Bounds
import Multicast.Tlv.Connection

/-!
# The blocks of the receiver

`tlv_data` points to the block in which a payload is collected. The block is allocated and
resized with `realloc`; a new header releases what an earlier message left, and a complete
message is released by its handler or by the dispatch. The default case of the dispatch is the
only one that keeps the pointer.

A block is therefore given to the allocator after its release in exactly the calls that go on
after a message of an unknown type. What the passes do after that is not the code's doing any
more: `Pointer.realloc` and `readHeader` go on with a new block, a C library may end the program.
The receiver loses none; the threads of the server lose one with each read that ends inside a
payload, as their states end with them.

## Main definitions

* `Multicast.passOps` — the calls of `free` and `realloc` in a pass
* `CallUsesReleased` — a pass of a call gives the allocator a block that was released
* `OpsTo` — the label is reached, with all calls of the allocator so far
* `EndsInPayload` — the bytes end behind a header and before the end of its payload

## Main results

* `usesReleased_iff` — which passes use a released block
* `Orderly.of_assembles` — where a receiver is that keeps one
* `callUsesReleased_iff` — in which calls a released block is used
* `allocations_eq` — a block that was allocated is released once, or `tlv_data` owns it
* `owned_of_assembles` — which reads of the server lose a block
-/

set_option autoImplicit false

namespace Multicast

open HeapBlock GotoLoop

/-! ### Calls of the allocator -/

section Ops

variable (al : Allocator) (recvBuff : List UInt8) (Bufflen : Word)

/-- `readHeader` releases what an earlier message left. -/
def headerOps (tlvS : TLVState) : List (HeapOp UInt8) :=
  if 5 ≤ tlvS.unread Bufflen ∧ tlvS.tlvIsComplete then
    if tlvS.tlvData ≠ .null then [.free tlvS.tlvData] else []
  else []

/-- `fillPartial` and `fillComplete` get room for the payload. A complete one is released in the
dispatch: by the handler of texts, or by the `case` of its type. -/
def fillOps (tlvS : TLVState) : List (HeapOp UInt8) :=
  if tlvS.unread Bufflen < tlvS.remainingBytes then
    [.realloc tlvS.tlvData (tlvS.unread Bufflen).toNat]
  else
    [.realloc tlvS.tlvData tlvS.remainingBytes.toNat,
      .free (fillComplete al recvBuff tlvS).1.tlvData]

/-- The calls of the allocator in a pass. -/
def passOps (tlvS : TLVState) : List (HeapOp UInt8) :=
  if tlvS.unread Bufflen = 0 ∧ tlvS.tlvIsComplete then []
  else
    match continueSplitHeader recvBuff Bufflen (beginSplitHeader recvBuff Bufflen tlvS) with
    | .ret _ => []
    | .goto tlvS =>
      headerOps Bufflen tlvS ++ fillOps al recvBuff Bufflen (readHeader recvBuff Bufflen tlvS)

end Ops

/-- The pass gives the allocator a block that was released. -/
def UsesReleased (al : Allocator) (b : RecvBuff) (s : TLVState) : Prop :=
  ∃ op ∈ passOps al b.bytes b.len s, op.pointer = .freed

/-- A pass of the call does. -/
def CallUsesReleased (al : Allocator) (fd : ℤ) (b : RecvBuff) (s : TLVState) : Prop :=
  ∃ s₁, Arrives (passOn al fd b) s s₁ ∧ UsesReleased al b s₁

/-- The label is reached in state `s`, in a call on `b`, after the calls `ops` of the
allocator. -/
inductive OpsTo (al : Allocator) : RecvBuff → TLVState → List (HeapOp UInt8) → Prop
  | init {b : RecvBuff} : OpsTo al b initTlvState []
  | jump {fd : ℤ} {b : RecvBuff} {s s' : TLVState} {ops : List (HeapOp UInt8)} {ev : List Event} :
      OpsTo al b s ops → passOn al fd b s = (.goto s', ev) →
      OpsTo al b s' (ops ++ passOps al b.bytes b.len s)
  | call {fd : ℤ} {b b' : RecvBuff} {s s' : TLVState} {ops : List (HeapOp UInt8)} {code : ℕ}
      {ev : List Event} :
      OpsTo al b s ops → passOn al fd b s = (.ret (code, s'), ev) →
      OpsTo al b' s' (ops ++ passOps al b.bytes b.len s)

variable {al : Allocator} {fd : ℤ} {b : RecvBuff} {s s' s₁ : TLVState} {p : Pointer UInt8}
variable {ops ops' : List (HeapOp UInt8)} {ev : List Event} {recvBuff : List UInt8} {Bufflen : Word}

/-! ### Which passes use a released block -/

/-- The blocks for split headers leave the pointer alone. -/
theorem tlvData_of_continueSplitHeader
    (h : continueSplitHeader recvBuff Bufflen (beginSplitHeader recvBuff Bufflen s) = .goto s₁) :
    s₁.tlvData = s.tlvData := by
  have hcopy (missing : ℕ) (s : TLVState) :
      (copyLengthBytes recvBuff missing s).tlvData = s.tlvData := by
    induction missing generalizing s with
    | zero => rfl
    | succ missing ih =>
      rw [copyLengthBytes]
      split
      next => rfl
      next => exact ih _
  have hbegin : (beginSplitHeader recvBuff Bufflen s).tlvData = s.tlvData := by
    unfold beginSplitHeader
    split <;> rfl
  have hend (s : TLVState) : (endSplitHeader s).tlvData = s.tlvData := by
    unfold endSplitHeader
    split <;> rfl
  unfold continueSplitHeader at h
  split at h
  next =>
    obtain rfl := Pass.goto.inj h
    exact hbegin
  next =>
    split at h
    next => cases h
    next =>
      dsimp only at h
      split at h
      next => cases h
      next =>
        obtain rfl := Pass.goto.inj h
        rw [hend, hcopy]
        exact hbegin

/-- A pass that returns before the payload asks nothing of the allocator. -/
theorem passOps_of_none (h : payloadEntry b.bytes b.len s = none) :
    passOps al b.bytes b.len s = [] := by
  rw [payloadEntry] at h
  rw [passOps]
  split
  next => rfl
  next hzero =>
    rw [if_neg hzero] at h
    cases hcontinue : continueSplitHeader b.bytes b.len (beginSplitHeader b.bytes b.len s) with
    | ret out => rfl
    | goto s₀ => simp [hcontinue] at h

/-- A pass that comes to the payload does so for its header and for the payload. -/
theorem passOps_of_some (al : Allocator) (h : payloadEntry b.bytes b.len s = some s₁) :
    ∃ s₀, s₀.tlvData = s.tlvData ∧ readHeader b.bytes b.len s₀ = s₁ ∧
      passOps al b.bytes b.len s = headerOps b.len s₀ ++ fillOps al b.bytes b.len s₁ := by
  rw [payloadEntry] at h
  rw [passOps]
  split at h
  next => cases h
  next hzero =>
    rw [if_neg hzero]
    cases hcontinue : continueSplitHeader b.bytes b.len (beginSplitHeader b.bytes b.len s) with
    | ret out => simp [hcontinue] at h
    | goto s₀ =>
      rw [hcontinue] at h
      obtain rfl := Option.some.inj h
      exact ⟨s₀, tlvData_of_continueSplitHeader hcontinue, rfl, rfl⟩

theorem mem_headerOps {op : HeapOp UInt8} (h : op ∈ headerOps b.len s) :
    op = .free s.tlvData := by
  unfold headerOps at h
  split at h
  next =>
    split at h
    next => exact List.mem_singleton.mp h
    next => cases h
  next => cases h

theorem tlvData_readHeader (recvBuff : List UInt8) (Bufflen : Word) (s : TLVState) :
    (readHeader recvBuff Bufflen s).tlvData = s.tlvData ∨
      (readHeader recvBuff Bufflen s).tlvData = .null := by
  unfold readHeader
  split
  next => exact .inr rfl
  next => exact .inl rfl

theorem tlvData_fillComplete :
    (fillComplete al recvBuff s).1.tlvData ≠ .freed := by
  unfold fillComplete
  rw [ne_eq, Pointer.memcpy_eq_freed_iff]
  exact Pointer.realloc_ne_freed

/-- The blocks behind the header get a new block if the pointer is to a released one. -/
theorem exists_freed_mem_fillOps_iff :
    (∃ op ∈ fillOps al recvBuff Bufflen s, op.pointer = .freed) ↔ s.tlvData = .freed := by
  unfold fillOps
  split
  next => simp [HeapOp.pointer]
  next => simp [HeapOp.pointer, tlvData_fillComplete]

/-- A pass that comes to the payload uses the pointer that it finds. -/
theorem usesReleased_iff :
    UsesReleased al b s ↔ s.tlvData = .freed ∧ (payloadEntry b.bytes b.len s).isSome := by
  cases hentry : payloadEntry b.bytes b.len s with
  | none =>
    rw [UsesReleased, passOps_of_none hentry]
    simp
  | some s₁ =>
    obtain ⟨s₀, hdata, rfl, hops⟩ := passOps_of_some al hentry
    rw [UsesReleased, hops]
    simp only [Option.isSome_some, and_true, List.mem_append, or_and_right, exists_or,
      exists_freed_mem_fillOps_iff]
    constructor
    · rintro (⟨op, hmem, hfreed⟩ | hfreed)
      · rw [mem_headerOps hmem] at hfreed
        exact hdata ▸ hfreed
      · rcases tlvData_readHeader b.bytes b.len s₀ with h | h
        · exact hdata ▸ h ▸ hfreed
        · rw [h] at hfreed
          cases hfreed
    · intro hfreed
      rw [← hdata] at hfreed
      -- the pointer is released for a new header, and resized without one
      by_cases hread : 5 ≤ s₀.unread b.len ∧ s₀.tlvIsComplete
      · refine .inl ⟨.free s₀.tlvData, ?_, hfreed⟩
        rw [headerOps, if_pos hread, if_pos (by rw [hfreed]; simp)]
        exact List.mem_singleton_self _
      · refine .inr ?_
        rw [readHeader, if_neg hread]
        exact hfreed

/-! ### The pointer in a pass -/

/-- A pass without events returns before it comes to the payload. -/
theorem payloadEntry_eq_none {out : Pass TLVState (ℕ × TLVState)}
    (h : passOn al fd b s = (out, [])) : payloadEntry b.bytes b.len s = none := by
  cases hentry : payloadEntry b.bytes b.len s with
  | none => rfl
  | some s₁ =>
    rw [passOn_of_payloadEntry al fd hentry, fill] at h
    split at h
    next => cases (Prod.ext_iff.mp h).2
    next => cases (Prod.ext_iff.mp h).2

/-- Only inside a payload is there a block. -/
structure Holding (b : RecvBuff) (s : TLVState) : Prop where
  walking : Walking b s
  owned : s.tlvIsComplete = true → s.tlvData.owned = 0

/-- A pass returns before the payload, and keeps the pointer; or it comes to the payload, and
gets a block for it. -/
theorem Holding.pass_cases (al : Allocator) (fd : ℤ) (h : Holding b s) :
    (∃ code s', payloadEntry b.bytes b.len s = none ∧
      passOn al fd b s = (.ret (code, s'), []) ∧ s'.tlvData = s.tlvData ∧
        s.tlvIsComplete = true ∧
          (s.tlvHeaderIsComplete = true → s.r.toNat < b.bytes.length →
            s'.tlvHeaderIsComplete = false) ∧
              (s.tlvHeaderIsComplete = false → s'.tlvHeaderIsComplete = false)) ∨
    ∃ s₁ type len got r, payloadEntry b.bytes b.len s = some s₁ ∧ Filling s₁ type len got r ∧
      r ≤ b.bytes.length ∧ 0 < r + (len.toNat - got) ∧
        (s₁.tlvData.owned = 0 ∨ got < len.toNat) := by
  cases h.walking with
  | @idle r hidle hr =>
    have hheader := hidle.header_complete
    rcases Nat.lt_or_ge b.bytes.length (r + 5) with hshort | hwhole
    · rcases Nat.eq_or_lt_of_le hr with rfl | hlt
      · have hpass := passOn_idle_end al fd hidle
        refine .inl ⟨_, _, payloadEntry_eq_none hpass, hpass, rfl, hidle.complete, ?_, ?_⟩
        · intro _ hlt
          rw [hidle.r_eq] at hlt
          exact absurd hlt (Nat.lt_irrefl _)
        · intro hnot
          cases hheader.symm.trans hnot
      · obtain ⟨s', hpass, hsplit, hdata⟩ := passOn_idle_short al fd hidle hlt hshort
        exact .inl ⟨_, s', payloadEntry_eq_none hpass, hpass, hdata, hidle.complete,
          fun _ _ => hsplit.header_not_complete, fun _ => hsplit.header_not_complete⟩
    · obtain ⟨s₁, hentry, hfilling, -, hdata⟩ := payloadEntry_idle hidle hwhole
      exact .inr ⟨s₁, _, _, _, _, hentry, hfilling, hwhole, by omega,
        .inl (by rw [hdata]; rfl)⟩
  | @split type k high hsplit =>
    have hk := hsplit.k_lt
    rcases Nat.eq_zero_or_pos b.bytes.length with hempty | hpos
    · have hpass := passOn_split_empty al fd hsplit hempty
      exact .inl ⟨_, _, payloadEntry_eq_none hpass, hpass, rfl, hsplit.complete,
        fun _ _ => hsplit.header_not_complete, fun _ => hsplit.header_not_complete⟩
    rcases Nat.lt_or_ge (k + b.bytes.length) 4 with hshort | hfull
    · obtain ⟨s', hpass, hsplit', hdata⟩ := passOn_split_short al fd hsplit hpos hshort
      exact .inl ⟨_, s', payloadEntry_eq_none hpass, hpass, hdata, hsplit.complete,
        fun _ _ => hsplit'.header_not_complete, fun _ => hsplit'.header_not_complete⟩
    rcases Nat.lt_or_ge b.bytes.length (4 - k + 5) with hfew | hmany
    · obtain ⟨s₁, hentry, hfilling, -, hdata⟩ := payloadEntry_split_few hsplit (by omega) hfew
      exact .inr ⟨s₁, _, _, _, _, hentry, hfilling, by omega, by omega,
        .inl (by rw [hdata]; exact h.owned hsplit.complete)⟩
    · obtain ⟨s₁, hentry, hfilling, -, hdata⟩ := payloadEntry_split_many hsplit hmany
      exact .inr ⟨s₁, _, _, _, _, hentry, hfilling, hmany, by omega,
        .inl (by rw [hdata]; rfl)⟩
  | @pending type len got hpending =>
    have hgot := hpending.got_lt
    exact .inr ⟨s, type, len, got, 0, payloadEntry_pending hpending, hpending.toFilling,
      Nat.zero_le _, by omega, .inr hgot⟩

/-- Behind a payload that ends the pointer is null, unless the type was unknown. Then it is to a
released block, and the cursor at the start of the buffer. -/
theorem Holding.tlvData_of_goto (h : Holding b s) (hpass : passOn al fd b s = (.goto s', ev)) :
    s'.tlvData = .null ∧ (∀ type next, .discard type next ∉ ev) ∨
      s'.tlvData = .freed ∧ Idle s' 0 ∧ 0 < b.bytes.length := by
  rcases h.pass_cases al fd with ⟨code, s₁, -, hret, -⟩ |
    ⟨s₁, type, len, got, r, hentry, hfilling, hr, hpos, hblock⟩
  · simp [hret] at hpass
  rw [passOn_of_payloadEntry al fd hentry] at hpass
  rcases Nat.lt_or_ge (b.bytes.length - r + got) len.toNat with hlt | hle
  · obtain ⟨s₂, hfill, -⟩ := fill_of_lt al fd hfilling hr hlt
    simp [hfill] at hpass
  cases ht : TlvType.ofCode type with
  | some t =>
    obtain ⟨s₂, hfill, hclean⟩ := fill_of_known al fd ht hfilling hr hle
    obtain ⟨rfl, rfl⟩ := by simpa [hfill] using hpass
    exact .inl ⟨hclean.data_eq, by simp⟩
  | none =>
    obtain ⟨s₂, hfill, hback, -, hdata⟩ := fill_of_unknown al fd ht hfilling hr hle
    obtain ⟨rfl, -⟩ := by simpa [hfill] using hpass
    refine .inr ⟨?_, hback, by omega⟩
    rw [hdata, Pointer.free_eq_freed_iff]
    -- the payload has a block, as nothing was released for it
    have hone : (s₁.tlvData.realloc al (len.toNat - got)).owned = 1 :=
      Pointer.owned_realloc (hblock.imp_right fun hgot => by omega)
    intro hnull
    have howned := congrArg Pointer.owned hnull
    rw [Pointer.owned_memcpy, hone] at howned
    cases howned

/-- A pass that jumps leaves no block. -/
theorem Holding.of_goto (h : Holding b s) (hpass : passOn al fd b s = (.goto s', ev)) :
    Holding b s' := by
  refine ⟨h.walking.of_jumps ⟨_, hpass⟩, fun _ => ?_⟩
  rcases h.tlvData_of_goto hpass with ⟨hdata, -⟩ | ⟨hdata, -⟩
  · rw [hdata]
    rfl
  · rw [hdata]
    rfl

/-- A pass that returns leaves a block only inside a payload. Where it leaves a pointer to a
released block it found one, and if there was anything to read it stands inside a header. -/
theorem Holding.of_ret {code : ℕ} (h : Holding b s)
    (hpass : passOn al fd b s = (.ret (code, s'), ev)) :
    (s'.tlvIsComplete = true → s'.tlvData.owned = 0) ∧
      (s'.tlvData = .freed → s.tlvData = .freed ∧
        (s.tlvHeaderIsComplete = false ∨ s.r.toNat < b.bytes.length →
          s'.tlvHeaderIsComplete = false)) := by
  rcases h.pass_cases al fd with ⟨code', s₁, -, hret, hdata, hcomplete, hbegun, hsplit⟩ |
    ⟨s₁, type, len, got, r, hentry, hfilling, hr, -, -⟩
  · obtain ⟨⟨-, rfl⟩, -⟩ := by simpa [hret] using hpass
    refine ⟨fun _ => ?_, fun hfreed => ⟨hdata ▸ hfreed, fun hread => ?_⟩⟩
    · rw [hdata]
      exact h.owned hcomplete
    · cases hheader : s.tlvHeaderIsComplete with
      | false => exact hsplit hheader
      | true => exact hbegun hheader (hread.resolve_left (by simp [hheader]))
  · rw [passOn_of_payloadEntry al fd hentry] at hpass
    rcases Nat.lt_or_ge (b.bytes.length - r + got) len.toNat with hlt | hle
    · obtain ⟨s₂, hfill, hpending, hdata⟩ := fill_of_lt al fd hfilling hr hlt
      obtain ⟨⟨-, rfl⟩, -⟩ := by simpa [hfill] using hpass
      refine ⟨fun hcomplete => ?_, fun hfreed => ?_⟩
      · cases hcomplete.symm.trans hpending.not_complete
      · rw [hdata, Pointer.memcpy_eq_freed_iff] at hfreed
        exact absurd hfreed Pointer.realloc_ne_freed
    · obtain ⟨filled, hfill, -⟩ := fill_of_le al fd hfilling hr hle
      simp [hfill] at hpass

/-! ### Calls -/

/-- Between two calls: only inside a payload is there a block, and only inside a header a pointer
to a released one. -/
structure Orderly (s : TLVState) : Prop where
  resting : Resting s
  owned : s.tlvIsComplete = true → s.tlvData.owned = 0
  freed : s.tlvData = .freed → s.tlvHeaderIsComplete = false

theorem Orderly.holding (h : Orderly s) : Holding b s := ⟨h.resting.walking, h.owned⟩

theorem orderly_initTlvState : Orderly initTlvState :=
  ⟨.idle clean_initTlvState.toIdle, fun _ => rfl, fun h => by cases h⟩

/-- A state at the label in a call that began between two messages in an orderly state. -/
private def LabelHolding (b : RecvBuff) (s : TLVState) : Prop :=
  Holding b s ∧
    (s.tlvData = .freed → s.tlvHeaderIsComplete = false ∨ s.r.toNat < b.bytes.length)

private theorem LabelHolding.of_jumps (h : LabelHolding b s)
    (hjump : Jumps (passOn al fd b) s s') : LabelHolding b s' := by
  obtain ⟨ev, hpass⟩ := hjump
  refine ⟨h.1.of_goto hpass, fun hfreed => ?_⟩
  rcases h.1.tlvData_of_goto hpass with ⟨hnull, -⟩ | ⟨-, hback, hpos⟩
  · cases hnull.symm.trans hfreed
  · exact .inr (hback.r_eq ▸ hpos)

/-- A call leaves the receiver in an orderly state. -/
theorem Orderly.of_assembles (h : Orderly s) (hcall : Assembles al fd b s s' ev) :
    Orderly s' := by
  obtain ⟨code, hret⟩ := hcall
  refine hret.invariant (P := LabelHolding b) (Q := fun out => Orderly out.2)
    (fun _ _ h hjump => h.of_jumps hjump) (fun u out _ hu hpass => ?_)
    ⟨h.holding, fun hfreed => .inl (h.freed hfreed)⟩
  obtain ⟨howned, hfreed⟩ := hu.1.of_ret hpass
  refine ⟨hu.1.walking.resting_of_ret hpass, howned, fun hdata => ?_⟩
  obtain ⟨hbefore, hsplit⟩ := hfreed hdata
  exact hsplit (hu.2 hbefore)

theorem Reachable.orderly (h : Reachable al s) : Orderly s := by
  induction h with
  | init => exact orderly_initTlvState
  | call _ hcall ih => exact ih.of_assembles hcall

/-- A receiver that keeps a pointer to a released block uses it in the pass that ends the
header. -/
theorem callUsesReleased_of_freed {type : UInt8} {k high : ℕ} (hfreed : s.tlvData = .freed)
    (h : SplitHeader s type k high) :
    CallUsesReleased al fd b s ↔ 4 ≤ k + b.bytes.length := by
  have hk := h.k_lt
  constructor
  · rintro ⟨s₁, harrives, huses⟩
    by_contra hshort
    -- the only pass returns before the payload
    obtain ⟨out, hpass⟩ : ∃ out, passOn al fd b s = (.ret out, []) := by
      rcases Nat.eq_zero_or_pos b.bytes.length with hempty | hpos
      · exact ⟨_, passOn_split_empty al fd h hempty⟩
      · obtain ⟨s', hpass, -⟩ := passOn_split_short al fd h hpos (by omega)
        exact ⟨_, hpass⟩
    rcases Relation.ReflTransGen.cases_head harrives with rfl | ⟨s₂, ⟨ev, hjump⟩, -⟩
    · have hsome := (usesReleased_iff.mp huses).2
      rw [payloadEntry_eq_none hpass] at hsome
      cases hsome
    · simp [hpass] at hjump
  · intro hfull
    refine ⟨s, .refl, usesReleased_iff.mpr ⟨hfreed, ?_⟩⟩
    rcases Nat.lt_or_ge b.bytes.length (4 - k + 5) with hfew | hmany
    · obtain ⟨s₁, hentry, -⟩ := payloadEntry_split_few h (by omega) hfew
      exact Option.isSome_of_eq_some hentry
    · obtain ⟨s₁, hentry, -⟩ := payloadEntry_split_many h hmany
      exact Option.isSome_of_eq_some hentry

/-- A state at the label in a call that began in `s`. Before a message of an unknown type ends
no pointer to a released block is kept; afterwards, one may be, at the start of the buffer. -/
private structure LabelFrom (b : RecvBuff) (s s₁ : TLVState) : Prop where
  holding : Holding b s₁
  back : s₁.tlvData = .freed → Idle s₁ 0
  unknown : (s₁.tlvData = .freed ∨ UnknownEndsIn s₁ (b.bytes.drop s₁.r.toNat)) →
    UnknownEndsIn s b.bytes

private theorem LabelFrom.of_jumps (h : LabelFrom b s s₁)
    (hjump : Jumps (passOn al fd b) s₁ s') : LabelFrom b s s' := by
  obtain ⟨ev, hpass'⟩ := hjump
  have hdata := h.holding.tlvData_of_goto hpass'
  refine ⟨h.holding.of_goto hpass', fun hfreed => ?_, ?_⟩
  · rcases hdata with ⟨hnull, -⟩ | ⟨-, hback, -⟩
    · cases hnull.symm.trans hfreed
    · exact hback
  · cases passOn_cases al fd h.holding.walking with
    | ret hpass => simp [hpass] at hpass'
    | discard _ _ _ hunknown => exact fun _ => h.unknown (.inr hunknown)
    | call hpass hclean _ _ hiff =>
      obtain ⟨rfl, -⟩ := by simpa [hpass] using hpass'
      rw [hclean.data_eq, hclean.unknownEndsIn_iff, hclean.r_eq, ← hiff]
      rintro (hfreed | hunknown)
      · cases hfreed
      · exact h.unknown (.inr hunknown)

/-- When a message of an unknown type is still to come, the label is reached with a pointer to
a released block, and with the cursor at the start of the buffer. -/
theorem Holding.exists_arrives_freed (h : Holding b s)
    (hunknown : UnknownEndsIn s (b.bytes.drop s.r.toNat)) :
    ∃ s₁, Arrives (passOn al fd b) s s₁ ∧ s₁.tlvData = .freed ∧ Idle s₁ 0 := by
  -- handler calls bring the cursor closer to the message
  induction hm : b.bytes.length - s.r.toNat using Nat.strongRecOn generalizing s with
  | ind m ih =>
    cases passOn_cases al fd h.walking with
    | ret _ _ hnot => exact absurd hunknown hnot
    | @call s' r src dst room bytes handlerCall hpass hclean hforward hwithin hiff =>
      have hr := hclean.r_eq
      obtain ⟨s₁, harrives, hfreed⟩ := ih _ (by omega) (h.of_goto hpass)
        (by rw [hclean.unknownEndsIn_iff, hr]; exact hiff.mp hunknown) rfl
      exact ⟨s₁, .head ⟨_, hpass⟩ harrives, hfreed⟩
    | discard hpass hback =>
      refine ⟨_, .single ⟨_, hpass⟩, ?_, hback⟩
      rcases h.tlvData_of_goto hpass with ⟨-, hnone⟩ | ⟨hfreed, -⟩
      · exact absurd (List.mem_cons_of_mem _ List.mem_cons_self) (hnone _ _)
      · exact hfreed

/-- The calls that use a released block, from an orderly state. -/
theorem Orderly.usesReleased_in_call_iff (h : Orderly s) :
    CallUsesReleased al fd b s ↔
      if s.tlvData = .freed then 4 ≤ s.lenBytesProcessed + b.bytes.length
      else UnknownEndsIn s b.bytes ∧ 5 ≤ b.bytes.length := by
  split
  next hfreed =>
    cases h.resting with
    | idle hidle => cases hidle.header_complete.symm.trans (h.freed hfreed)
    | pending hpending => cases hpending.header_complete.symm.trans (h.freed hfreed)
    | split hsplit =>
      rw [callUsesReleased_of_freed hfreed hsplit, hsplit.k_eq]
  next hnot =>
    have hdrop : b.bytes = b.bytes.drop s.r.toNat := by rw [h.resting.r_eq, List.drop_zero]
    constructor
    · rintro ⟨s₁, harrives, huses⟩
      obtain ⟨hfreed, hentry⟩ := usesReleased_iff.mp huses
      have hstart : LabelFrom b s s := by
        refine ⟨h.holding, fun hfreed => absurd hfreed hnot, ?_⟩
        rw [← hdrop]
        exact fun hor => hor.resolve_left hnot
      have hlabel : LabelFrom b s s₁ :=
        Arrives.invariant (fun _ _ h hjump => h.of_jumps hjump) harrives hstart
      refine ⟨hlabel.unknown (.inl hfreed), ?_⟩
      -- a shorter buffer is left before the payload
      by_contra hshort
      have hback := hlabel.back hfreed
      obtain ⟨out, hpass⟩ : ∃ out, passOn al fd b s₁ = (.ret out, []) := by
        rcases Nat.eq_zero_or_pos b.bytes.length with hempty | hpos
        · exact ⟨_, passOn_idle_end al fd (hempty ▸ hback)⟩
        · obtain ⟨s', hpass, -⟩ := passOn_idle_short al fd hback hpos (by omega)
          exact ⟨_, hpass⟩
      rw [payloadEntry_eq_none hpass] at hentry
      cases hentry
    · rintro ⟨hunknown, hfive⟩
      rw [hdrop] at hunknown
      obtain ⟨s₁, harrives, hfreed, hback⟩ := h.holding.exists_arrives_freed hunknown
      obtain ⟨s₂, hentry, -⟩ := payloadEntry_idle hback (by omega)
      exact ⟨s₁, harrives, usesReleased_iff.mpr ⟨hfreed, Option.isSome_of_eq_some hentry⟩⟩

/-- **A block is used after it was released** in exactly these calls: when a message of an
unknown type ends in a buffer of at least five bytes, the receiver releases its block twice; and
after a shorter one, which ends inside the next header, it does so, or resizes the block, in the
call that ends that header. -/
theorem callUsesReleased_iff (al : Allocator) (fd : ℤ) (s : TLVState) (hs : Reachable al s)
    (b : RecvBuff) :
    (CallUsesReleased al fd b s ↔
      if s.tlvData = .freed then 4 ≤ s.lenBytesProcessed + b.bytes.length
      else UnknownEndsIn s b.bytes ∧ 5 ≤ b.bytes.length) ∧
    (s.tlvData = .freed → s.tlvIsComplete = true ∧ s.tlvHeaderIsComplete = false ∧
      s.lenBytesProcessed < 4) := by
  have h := hs.orderly
  refine ⟨h.usesReleased_in_call_iff, fun hfreed => ?_⟩
  cases h.resting with
  | idle hidle => cases hidle.header_complete.symm.trans (h.freed hfreed)
  | split hsplit =>
    exact ⟨hsplit.complete, hsplit.header_not_complete, hsplit.k_eq ▸ hsplit.k_lt⟩
  | pending hpending => cases hpending.header_complete.symm.trans (h.freed hfreed)

/-- Five bytes of zero make the receiver release a block twice. -/
theorem callUsesReleased_unknownBuff : CallUsesReleased .exact 4 unknownBuff initTlvState :=
  (callUsesReleased_iff .exact 4 initTlvState .init unknownBuff).1.mpr
    ⟨.here (by decide) (by decide), by decide⟩

/-! ### No block is lost -/

/-- The state that a pass leaves. -/
def passState : Outcome → TLVState
  | .goto s => s
  | .ret (_, s) => s

/-- A header accounts for the block that an earlier message left. -/
theorem balanced_headerOps :
    Balanced (headerOps b.len s) s.tlvData (readHeader b.bytes b.len s).tlvData := by
  unfold headerOps readHeader
  split
  next hread =>
    split
    next => exact balanced_free rfl
    next hnull =>
      rw [not_ne_iff.mp hnull]
      exact balanced_nil rfl
  next => exact balanced_nil rfl

/-- So does the payload, and the dispatch behind it. -/
theorem balanced_fillOps : Balanced (fillOps al b.bytes b.len s) s.tlvData
    (passState (fill al b.bytes b.len fd s).1).tlvData := by
  unfold fillOps fill
  split
  next => exact balanced_realloc.of_owned Pointer.owned_memcpy.symm
  next =>
    have hfilled : Balanced [.realloc s.tlvData s.remainingBytes.toNat] s.tlvData
        (fillComplete al b.bytes s).1.tlvData :=
      balanced_realloc.of_owned Pointer.owned_memcpy.symm
    refine hfilled.append (balanced_free ?_)
    change (dispatch fd (fillComplete al b.bytes s).1).1.tlvData.owned = 0
    unfold dispatch
    split
    next => rfl
    next => exact Pointer.owned_free

/-- Every pass accounts for the block that the pointer owns. -/
theorem Holding.balanced_passOps (al : Allocator) (fd : ℤ) (h : Holding b s) :
    Balanced (passOps al b.bytes b.len s) s.tlvData
      (passState (passOn al fd b s).1).tlvData := by
  rcases h.pass_cases al fd with ⟨code, s', hentry, hret, hdata, -⟩ | ⟨s₁, _, _, _, _, hentry, -⟩
  · rw [passOps_of_none hentry, hret]
    exact balanced_nil (congrArg Pointer.owned hdata.symm)
  · obtain ⟨s₀, hdata, rfl, hops⟩ := passOps_of_some al hentry
    rw [passOn_of_payloadEntry al fd hentry, hops, ← hdata]
    exact balanced_headerOps.append balanced_fillOps

/-- Whenever the label is reached, a block is there only inside a payload. -/
theorem OpsTo.holding (h : OpsTo al b s ops) : Holding b s := by
  induction h with
  | init => exact orderly_initTlvState.holding
  | jump _ hpass ih => exact ih.of_goto hpass
  | call _ hpass ih => exact ⟨(ih.walking.resting_of_ret hpass).walking, (ih.of_ret hpass).1⟩

/-- **No block is lost.** Over every sequence of calls, on any buffers, the blocks that were
allocated are those that were released and the one that `tlv_data` owns; and it owns one only
inside a payload. -/
theorem allocations_eq (h : OpsTo al b s ops) :
    ops.countP HeapOp.allocates = ops.countP HeapOp.releases + s.tlvData.owned ∧
      (s.tlvIsComplete = true → s.tlvData.owned = 0) := by
  refine ⟨?_, h.holding.owned⟩
  have hbalanced : Balanced ops initTlvState.tlvData s.tlvData := by
    induction h with
    | init => exact balanced_nil rfl
    | @jump fd b s s' ops ev hops hpass ih =>
      have hnext := hops.holding.balanced_passOps al fd
      rw [hpass] at hnext
      exact ih.append hnext
    | @call fd b b' s s' ops code ev hops hpass ih =>
      have hnext := hops.holding.balanced_passOps al fd
      rw [hpass] at hnext
      exact ih.append hnext
  exact hbalanced

/-- A keepalive gets a block, and the dispatch releases it. -/
theorem allocations_eq_keepAlive :
    (passOps .exact keepAliveBuff.bytes keepAliveBuff.len initTlvState).countP
        HeapOp.allocates = 1 ∧
      (passOps .exact keepAliveBuff.bytes keepAliveBuff.len initTlvState).countP
        HeapOp.releases = 1 := by
  have hpass : passOn .exact 4 keepAliveBuff initTlvState = (.goto
      { initTlvState with r := 6, currentTlvHeader := ⟨0xFF, 0⟩ },
      [.memcpy 5 0 1 [4], .call (.keepalive (.block [some 4]))]) := rfl
  obtain ⟨heq, hnone⟩ := allocations_eq (.jump .init hpass)
  have hone : (passOps .exact keepAliveBuff.bytes keepAliveBuff.len initTlvState).countP
      HeapOp.allocates = 1 := by decide
  refine ⟨hone, ?_⟩
  rw [List.nil_append, hone] at heq
  exact heq.symm

/-! ### The threads of the server -/

/-- Behind its whole messages a buffer has a header, and not all of the payload. -/
def EndsInPayload (bs : List UInt8) : Prop :=
  ∃ us rest, bs = stream us ++ rest ∧ Incomplete rest ∧ 5 ≤ rest.length

/-- A call on a buffer of whole messages and a rest leaves a block for the rest. -/
theorem exists_assembles_owned {us : List Tlv} {rest : List UInt8} (al : Allocator) (fd : ℤ)
    (hbytes : b.bytes = stream us ++ rest) (hrest : Incomplete rest) :
    ∃ s' ev, Assembles al fd b initTlvState s' ev ∧
      s'.tlvData.owned = if 5 ≤ rest.length then 1 else 0 := by
  obtain ⟨s₁, ev₁, hclean, hr, -, hrun⟩ :=
    exists_clean_of_stream al fd clean_initTlvState (by rwa [List.drop_zero]) (Nat.zero_le _)
  rw [Nat.zero_add] at hclean hr
  have hdrop : b.bytes.drop (stream us).length = rest := by rw [hbytes, List.drop_left' rfl]
  have hlength : b.bytes.length = (stream us).length + rest.length := by
    rw [hbytes, List.length_append]
  rw [Incomplete, ← hdrop] at hrest
  rcases Nat.lt_or_ge rest.length 5 with hshort | hwhole
  · rw [if_neg (Nat.not_le.mpr hshort)]
    rcases Nat.eq_or_lt_of_le hr with heq | hlt
    · have hpass := passOn_idle_end al fd (heq ▸ hclean.toIdle)
      exact ⟨_, _, ⟨_, hrun _ _ (.ret hpass)⟩, congrArg Pointer.owned hclean.data_eq⟩
    · obtain ⟨s', hpass, -, hdata⟩ := passOn_idle_short al fd hclean.toIdle hlt (by omega)
      refine ⟨s', _, ⟨_, hrun _ _ (.ret hpass)⟩, ?_⟩
      rw [hdata, hclean.data_eq]
      rfl
  · -- a header, and a part of its payload
    have hheader : (stream us).length + 5 ≤ b.bytes.length := by omega
    obtain ⟨s₂, hpass, hfilling, -, hdata⟩ := passOn_idle al fd hclean.toIdle hheader
    obtain ⟨s', hfill, -, hblock⟩ := fill_of_lt al fd hfilling hheader (by
      rw [List.length_drop] at hrest
      rw [RecvBuff.headerAt]
      omega)
    refine ⟨s', _, ⟨_, hrun _ _ (.ret (hpass.trans hfill))⟩, ?_⟩
    rw [if_pos hwhole, hblock, Pointer.owned_memcpy, hdata]
    rfl

/-- **A thread of the server loses a block** exactly if its read ends inside a payload: the
state with the pointer ends with the thread. -/
theorem owned_of_assembles (al : Allocator) (fd : ℤ) (b : RecvBuff) (s' : TLVState)
    (ev : List Event) (hcall : Assembles al fd b initTlvState s' ev) :
    s'.tlvData.owned = 1 ↔ EndsInPayload b.bytes := by
  have hparse {us : List Tlv} {rest : List UInt8} (hbytes : b.bytes = stream us ++ rest)
      (hrest : Incomplete rest) : s'.tlvData.owned = if 5 ≤ rest.length then 1 else 0 := by
    obtain ⟨s₁, ev₁, ⟨code₁, hret₁⟩, howned⟩ := exists_assembles_owned al fd hbytes hrest
    obtain ⟨code, hret⟩ := hcall
    obtain ⟨heq, -⟩ := hret.unique hret₁
    rw [(Prod.mk.inj heq).2, howned]
  constructor
  · intro hone
    have hinit := clean_initTlvState
    have hknown : ¬ UnknownEnds b.bytes := fun h =>
      not_assembles_of_unknownEnds h (.idle hinit.toIdle (Nat.zero_le _))
        (hinit.unknownEndsIn_iff.mpr h) hcall
    obtain ⟨us, rest, hbytes, hrest⟩ := exists_parse hknown
    refine ⟨us, rest, hbytes, hrest, ?_⟩
    by_contra hshort
    have hnone := hparse hbytes hrest
    rw [if_neg hshort, hone] at hnone
    cases hnone
  · rintro ⟨us, rest, hbytes, hrest, hfive⟩
    rw [hparse hbytes hrest, if_pos hfive]

/-- A payload of two bytes, of which one was read. -/
theorem owned_of_assembles_halfBuff :
    halfState.tlvData.owned = 1 ↔ EndsInPayload halfBuff.bytes :=
  owned_of_assembles .exact 4 halfBuff halfState [.memcpy 5 0 1 [65]]
    ⟨tlvContinue, .ret rfl⟩

end Multicast
