import Mathlib.Data.List.Flatten
import Mathlib.Data.List.Forall2
import Multicast.Tlv.Pass

/-!
# Calls on successive buffers

A run is taken apart at two places: between two passes of one call, and between
two calls. `Continues` is a run entered at the label, so that both cuts have one
form. A message that lies in the buffer as a whole takes one pass.

## Main definitions

* `Multicast.joined` — the bytes of successive buffers
* `Multicast.Continues` — the rest of a call, and the calls after it
* `Multicast.Tlv.call` — the handler call for a message received as a whole

## Main results

* `continues_goto_iff`, `continues_ret_iff` — a run after one more pass
* `feeds_append_iff` — a run is cut between two calls
* `Feeds.unique` — the state and the events of a run are determined
* `passOn_message` — the pass that consumes a whole message
* `exists_clean_of_stream` — the passes that consume several of them
* `exists_feeds_of_groups` — the calls on buffers of whole messages
-/

set_option autoImplicit false

namespace Multicast

open HeapBlock GotoLoop

/-- The bytes of successive buffers. -/
def joined (bufs : List RecvBuff) : List UInt8 := bufs.flatMap RecvBuff.bytes

@[simp] theorem joined_nil : joined [] = [] := rfl

@[simp] theorem joined_cons (b : RecvBuff) (bufs : List RecvBuff) :
    joined (b :: bufs) = b.bytes ++ joined bufs := rfl

@[simp] theorem joined_append (bufs bufs' : List RecvBuff) :
    joined (bufs ++ bufs') = joined bufs ++ joined bufs' := List.flatMap_append

variable (al : Allocator) (fd : ℤ)

/-- The loop, entered at the label in state `s` on a buffer that begins at offset
`base` of the stream, returns; the calls on `bufs` follow. -/
def Continues (base : ℕ) (b : RecvBuff) (bufs : List RecvBuff) (s s' : TLVState)
    (ev : List Event) : Prop :=
  ∃ code s₁ ev₁ ev₂, Returns (passOn al fd b) s (code, s₁) ev₁ ∧
    Feeds al fd (base + b.bytes.length) bufs s₁ s' ev₂ ∧
    ev = ev₁.map (Event.shift base) ++ ev₂

variable {al fd} {base : ℕ} {b : RecvBuff} {bufs bufs' : List RecvBuff}
variable {s s' s'' s₁ : TLVState} {ev ev' ev₁ : List Event}

theorem feeds_cons_iff :
    Feeds al fd base (b :: bufs) s s' ev ↔ Continues al fd base b bufs s s' ev := by
  constructor
  · rintro (_ | ⟨⟨code, hret⟩, hrest⟩)
    exact ⟨code, _, _, _, hret, hrest, rfl⟩
  · rintro ⟨code, s₁, ev₁, ev₂, hret, hrest, rfl⟩
    exact .cons ⟨code, hret⟩ hrest

@[simp] theorem feeds_nil_iff : Feeds al fd base [] s s' ev ↔ s' = s ∧ ev = [] := by
  constructor
  · rintro ⟨⟩
    exact ⟨rfl, rfl⟩
  · rintro ⟨rfl, rfl⟩
    exact .nil

/-- A run whose next pass jumps back to the label. -/
theorem continues_goto_iff (hpass : passOn al fd b s = (.goto s₁, ev₁)) :
    Continues al fd base b bufs s s' ev ↔
      ∃ rest, ev = ev₁.map (Event.shift base) ++ rest ∧
        Continues al fd base b bufs s₁ s' rest := by
  constructor
  · rintro ⟨code, s₂, ev₂, ev₃, hret, hrest, rfl⟩
    obtain ⟨ev₄, rfl, hnext⟩ := hret.inv_goto hpass
    exact ⟨ev₄.map (Event.shift base) ++ ev₃, by simp, code, s₂, ev₄, ev₃, hnext, hrest, rfl⟩
  · rintro ⟨rest, rfl, code, s₂, ev₄, ev₃, hret, hrest, rfl⟩
    exact ⟨code, s₂, ev₁ ++ ev₄, ev₃, .goto hpass hret, hrest, by simp⟩

/-- A run whose next pass returns. -/
theorem continues_ret_iff {code : ℕ} (hpass : passOn al fd b s = (.ret (code, s₁), ev₁)) :
    Continues al fd base b bufs s s' ev ↔
      ∃ rest, ev = ev₁.map (Event.shift base) ++ rest ∧
        Feeds al fd (base + b.bytes.length) bufs s₁ s' rest := by
  constructor
  · rintro ⟨code', s₂, ev₂, ev₃, hret, hrest, rfl⟩
    obtain ⟨hout, rfl⟩ := hret.inv_ret hpass
    obtain ⟨-, rfl⟩ := Prod.ext_iff.mp hout
    exact ⟨ev₃, rfl, hrest⟩
  · rintro ⟨rest, rfl, hrest⟩
    exact ⟨code, s₁, ev₁, rest, .ret hpass, hrest, rfl⟩

/-- A run is cut between two calls. -/
theorem feeds_append_iff : Feeds al fd base (bufs ++ bufs') s s'' ev ↔
    ∃ s' ev₁ ev₂, Feeds al fd base bufs s s' ev₁ ∧
      Feeds al fd (base + (joined bufs).length) bufs' s' s'' ev₂ ∧ ev = ev₁ ++ ev₂ := by
  constructor
  · intro h
    induction bufs generalizing base s ev with
    | nil => exact ⟨s, [], ev, .nil, h, rfl⟩
    | cons b bufs ih =>
      obtain ⟨code, s₁, ev₁, rest, hret, hrest, rfl⟩ := feeds_cons_iff.mp h
      obtain ⟨s', ev₂, ev₃, hfront, hback, rfl⟩ := ih hrest
      refine ⟨s', _, ev₃, .cons ⟨code, hret⟩ hfront, ?_, by simp⟩
      rwa [joined_cons, List.length_append, ← Nat.add_assoc]
  · rintro ⟨s', ev₁, ev₂, hfront, hback, rfl⟩
    induction hfront with
    | nil => exact hback
    | cons hcall _ ih =>
      rw [List.append_assoc]
      refine .cons hcall (ih ?_)
      rwa [joined_cons, List.length_append, ← Nat.add_assoc] at hback

/-- The state and the events of a run are determined. -/
theorem Feeds.unique (h : Feeds al fd base bufs s s' ev)
    (h' : Feeds al fd base bufs s s'' ev') : s' = s'' ∧ ev = ev' := by
  induction h generalizing s'' ev' with
  | nil =>
    obtain ⟨rfl, rfl⟩ := feeds_nil_iff.mp h'
    exact ⟨rfl, rfl⟩
  | cons hcall _ ih =>
    obtain ⟨code, hret⟩ := hcall
    obtain ⟨code', s₁, ev₁, rest, hret', hrest, rfl⟩ := feeds_cons_iff.mp h'
    obtain ⟨hout, rfl⟩ := hret.unique hret'
    obtain ⟨-, rfl⟩ := Prod.ext_iff.mp hout
    obtain ⟨rfl, rfl⟩ := ih hrest
    exact ⟨rfl, rfl⟩

/-- What follows buffers whose run is known. -/
theorem Feeds.append_iff (h : Feeds al fd base bufs s s₁ ev₁) :
    Feeds al fd base (bufs ++ bufs') s s' ev ↔
      ∃ rest, ev = ev₁ ++ rest ∧ Feeds al fd (base + (joined bufs).length) bufs' s₁ s' rest := by
  rw [feeds_append_iff]
  constructor
  · rintro ⟨s₂, ev₂, rest, hfront, hback, rfl⟩
    obtain ⟨rfl, rfl⟩ := h.unique hfront
    exact ⟨rest, rfl, hback⟩
  · rintro ⟨rest, rfl, hback⟩
    exact ⟨s₁, ev₁, rest, h, hback, rfl⟩

/-! ### Events -/

@[simp] theorem calls_nil : calls [] = [] := rfl

@[simp] theorem calls_append : calls (ev ++ ev') = calls ev ++ calls ev' :=
  List.filterMap_append

@[simp] theorem calls_cons_call (handlerCall : HandlerCall) :
    calls (.call handlerCall :: ev) = handlerCall :: calls ev := rfl

@[simp] theorem calls_cons_memcpy (src dst room : ℕ) (bytes : List UInt8) :
    calls (.memcpy src dst room bytes :: ev) = calls ev := rfl

@[simp] theorem calls_cons_discard (type : UInt8) (next : ℕ) :
    calls (.discard type next :: ev) = calls ev := rfl

/-- Handler calls do not mention the place in the stream. -/
@[simp] theorem calls_map_shift : calls (ev.map (Event.shift base)) = calls ev := by
  induction ev with
  | nil => rfl
  | cons e ev ih => cases e <;> simp [Event.shift, ih]

/-- One more call. -/
theorem Feeds.exists_snoc (h : Feeds al fd base bufs s s₁ ev₁)
    (hcall : Assembles al fd b s₁ s' ev) :
    ∃ ev', Feeds al fd base (bufs ++ [b]) s s' ev' ∧ calls ev' = calls ev₁ ++ calls ev := by
  refine ⟨_, h.append_iff.mpr ⟨_, rfl, .cons hcall .nil⟩, ?_⟩
  rw [calls_append, calls_append, calls_map_shift, calls_nil, List.append_nil]

/-! ### Whole messages -/

theorem stream_append (ts us : List Tlv) : stream (ts ++ us) = stream ts ++ stream us :=
  List.flatMap_append

/-- The call for a message received as a whole: the handler gets a new block that
begins with the payload. -/
def Tlv.call (al : Allocator) (fd : ℤ) (t : Tlv) : HandlerCall :=
  t.type.handler fd ((Pointer.null.realloc al t.payload.length).memcpy 0 t.payload) t.length

@[simp] theorem Tlv.type_call (t : Tlv) : (t.call al fd).type = t.type := by simp [call]

/-- The handler reads the payload that was sent, in every range. -/
theorem Tlv.read_data_call (t : Tlv) {off n : ℕ} (h : off + n ≤ t.payload.length) :
    (t.call al fd).data.read off n = some ((t.payload.drop off).take n) := by
  rw [Tlv.call, TlvType.data_handler]
  exact Pointer.read_memcpy_fresh al t.payload h

variable (al fd) {r : ℕ} {t : Tlv} {rest : List UInt8}

/-- A pass that finds the whole header of a message goes on with the payload. -/
theorem passOn_header (h : Idle s r) (hbytes : b.bytes.drop r = t.header ++ rest) :
    ∃ s₁, passOn al fd b s = fill al b.bytes b.len fd s₁ ∧
      Filling s₁ t.type.code t.length 0 (r + 5) ∧ s₁.tlvData = .null ∧
      r + 5 ≤ b.bytes.length := by
  have hlength := congrArg List.length hbytes
  rw [List.length_drop, List.length_append, Tlv.length_header] at hlength
  have hwhole : r + 5 ≤ b.bytes.length := by omega
  obtain ⟨s₁, hpass, hfilling, -, hdata⟩ := passOn_idle al fd h hwhole
  rw [RecvBuff.headerAt, hbytes, headerOf_append] at hfilling
  exact ⟨s₁, hpass, hfilling, hdata, hwhole⟩

/-- A message that lies in the buffer as a whole takes one pass. -/
theorem passOn_message (h : Idle s r) (hbytes : b.bytes.drop r = t.bytes ++ rest) :
    ∃ s', passOn al fd b s = (.goto s',
        [.memcpy (r + 5) 0 (al.usable t.payload.length) t.payload, .call (t.call al fd)]) ∧
      Clean s' (r + t.bytes.length) ∧ r + t.bytes.length ≤ b.bytes.length := by
  have hlength := congrArg List.length hbytes
  rw [List.length_drop, List.length_append, Tlv.length_bytes] at hlength
  rw [Tlv.bytes, List.append_assoc] at hbytes
  obtain ⟨s₁, hpass, hfilling, hdata, hwhole⟩ := passOn_header al fd h hbytes
  obtain ⟨s', hfill, hclean⟩ := fill_of_known al fd (TlvType.ofCode_code t.type) hfilling hwhole
    (by rw [Tlv.toNat_length]; omega)
  have hpayload : (b.bytes.drop (r + 5)).take t.payload.length = t.payload := by
    rw [← List.drop_drop, hbytes, List.drop_left' t.length_header, List.take_left' rfl]
  simp only [Tlv.toNat_length, Nat.sub_zero, hpayload, hdata] at hfill hclean
  rw [Pointer.realloc_null, Pointer.room_block, List.length_replicate] at hfill
  refine ⟨s', hpass.trans hfill, ?_, by rw [Tlv.length_bytes]; omega⟩
  rwa [Tlv.length_bytes, ← Nat.add_assoc]

/-- Messages that lie in the buffer one after another are consumed one by one. What
the loop does then, it does behind them. -/
theorem exists_clean_of_stream {ts : List Tlv} (h : Clean s r)
    (hbytes : b.bytes.drop r = stream ts ++ rest) (hr : r ≤ b.bytes.length) :
    ∃ s' ev, Clean s' (r + (stream ts).length) ∧ r + (stream ts).length ≤ b.bytes.length ∧
      calls ev = ts.map (Tlv.call al fd) ∧
      ∀ out ev', Returns (passOn al fd b) s' out ev' →
        Returns (passOn al fd b) s out (ev ++ ev') := by
  induction ts generalizing s r with
  | nil => exact ⟨s, [], h, hr, rfl, fun _ _ hret => hret⟩
  | cons t ts ih =>
    have hcons : stream (t :: ts) = t.bytes ++ stream ts := by
      rw [stream_cons, Tlv.bytes, List.append_assoc]
    rw [hcons, List.append_assoc] at hbytes
    -- one pass for the first message, and the others are behind it
    obtain ⟨s₁, hpass, hclean, hr₁⟩ := passOn_message al fd h.toIdle hbytes
    have hnext : b.bytes.drop (r + t.bytes.length) = stream ts ++ rest := by
      rw [← List.drop_drop, hbytes, List.drop_left' rfl]
    obtain ⟨s', ev, hclean', hr', hcalls, hrun⟩ := ih hclean hnext hr₁
    have hplace : r + (stream (t :: ts)).length =
        r + t.bytes.length + (stream ts).length := by
      rw [hcons, List.length_append, Nat.add_assoc]
    refine ⟨s', [.memcpy (r + 5) 0 (al.usable t.payload.length) t.payload,
      .call (t.call al fd)] ++ ev, hplace ▸ hclean', hplace ▸ hr', ?_, fun out ev' hret => ?_⟩
    · rw [calls_append, hcalls]
      rfl
    · rw [List.append_assoc]
      exact .goto hpass (hrun out ev' hret)

/-- A buffer of whole messages leaves the receiver clean. -/
theorem exists_assembles_stream {ts : List Tlv} (h : Clean s 0) (hbytes : b.bytes = stream ts) :
    ∃ s' ev, Assembles al fd b s s' ev ∧ Clean s' 0 ∧ calls ev = ts.map (Tlv.call al fd) := by
  have hstream : b.bytes.drop 0 = stream ts ++ [] := by
    rw [List.drop_zero, hbytes, List.append_nil]
  obtain ⟨s₁, ev, hclean, -, hcalls, hrun⟩ :=
    exists_clean_of_stream al fd h hstream (Nat.zero_le _)
  rw [Nat.zero_add, ← hbytes] at hclean
  refine ⟨_, ev ++ [], ⟨_, hrun _ _ (.ret (passOn_idle_end al fd hclean.toIdle))⟩,
    hclean.rewind, ?_⟩
  rw [List.append_nil, hcalls]

/-- Buffers of whole messages are consumed buffer by buffer. -/
theorem exists_feeds_of_groups {groups : List (List Tlv)} (base : ℕ) (hs : Clean s 0)
    (h : List.Forall₂ (fun b group => b.bytes = stream group) bufs groups) :
    ∃ s' ev, Feeds al fd base bufs s s' ev ∧ Clean s' 0 ∧
      calls ev = groups.flatten.map (Tlv.call al fd) := by
  induction h generalizing s base with
  | nil => exact ⟨s, [], .nil, hs, rfl⟩
  | @cons b group bufs groups hbytes _ ih =>
    obtain ⟨s₁, ev, hcall, hs₁, hcalls⟩ := exists_assembles_stream al fd hs hbytes
    obtain ⟨s', ev', hrun, hs', hcalls'⟩ := ih (base + b.bytes.length) hs₁
    refine ⟨s', _, .cons hcall hrun, hs', ?_⟩
    rw [calls_append, calls_map_shift, hcalls, hcalls', List.flatten_cons, List.map_append]

end Multicast
