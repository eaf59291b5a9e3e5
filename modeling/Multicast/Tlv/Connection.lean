import Multicast.Tlv.Termination
import Multicast.Tlv.Runs

/-!
# One connection, read by many threads

The server starts a thread for every notification on a descriptor. The thread has a
`TLV_State` of its own, reads once, hands what it read to `assemble_tlv` and ends.
What the bytes of a read begin is therefore lost unless they also end it.

What a fresh receiver makes of a buffer can be told from the bytes: the messages at
the front are dispatched, and the rest, which is no whole message, is dropped. The
bytes of a connection are then counted: as many were sent as were dispatched and
dropped.

## Main definitions

* `Multicast.Read` — one read, with what the thread finds in `errno` and `read_size`
* `Multicast.ClientCommunication` — the events of one thread
* `Multicast.Serves` — the events of the threads, one after another
* `Multicast.SameCalls` — the handler calls do not depend on the reads

## Main results

* `exists_parse` — bytes without an unknown type are messages and a rest
* `calls_of_assembles` — the calls of a fresh receiver
* `sameCalls_iff` — the calls are those of the stream exactly when every read ends at
  the end of a message and none is dropped
-/

set_option autoImplicit false

namespace Multicast

open HeapBlock GotoLoop

/-! ### Threads -/

/-- `EAGAIN`, and `EWOULDBLOCK`. -/
def eagain : ℤ := 11

/-- `sizeof (arrayreceived)`. -/
def arrayReceivedSize : ℕ := 4 * 4096

/-- A read of a thread: the bytes, at least one and no more than fit the array, and
what the thread finds in `errno` and in its variable `read_size` afterwards. A read
that succeeds sets neither of them. -/
structure Read where
  buff : RecvBuff
  nonempty : buff.bytes ≠ []
  length_le : buff.bytes.length ≤ arrayReceivedSize
  errno : ℤ
  readSize : ℤ

/-- The branches of `client_Communication` that do not look at the bytes. -/
def Read.dropped (rd : Read) : Prop := rd.errno = eagain ∨ rd.readSize = -1

variable (al : Allocator) (fd : ℤ)

/-- `client_Communication` for one read, and the events of its call of
`assemble_tlv`. -/
def ClientCommunication (rd : Read) (ev : List Event) : Prop :=
  if rd.errno = eagain then ev = []
  else if rd.readSize = -1 then ev = []
  else ∃ s', Assembles al fd rd.buff initTlvState s' ev

/-- The threads of one descriptor, one after another. -/
inductive Serves : List Read → List Event → Prop
  | nil : Serves [] []
  | cons {rd : Read} {rds : List Read} {ev ev' : List Event} :
      ClientCommunication al fd rd ev → Serves rds ev' → Serves (rd :: rds) (ev ++ ev')

/-- The buffers are the stream of the messages, cut only between messages. -/
def CutAtTlvs (ts : List Tlv) (bufs : List RecvBuff) : Prop :=
  ∃ groups : List (List Tlv), groups.flatten = ts ∧
    List.Forall₂ (fun b group => b.bytes = stream group) bufs groups

/-- The handler calls of the threads are those made when the stream is handed to one
receiver in buffers cut only between messages. -/
def SameCalls (ts : List Tlv) (reads : List Read) : Prop :=
  ∃ ev, Serves al fd reads ev ∧ ∃ bufs s' ev', CutAtTlvs ts bufs ∧
    Feeds al fd 0 bufs initTlvState s' ev' ∧ calls ev = calls ev'

variable {al fd} {b : RecvBuff} {s s' : TLVState} {bs rest : List UInt8} {ev : List Event}
variable {t u : Tlv} {ts us : List Tlv}

/-! ### Parsing -/

/-- The bytes do not hold the whole message that they begin. -/
def Incomplete (bs : List UInt8) : Prop := bs.length < 5 + (headerOf bs).length.toNat

/-- Bytes that hold the whole message that they begin, one of a known type. -/
theorem exists_tlv_of_headerOf {type : TlvType} (hle : 5 + (headerOf bs).length.toNat ≤ bs.length)
    (htype : TlvType.ofCode (headerOf bs).type = some type) :
    ∃ (t : Tlv) (rest : List UInt8), bs = t.bytes ++ rest ∧
      t.bytes.length = 5 + (headerOf bs).length.toNat := by
  obtain ⟨c, bs, rfl⟩ : ∃ c bs', bs = c :: bs' := List.exists_cons_of_ne_nil (by
    rintro rfl
    rw [List.length_nil] at hle
    omega)
  rw [List.length_cons] at hle
  have hfour : (bs.take 4).length = 4 := by
    rw [List.length_take]
    omega
  have hlength : (headerOf (c :: bs)).length = ntohl (bs.take 4) := rfl
  have hcode : type.code = c := TlvType.code_of_ofCode htype
  rw [hlength] at hle ⊢
  have hpayload : ((bs.drop 4).take (ntohl (bs.take 4)).toNat).length =
      (ntohl (bs.take 4)).toNat := by
    rw [List.length_take, List.length_drop]
    omega
  -- the message has the type and the payload that the header announces
  refine ⟨⟨type, (bs.drop 4).take (ntohl (bs.take 4)).toNat, ?_⟩,
    (bs.drop 4).drop (ntohl (bs.take 4)).toNat, ?_, ?_⟩
  · rw [hpayload]
    exact (ntohl (bs.take 4)).isLt
  · simp only [Tlv.bytes, Tlv.header, Tlv.length, hpayload, hcode, BitVec.ofNat_toNat,
      BitVec.setWidth_eq, htonl_ntohl hfour, List.cons_append, List.append_assoc,
      List.take_append_drop]
  · rw [Tlv.length_bytes, hpayload]

/-- Bytes in which no message of an unknown type ends are whole messages and a rest. -/
theorem exists_parse (h : ¬ UnknownEnds bs) :
    ∃ us rest, bs = stream us ++ rest ∧ Incomplete rest := by
  -- a message takes five bytes at least
  induction hn : bs.length using Nat.strongRecOn generalizing bs with
  | ind n ih =>
    rcases Nat.lt_or_ge bs.length (5 + (headerOf bs).length.toNat) with hlt | hle
    · exact ⟨[], bs, rfl, hlt⟩
    cases htype : TlvType.ofCode (headerOf bs).type with
    | none => exact absurd (.here hle htype) h
    | some type =>
      obtain ⟨t, more, hbs, hlength⟩ := exists_tlv_of_headerOf hle htype
      have hdrop : bs.drop (5 + (headerOf bs).length.toNat) = more := by
        rw [← hlength]
        conv_lhs => rw [hbs]
        exact List.drop_left' rfl
      have hmore : ¬ UnknownEnds more := fun hends => h (.later hle (hdrop ▸ hends))
      have hcount := congrArg List.length hbs
      rw [List.length_append] at hcount
      obtain ⟨us, rest, rfl, hrest⟩ := ih more.length (by omega) hmore rfl
      refine ⟨t :: us, rest, ?_, hrest⟩
      rw [hbs, stream_cons, Tlv.bytes]
      simp only [List.append_assoc]

/-! ### One thread -/

/-- The rest of a buffer, behind its whole messages, makes no call. -/
theorem exists_returns_of_incomplete {r : ℕ} (al : Allocator) (fd : ℤ) (h : Clean s r)
    (hr : r ≤ b.bytes.length) (hrest : Incomplete (b.bytes.drop r)) :
    ∃ out ev, Returns (passOn al fd b) s out ev ∧ calls ev = [] := by
  rw [Incomplete, List.length_drop] at hrest
  rcases Nat.eq_or_lt_of_le hr with rfl | hlt
  · exact ⟨_, [], .ret (passOn_idle_end al fd h.toIdle), rfl⟩
  rcases Nat.lt_or_ge b.bytes.length (r + 5) with hshort | hwhole
  · obtain ⟨s', hpass, -⟩ := passOn_idle_short al fd h.toIdle hlt hshort
    exact ⟨_, [], .ret hpass, rfl⟩
  · -- a header, and a part of its payload
    obtain ⟨s₁, hpass, hfilling, -⟩ := passOn_idle al fd h.toIdle hwhole
    obtain ⟨s', hfill, -⟩ := fill_of_lt al fd hfilling hwhole (by
      rw [RecvBuff.headerAt]
      omega)
    exact ⟨_, _, .ret (hpass.trans hfill), rfl⟩

/-- The calls of a fresh receiver are those of the messages at the front of its
buffer. -/
theorem calls_of_assembles (hcall : Assembles al fd b initTlvState s' ev) :
    ∃ us rest, b.bytes = stream us ++ rest ∧ calls ev = us.map (Tlv.call al fd) := by
  have hinit := clean_initTlvState
  -- the call returned, so that no message of an unknown type ends in the buffer
  have hknown : ¬ UnknownEnds b.bytes := fun h =>
    not_assembles_of_unknownEnds h (.idle hinit.toIdle (Nat.zero_le _))
      (hinit.unknownEndsIn_iff.mpr h) hcall
  obtain ⟨us, rest, hbytes, hrest⟩ := exists_parse hknown
  obtain ⟨s₁, ev₁, hclean, hr, hcalls, hrun⟩ :=
    exists_clean_of_stream al fd hinit (by rwa [List.drop_zero]) (Nat.zero_le _)
  rw [Nat.zero_add] at hclean hr
  obtain ⟨out, ev₂, hret, hnone⟩ := exists_returns_of_incomplete al fd hclean hr (by
    rwa [hbytes, List.drop_left' rfl])
  obtain ⟨code, hret'⟩ := hcall
  obtain ⟨-, rfl⟩ := hret'.unique (hrun out ev₂ hret)
  exact ⟨us, rest, hbytes, by rw [calls_append, hcalls, hnone, List.append_nil]⟩

/-- A handler call tells the message. -/
theorem Tlv.call_injective (al : Allocator) (fd : ℤ) : Function.Injective (Tlv.call al fd) := by
  intro t u h
  have htype : t.type = u.type := by
    have h' := congrArg HandlerCall.type h
    simpa using h'
  -- the cells that have a value are the payload
  have hdata := congrArg HandlerCall.data h
  simp only [Tlv.call, TlvType.data_handler, Pointer.memcpy_realloc_null,
    Pointer.block.injEq] at hdata
  have hpayload : t.payload = u.payload := by
    simpa [List.filterMap_map] using congrArg (List.filterMap id) hdata
  cases t
  cases u
  simp_all

/-- A thread dispatches the messages at the front of its bytes, none if it drops
them. -/
theorem ClientCommunication.exists_calls {rd : Read} (h : ClientCommunication al fd rd ev) :
    ∃ us rest, rd.buff.bytes = stream us ++ rest ∧ calls ev = us.map (Tlv.call al fd) ∧
      (rd.dropped → us = []) := by
  rw [ClientCommunication] at h
  split at h
  next => exact ⟨[], rd.buff.bytes, rfl, by rw [h]; rfl, fun _ => rfl⟩
  split at h
  next => exact ⟨[], rd.buff.bytes, rfl, by rw [h]; rfl, fun _ => rfl⟩
  next herrno hsize =>
    obtain ⟨s', hcall⟩ := h
    obtain ⟨us, rest, hbytes, hcalls⟩ := calls_of_assembles hcall
    refine ⟨us, rest, hbytes, hcalls, ?_⟩
    rintro (hdropped | hdropped)
    · exact absurd hdropped herrno
    · exact absurd hdropped hsize

/-! ### A connection -/

/-- The threads dispatch no more than was read. If they dispatch all of it, every read
is a group of whole messages and none is dropped. -/
theorem Serves.exists_calls {rds : List Read} (h : Serves al fd rds ev) :
    ∃ groups : List (List Tlv), calls ev = groups.flatten.map (Tlv.call al fd) ∧
      (stream groups.flatten).length ≤ (joined (rds.map Read.buff)).length ∧
      ((stream groups.flatten).length = (joined (rds.map Read.buff)).length →
        List.Forall₂ (fun b group => b.bytes = stream group) (rds.map Read.buff) groups ∧
          ∀ rd ∈ rds, ¬ rd.dropped) := by
  induction h with
  | nil => exact ⟨[], rfl, Nat.le_refl _, fun _ => ⟨.nil, by simp⟩⟩
  | @cons rd rds ev ev' hthread _ ih =>
    obtain ⟨groups, hcalls', hle', hall'⟩ := ih
    obtain ⟨us, rest, hbytes, hcalls, hdropped⟩ := hthread.exists_calls
    have hlength := congrArg List.length hbytes
    rw [List.length_append] at hlength
    simp only [List.length_append, List.map_cons, joined_cons]
    refine ⟨us :: groups, ?_, ?_, fun heq => ?_⟩
    · rw [calls_append, hcalls, hcalls', List.flatten_cons, List.map_append]
    · rw [List.flatten_cons, stream_append, List.length_append]
      omega
    · rw [List.flatten_cons, stream_append, List.length_append] at heq
      -- both counts are sums of terms of which none is too large
      obtain ⟨hforall, hnone⟩ := hall' (by omega)
      have hrest : rest = [] := List.eq_nil_of_length_eq_zero (by omega)
      rw [hrest, List.append_nil] at hbytes
      refine ⟨.cons hbytes hforall, ?_⟩
      rintro rd' (_ | ⟨_, hmem⟩)
      · -- a dropped read would dispatch nothing, and it holds a byte
        intro hd
        apply rd.nonempty
        rw [hbytes, hdropped hd, stream_nil]
      · exact hnone rd' hmem

/-- Reads that are groups of whole messages are served message by message. -/
theorem exists_serves {rds : List Read} {groups : List (List Tlv)} (al : Allocator) (fd : ℤ)
    (h : List.Forall₂ (fun b group => b.bytes = stream group) (rds.map Read.buff) groups)
    (hnone : ∀ rd ∈ rds, ¬ rd.dropped) :
    ∃ ev, Serves al fd rds ev ∧ calls ev = groups.flatten.map (Tlv.call al fd) := by
  induction rds generalizing groups with
  | nil =>
    obtain rfl := List.forall₂_nil_left_iff.mp h
    exact ⟨[], .nil, rfl⟩
  | cons rd rds ih =>
    obtain ⟨group, groups, hbytes, hrest, rfl⟩ := List.forall₂_cons_left_iff.mp h
    obtain ⟨ev', hserves, hcalls'⟩ := ih hrest fun rd' hmem => hnone rd' (.tail _ hmem)
    obtain ⟨s', ev, hcall, -, hcalls⟩ :=
      exists_assembles_stream al fd clean_initTlvState hbytes
    have hread : ClientCommunication al fd rd ev := by
      have hkept := hnone rd (.head _)
      rw [Read.dropped, not_or] at hkept
      rw [ClientCommunication, if_neg hkept.1, if_neg hkept.2]
      exact ⟨s', hcall⟩
    refine ⟨ev ++ ev', .cons hread hserves, ?_⟩
    rw [calls_append, hcalls, hcalls', List.flatten_cons, List.map_append]

/-- One receiver, given buffers cut only between messages, dispatches every message. -/
theorem exists_feeds_of_cutAtTlvs {bufs : List RecvBuff} (al : Allocator) (fd : ℤ) (base : ℕ)
    (hs : Clean s 0) (h : CutAtTlvs ts bufs) :
    ∃ s' ev, Feeds al fd base bufs s s' ev ∧ calls ev = ts.map (Tlv.call al fd) := by
  obtain ⟨groups, rfl, hforall⟩ := h
  obtain ⟨s', ev, hrun, -, hcalls⟩ := exists_feeds_of_groups al fd base hs hforall
  exact ⟨s', ev, hrun, hcalls⟩

/-- The calls of the threads are those of the messages that were sent, when they are
the calls of some run on buffers cut between messages. -/
theorem SameCalls.exists_serves {reads : List Read} (h : SameCalls al fd ts reads) :
    ∃ ev, Serves al fd reads ev ∧ calls ev = ts.map (Tlv.call al fd) := by
  obtain ⟨ev, hserves, bufs, s', ev', hcut, hrun, hcalls⟩ := h
  obtain ⟨s₁, ev₁, hrun₁, hcalls₁⟩ :=
    exists_feeds_of_cutAtTlvs al fd 0 clean_initTlvState hcut
  obtain ⟨-, rfl⟩ := hrun.unique hrun₁
  exact ⟨ev, hserves, hcalls.trans hcalls₁⟩

/-- Reads by which the calls do not change are groups of whole messages. -/
theorem cutAtTlvs_of_sameCalls {reads : List Read}
    (hdiv : joined (reads.map Read.buff) = stream ts) (h : SameCalls al fd ts reads) :
    CutAtTlvs ts (reads.map Read.buff) ∧ ∀ rd ∈ reads, ¬ rd.dropped := by
  obtain ⟨ev, hserves, hcalls⟩ := h.exists_serves
  obtain ⟨groups, hcalls', -, hall⟩ := hserves.exists_calls
  obtain rfl : ts = groups.flatten :=
    List.map_injective_iff.mpr (Tlv.call_injective al fd) (hcalls.symm.trans hcalls')
  obtain ⟨hforall, hnone⟩ := hall (congrArg List.length hdiv.symm)
  exact ⟨⟨groups, rfl, hforall⟩, hnone⟩

/-- **Independence of the reads.** The handler calls of a connection are those of its
stream if and only if every read ends at the end of a message, and no thread finds a
stale `EAGAIN` in `errno` or a stale `-1` in `read_size`. -/
theorem sameCalls_iff (al : Allocator) (fd : ℤ) (ts : List Tlv) (reads : List Read)
    (hdiv : joined (reads.map Read.buff) = stream ts) :
    SameCalls al fd ts reads ↔
      CutAtTlvs ts (reads.map Read.buff) ∧ ∀ rd ∈ reads, ¬ rd.dropped := by
  constructor
  · exact cutAtTlvs_of_sameCalls hdiv
  · rintro ⟨⟨groups, rfl, hforall⟩, hnone⟩
    obtain ⟨ev, hserves, hcalls⟩ := Multicast.exists_serves al fd hforall hnone
    obtain ⟨s', ev', hrun, hcalls'⟩ := exists_feeds_of_cutAtTlvs al fd 0
      clean_initTlvState ⟨groups, rfl, hforall⟩
    exact ⟨ev, hserves, reads.map Read.buff, s', ev', ⟨groups, rfl, hforall⟩, hrun,
      hcalls.trans hcalls'.symm⟩

/-- A keepalive message, read at once. -/
def keepAliveRead : Read := ⟨keepAliveBuff, by decide, by decide, 0, 0⟩

/-- The same message, its payload in a second read. -/
def keepAliveReads : List Read :=
  [⟨⟨[4, 0, 0, 0, 1], RecvBuff.five_lt⟩, by decide, by decide, 0, 0⟩,
    ⟨⟨[4], RecvBuff.one_lt⟩, by decide, by decide, 0, 0⟩]

theorem sameCalls_keepAliveRead :
    SameCalls .exact 4 [⟨.keepAlive, [4], by decide⟩] [keepAliveRead] :=
  (sameCalls_iff .exact 4 [⟨.keepAlive, [4], by decide⟩] [keepAliveRead] rfl).mpr
    ⟨⟨[[⟨.keepAlive, [4], by decide⟩]], rfl, .cons rfl .nil⟩,
      by simp [Read.dropped, keepAliveRead, eagain]⟩

/-- The handler of the message is not called when it arrives in two reads. -/
theorem not_sameCalls_keepAliveReads :
    joined (keepAliveReads.map Read.buff) = stream [⟨.keepAlive, [4], by decide⟩] ∧
      ¬ SameCalls .exact 4 [⟨.keepAlive, [4], by decide⟩] keepAliveReads := by
  refine ⟨rfl, fun h => ?_⟩
  obtain ⟨⟨groups, hflat, hforall⟩, -⟩ := cutAtTlvs_of_sameCalls rfl h
  obtain ⟨group, groups, hbytes, -, rfl⟩ := List.forall₂_cons_left_iff.mp hforall
  -- the first read holds five bytes, the message has six
  have hlength : 5 = (stream group).length := congrArg List.length hbytes
  rw [List.flatten_cons] at hflat
  cases group with
  | nil => simp at hlength
  | cons t group =>
    obtain ⟨rfl, -⟩ := List.cons_eq_cons.mp hflat
    simp at hlength

end Multicast
