import Multicast.Transfer.Piece

/-!
# Whether a piece arrives

A message with a full chunk fills the client's buffer, so that the client reads these
messages one by one. The last chunk and the job share what is left: the length of the
piece decides whether they fit one buffer, and otherwise whether the buffer ends inside
the payload of the job or inside its header.

A payload that goes on in the next buffer gets its block resized to the bytes that are
still missing. The job is read from it only if the allocator hands out more than it was
asked for. A header that goes on in the next buffer is lost: the five bytes behind it, the
number of the job among them, are taken for a header.

## Main definitions

* `Multicast.Piece` — a file that is sent
* `Multicast.HandsOver` — the handlers store the piece and then start the job
* `Multicast.Received` — the client reads what the server wrote, and they do

## Main results

* `exists_reads_of_full` — full messages are read one by one
* `exists_assembles_cut_payload`, `exists_assembles_of_pending` — a payload in two buffers
* `exists_assembles_cut_header`, `jobArguments_of_split` — a header in two buffers
* `received_iff` — the lengths for which a piece is received
-/

set_option autoImplicit false

namespace Multicast

open HeapBlock GotoLoop

/-- A file that is sent: it is not empty, and an `int` counts its bytes. -/
structure Piece where
  bytes : List UInt8
  bytes_ne : bytes ≠ []
  length_lt : bytes.length < 2 ^ 31

/-- The handlers leave the piece in `b.txt`, and then one of them starts the job. No other
call starts a job. -/
def HandsOver (files : Files) (piece : List UInt8) (jobId jobOperation : Word)
    (handlerCalls : List HandlerCall) : Prop :=
  ∃ front sfd jobdata back files',
    handlerCalls = front ++ .executeJob sfd jobdata :: back ∧
      (∀ handlerCall ∈ front ++ back, handlerCall.type ≠ .executeJobId) ∧
      front.foldlM handle files = some files' ∧ files' bTxt = some piece ∧
      jobArguments jobdata = some (jobId, jobOperation)

/-- The client, in a new state, reads everything that the server writes for a piece, and is
handed the piece and the job. -/
def Received (al : Allocator) (fd : ℤ) (files : Files) (piece : Piece)
    (jobId jobOperation : Word) : Prop :=
  ∃ s' ev, Feeds al fd 0 (reads (clientHandler piece.bytes jobId jobOperation)) initTlvState s' ev ∧
    HandsOver files piece.bytes jobId jobOperation (calls ev)

variable (al : Allocator) (fd : ℤ) {b : RecvBuff} {s s' : TLVState} {ts : List Tlv} {t : Tlv}
variable {front rest : List UInt8} {got k high base : ℕ} {type : UInt8} {ev : List Event}

/-! ### A buffer that ends inside a message -/

/-- The buffer ends inside the payload of the last message. -/
theorem exists_assembles_cut_payload (hs : Clean s 0)
    (hbytes : b.bytes = stream ts ++ (t.header ++ front))
    (hfront : front.length < t.payload.length) :
    ∃ s' ev, Assembles al fd b s s' ev ∧ calls ev = ts.map (Tlv.call al fd) ∧
      Pending s' t.type.code t.length front.length ∧
      s'.tlvData = (Pointer.null.realloc al front.length).memcpy 0 front := by
  have hstream : b.bytes.drop 0 = stream ts ++ (t.header ++ front) := hbytes
  obtain ⟨s₁, ev, hclean, hr, hcalls, hrun⟩ :=
    exists_clean_of_stream al fd hs hstream (Nat.zero_le _)
  rw [Nat.zero_add] at hclean hr
  -- behind the whole messages the buffer has a header and a part of the payload
  have hlast : b.bytes.drop (stream ts).length = t.header ++ front := by
    rw [hbytes, List.drop_left' rfl]
  obtain ⟨s₂, hpass, hfilling, hdata, hwhole⟩ := passOn_header al fd hclean.toIdle hlast
  have hpayload : b.bytes.drop ((stream ts).length + 5) = front := by
    rw [← List.drop_drop, hlast, List.drop_left' t.length_header]
  have hcount : b.bytes.length - ((stream ts).length + 5) = front.length := by
    rw [← List.length_drop, hpayload]
  obtain ⟨s', hfill, hpending, hdata'⟩ :=
    fill_of_lt al fd hfilling hwhole (by rw [hcount, Tlv.toNat_length]; exact hfront)
  rw [hcount, Nat.zero_add] at hpending
  rw [hcount, hpayload, hdata] at hdata'
  refine ⟨s', _, ⟨_, hrun _ _ (.ret (hpass.trans hfill))⟩, ?_, hpending, hdata'⟩
  rw [calls_append, hcalls, calls_cons_memcpy, calls_nil, List.append_nil]

/-- The next buffer has the rest of the payload: the block is resized to this rest before
the rest is copied behind what it held. -/
theorem exists_assembles_of_pending (hs : Pending s t.type.code t.length got)
    (hbytes : b.bytes = t.payload.drop got) :
    ∃ s' ev, Assembles al fd b s s' ev ∧
      calls ev = [t.type.handler fd
        ((s.tlvData.realloc al b.bytes.length).memcpy got b.bytes) t.length] := by
  have hgot := hs.got_lt
  rw [Tlv.toNat_length] at hgot
  have hcount : t.length.toNat - got = b.bytes.length := by
    rw [hbytes, List.length_drop, Tlv.toNat_length]
  obtain ⟨s', hfill, hclean⟩ := fill_of_known al fd (TlvType.ofCode_code t.type) hs.toFilling
    (Nat.zero_le b.bytes.length) (by omega)
  rw [hcount, List.drop_zero, List.take_length] at hfill
  rw [hcount, Nat.zero_add] at hclean
  have hpass := passOn_pending al fd hs (b := b)
  refine ⟨_, _, ⟨_, .goto (hpass.trans hfill) (.ret (passOn_idle_end al fd hclean.toIdle))⟩, ?_⟩
  rfl

/-- The buffer ends inside a header. -/
theorem exists_assembles_cut_header (hs : Clean s 0) (hbytes : b.bytes = stream ts ++ front)
    (hne : front ≠ []) (hshort : front.length < 5) :
    ∃ s' ev, Assembles al fd b s s' ev ∧ calls ev = ts.map (Tlv.call al fd) ∧
      SplitHeader s' (front.getD 0 0) (front.length - 1) 0 := by
  have hstream : b.bytes.drop 0 = stream ts ++ front := hbytes
  obtain ⟨s₁, ev, hclean, -, hcalls, hrun⟩ :=
    exists_clean_of_stream al fd hs hstream (Nat.zero_le _)
  rw [Nat.zero_add] at hclean
  have hpos := List.length_pos_iff.mpr hne
  have hlength : b.bytes.length = (stream ts).length + front.length := by
    rw [hbytes, List.length_append]
  obtain ⟨s', hpass, hsplit, -⟩ :=
    passOn_idle_short al fd hclean.toIdle (b := b) (by omega) (by omega)
  have htype : b.bytes.getD (stream ts).length 0 = front.getD 0 0 := by
    rw [hbytes, List.getD_eq_getElem?_getD, List.getElem?_append_right (Nat.le_refl _),
      Nat.sub_self, List.getD_eq_getElem?_getD]
  have hcount : b.bytes.length - (stream ts).length - 1 = front.length - 1 := by omega
  rw [htype, hcount, hclean.length_eq] at hsplit
  refine ⟨s', _, ⟨_, hrun _ _ (.ret hpass)⟩, ?_, hsplit⟩
  rw [calls_append, hcalls, calls_nil, List.append_nil]

/-! ### A buffer that begins inside a header -/

/-- No handler is called for fewer than five bytes. -/
theorem calls_eq_nil_of_short {r : ℕ} {out : ℕ × TLVState} (hs : Idle s r)
    (hr : r ≤ b.bytes.length) (hshort : b.bytes.length < r + 5)
    (hret : Returns (passOn al fd b) s out ev) : calls ev = [] := by
  rcases Nat.eq_or_lt_of_le hr with rfl | hlt
  · obtain ⟨-, rfl⟩ := hret.inv_ret (passOn_idle_end al fd hs)
    rfl
  · obtain ⟨s', hpass, -⟩ := passOn_idle_short al fd hs hlt hshort
    obtain ⟨-, rfl⟩ := hret.inv_ret hpass
    rfl

/-- No handler is called for a buffer that begins with a header of an unknown type: the
loop does not get behind it. -/
theorem calls_eq_nil_of_unknown {out : ℕ × TLVState}
    (hunknown : TlvType.ofCode (b.headerAt 0).type = none) (hfive : 5 ≤ b.bytes.length)
    (hs : Idle s 0) (hret : Returns (passOn al fd b) s out ev) : calls ev = [] := by
  induction hret with
  | @ret s out ev hbody =>
    obtain ⟨s₁, hpass, hfilling, -, -⟩ := passOn_idle al fd hs (b := b) (by omega)
    rw [hpass] at hbody
    rcases fill_cases al fd hfilling (by omega) with ⟨-, s₂, room, bytes, hfill, -⟩ |
      ⟨-, t, s₂, room, bytes, handlerCall, hknown, -⟩ | ⟨-, -, s₂, room, bytes, hfill, -⟩
    · obtain ⟨-, rfl⟩ := Prod.ext_iff.mp (hfill.symm.trans hbody)
      rfl
    · rw [hunknown] at hknown
      cases hknown
    · cases (Prod.ext_iff.mp (hfill.symm.trans hbody)).1
  | @goto s s' out ev ev' hbody _ ih =>
    obtain ⟨s₁, hpass, hfilling, -, -⟩ := passOn_idle al fd hs (b := b) (by omega)
    rw [hpass] at hbody
    rcases fill_cases al fd hfilling (by omega) with ⟨-, s₂, room, bytes, hfill, -⟩ |
      ⟨-, t, s₂, room, bytes, handlerCall, hknown, -⟩ | ⟨-, -, s₂, room, bytes, hfill, hidle⟩
    · cases (Prod.ext_iff.mp (hfill.symm.trans hbody)).1
    · rw [hunknown] at hknown
      cases hknown
    · -- the receiver is back at the header it came from
      obtain ⟨hnext, rfl⟩ := Prod.ext_iff.mp (hfill.symm.trans hbody)
      obtain rfl := Pass.goto.inj hnext
      rw [calls_append, ih hidle]
      rfl

theorem jobArguments_eq_none_of_room {p : Pointer UInt8} (h : p.room < 8) :
    jobArguments p = none := by
  have hread : p.read 4 4 = none := Pointer.read_eq_none_of_room_lt h
  rw [jobArguments, hread]
  cases p.read 0 4 <;> rfl

/-- Fewer than four bytes are not the number of a job. -/
theorem jobArguments_memcpy_fresh (front : List UInt8) (h : front.length < 4) :
    jobArguments ((Pointer.null.realloc al front.length).memcpy 0 front) = none := by
  rw [jobArguments, Pointer.read_memcpy_fresh_eq_none al h]
  rfl

/-- The next buffer begins inside the header, with five bytes behind it that are read as a
header and three more at most. No handler that is called for these gets a job. -/
theorem jobArguments_of_split (hs : SplitHeader s type k high)
    (hunknown : TlvType.ofCode (b.headerAt 0).type = none)
    (hmany : 4 - k + 5 ≤ b.bytes.length) (hfew : b.bytes.length < 4 - k + 9)
    (hcall : Assembles al fd b s s' ev) :
    ∀ handlerCall ∈ calls ev, jobArguments handlerCall.data = none := by
  obtain ⟨code, hret⟩ := hcall
  obtain ⟨s₁, hpass, hfilling, -, hdata⟩ := passOn_split_many al fd hs hmany
  generalize (b.headerAt (4 - k)).type = type' at hfilling
  generalize (b.headerAt (4 - k)).length = len at hfilling
  rcases Nat.lt_or_ge (b.bytes.length - (4 - k + 5) + 0) len.toNat with hlt | hle
  · -- the payload would go on
    obtain ⟨s₂, hfill, -⟩ := fill_of_lt al fd hfilling hmany hlt
    obtain ⟨-, rfl⟩ := hret.inv_ret (hpass.trans hfill)
    simp
  · cases htype : TlvType.ofCode type' with
    | none =>
      obtain ⟨s₂, hfill, hback, -, -⟩ := fill_of_unknown al fd htype hfilling hmany hle
      obtain ⟨rest, rfl, hnext⟩ := hret.inv_goto (hpass.trans hfill)
      rw [calls_append, calls_eq_nil_of_unknown al fd hunknown (by omega) hback hnext]
      simp
    | some t =>
      -- the handler gets what was left, and nothing is left behind it
      obtain ⟨s₂, hfill, hclean⟩ := fill_of_known al fd htype hfilling hmany hle
      obtain ⟨rest, rfl, hnext⟩ := hret.inv_goto (hpass.trans hfill)
      rw [calls_append, calls_eq_nil_of_short al fd hclean.toIdle (by omega) (by omega) hnext,
        hdata]
      have hlen : ((b.bytes.drop (4 - k + 5)).take (len.toNat - 0)).length = len.toNat - 0 := by
        rw [List.length_take, List.length_drop]
        omega
      have hnone := jobArguments_memcpy_fresh al
        ((b.bytes.drop (4 - k + 5)).take (len.toNat - 0)) (by omega)
      rw [hlen] at hnone
      simpa using hnone

/-! ### Reads -/

/-- Full messages are read one by one. -/
theorem exists_reads_of_full (hfull : ∀ t ∈ ts, t.bytes.length = tlvBuffSize) :
    ∃ bufs, (∀ rest, reads (stream ts ++ rest) = bufs ++ reads rest) ∧
      List.Forall₂ (fun b group => b.bytes = stream group) bufs (ts.map fun t => [t]) := by
  induction ts with
  | nil => exact ⟨[], fun rest => by simp, .nil⟩
  | cons t ts ih =>
    obtain ⟨bufs, hreads, hgroups⟩ := ih fun u hu => hfull u (List.mem_cons_of_mem t hu)
    have hlength := hfull t List.mem_cons_self
    have hcons : stream (t :: ts) = t.bytes ++ stream ts := by
      rw [stream_cons, Tlv.bytes, List.append_assoc]
    refine ⟨⟨t.bytes, by rw [hlength]; decide⟩ :: bufs, fun rest => ?_, .cons ?_ hgroups⟩
    · rw [hcons, List.append_assoc, reads_append hlength, hreads, List.cons_append]
    · simp [stream]

/-- They leave the receiver between two messages. -/
theorem exists_feeds_of_full (base : ℕ) (hfull : ∀ t ∈ ts, t.bytes.length = tlvBuffSize)
    (hs : Clean s 0) : ∃ bufs s' ev, (∀ rest, reads (stream ts ++ rest) = bufs ++ reads rest) ∧
      Feeds al fd base bufs s s' ev ∧ Clean s' 0 ∧ calls ev = ts.map (Tlv.call al fd) := by
  obtain ⟨bufs, hreads, hgroups⟩ := exists_reads_of_full hfull
  obtain ⟨s', ev, hrun, hs', hcalls⟩ := exists_feeds_of_groups al fd base hs hgroups
  have hflatten : (ts.map fun t => [t]).flatten = ts := by
    rw [← List.flatMap_def, List.flatMap_singleton']
  rw [hflatten] at hcalls
  exact ⟨bufs, s', ev, hreads, hrun, hs', hcalls⟩

/-- Messages that fit the buffer together are read at once. -/
theorem exists_feeds_of_le {us : List Tlv} (hfull : ∀ t ∈ ts, t.bytes.length = tlvBuffSize)
    (hne : stream us ≠ []) (hfits : (stream us).length ≤ tlvBuffSize) (hs : Clean s 0) :
    ∃ s' ev, Feeds al fd base (reads (stream (ts ++ us))) s s' ev ∧
      calls ev = (ts ++ us).map (Tlv.call al fd) := by
  obtain ⟨bufs, s₁, ev₁, hreads, hrun, hs₁, hcalls₁⟩ := exists_feeds_of_full al fd base hfull hs
  have hlast : stream us = stream us := rfl
  obtain ⟨s', ev, hcall, -, hcalls⟩ := exists_assembles_stream al fd hs₁ hlast
    (b := ⟨stream us, Nat.lt_of_le_of_lt hfits (by decide)⟩)
  rw [stream_append, hreads, reads_of_le hne hfits]
  refine ⟨s', _, hrun.append_iff.mpr ⟨_, rfl, .cons hcall .nil⟩, ?_⟩
  rw [calls_append, calls_append, calls_map_shift, hcalls₁, hcalls, calls_nil, List.append_nil,
    List.map_append]

/-- Bytes that leave room for `k` more are read together with these. -/
theorem reads_cut (rest : List UInt8) (hk : front.length + k = tlvBuffSize) (hlt : k < rest.length)
    (hshort : rest.length ≤ tlvBuffSize) : ∃ b₁ b₂ : RecvBuff,
      reads (front ++ rest) = [b₁, b₂] ∧ b₁.bytes = front ++ rest.take k ∧
        b₂.bytes = rest.drop k := by
  have hfirst : (front ++ rest.take k).length = tlvBuffSize := by
    rw [List.length_append, List.length_take]
    omega
  have hne : rest.drop k ≠ [] := by
    rw [← List.length_pos_iff, List.length_drop]
    omega
  have hle : (rest.drop k).length ≤ tlvBuffSize := by
    rw [List.length_drop]
    omega
  refine ⟨⟨front ++ rest.take k, by rw [hfirst]; decide⟩,
    ⟨rest.drop k, Nat.lt_of_le_of_lt hle (by decide)⟩, ?_, rfl, rfl⟩
  rw [← reads_of_le hne hle, ← reads_append hfirst, List.append_assoc, List.take_append_drop]

/-! ### Handlers -/

variable {files : Files} {piece : List UInt8} {jobId jobOperation : Word}
variable {fileCalls handlerCalls : List HandlerCall}

theorem jobArguments_block (back : List (Option UInt8)) :
    jobArguments (.block ((htonl jobId ++ htonl jobOperation).map some ++ back)) =
      some (jobId, jobOperation) := by
  have hjob := Pointer.read_block_map_some [] (htonl jobId)
    ((htonl jobOperation).map some ++ back)
  have hoperation := Pointer.read_block_map_some (htonl jobId) (htonl jobOperation) back
  rw [List.map_nil, List.nil_append, List.length_nil, length_htonl] at hjob
  rw [length_htonl, length_htonl] at hoperation
  rw [jobArguments, List.map_append, List.append_assoc, hjob, hoperation, Option.bind_some,
    Option.map_some, ntohl_htonl, ntohl_htonl]

/-- Whoever is handed a piece and a job behind calls that start no job gets the job from
one of the other calls. -/
theorem HandsOver.exists_mem
    (h : HandsOver files piece jobId jobOperation (fileCalls ++ handlerCalls))
    (hfile : ∀ handlerCall ∈ fileCalls, handlerCall.type ≠ .executeJobId) :
    ∃ sfd jobdata, HandlerCall.executeJob sfd jobdata ∈ handlerCalls ∧
      jobArguments jobdata = some (jobId, jobOperation) := by
  obtain ⟨front, sfd, jobdata, back, files', heq, -, -, -, harguments⟩ := h
  refine ⟨sfd, jobdata, ?_, harguments⟩
  have hmem : HandlerCall.executeJob sfd jobdata ∈ fileCalls ++ handlerCalls := by
    rw [heq]
    exact List.mem_append_right _ List.mem_cons_self
  rcases List.mem_append.mp hmem with hmem | hmem
  · exact absurd rfl (hfile _ hmem)
  · exact hmem

theorem type_ne_of_mem_map_fileTlvs :
    ∀ handlerCall ∈ (fileTlvs piece 0).map (Tlv.call al fd), handlerCall.type ≠ .executeJobId := by
  intro handlerCall hmem
  obtain ⟨t, ht, rfl⟩ := List.mem_map.mp hmem
  rw [Tlv.type_call]
  exact type_ne_of_mem_fileTlvs ht

/-- Behind the messages for the file, everything depends on what the job is read from. -/
theorem handsOver_fileTlvs_iff (files : Files) (hpiece : piece ≠ []) {jobdata : Pointer UInt8} :
    HandsOver files piece jobId jobOperation
        ((fileTlvs piece 0).map (Tlv.call al fd) ++ [.executeJob fd jobdata]) ↔
      jobArguments jobdata = some (jobId, jobOperation) := by
  constructor
  · intro h
    obtain ⟨sfd, jobdata', hmem, harguments⟩ := h.exists_mem (type_ne_of_mem_map_fileTlvs al fd)
    obtain ⟨rfl, rfl⟩ := HandlerCall.executeJob.inj (List.mem_singleton.mp hmem)
    exact harguments
  · intro harguments
    -- nothing is asked of the file before its first chunk
    have hstart : 0 ≠ 0 → files bTxt = some (piece.take 0) := fun hzero => absurd rfl hzero
    obtain ⟨files', hfiles, hpieceFile⟩ :=
      exists_files_of_fileTlvs al fd (List.length_pos_iff.mpr hpiece) hstart
    refine ⟨_, fd, jobdata, [], files', rfl, ?_, hfiles, hpieceFile, harguments⟩
    rw [List.append_nil]
    exact type_ne_of_mem_map_fileTlvs al fd

/-- Nothing is handed over when no call behind those for the file has a job. -/
theorem not_handsOver_fileTlvs
    (h : ∀ handlerCall ∈ handlerCalls, jobArguments handlerCall.data = none) :
    ¬ HandsOver files piece jobId jobOperation
      ((fileTlvs piece 0).map (Tlv.call al fd) ++ handlerCalls) := by
  intro hover
  obtain ⟨sfd, jobdata, hmem, harguments⟩ := hover.exists_mem (type_ne_of_mem_map_fileTlvs al fd)
  have hnone : jobArguments jobdata = none := h _ hmem
  rw [hnone] at harguments
  cases harguments

/-! ### The piece -/

variable {piece : Piece}

/-- What is handed over is determined by any run. -/
theorem received_iff_of_feeds
    (h : Feeds al fd 0 (reads (clientHandler piece.bytes jobId jobOperation)) initTlvState s' ev) :
    Received al fd files piece jobId jobOperation ↔
      HandsOver files piece.bytes jobId jobOperation (calls ev) := by
  constructor
  · rintro ⟨s'', ev', hrun, hover⟩
    obtain ⟨-, rfl⟩ := h.unique hrun
    exact hover
  · intro hover
    exact ⟨s', ev, h, hover⟩

theorem Piece.exists_fileTlvs_eq (piece : Piece) :
    ∃ front last, fileTlvs piece.bytes 0 = front ++ [last] ∧
      (∀ t ∈ front, t.bytes.length = tlvBuffSize) ∧
      last.bytes.length = 16 + (piece.bytes.length - 1) % fileChunk := by
  obtain ⟨front, last, heq, hfront, hlast⟩ :=
    Multicast.exists_fileTlvs_eq (List.length_pos_iff.mpr piece.bytes_ne)
  exact ⟨front, last, heq, hfront, hlast⟩

theorem length_bytes_executeTlv (jobId jobOperation : Word) :
    (executeTlv jobId jobOperation).bytes.length = 13 := rfl

/-- No type is announced by a byte of the length of the job. -/
theorem ofCode_drop_executeTlv (hk : k < 4) : TlvType.ofCode
    (headerOf ((executeTlv jobId jobOperation).bytes.drop (k + 1))).type = none := by
  have hheader : TlvType.executeJobId.code :: htonl 8 = [5, 0, 0, 0, 8] := by decide
  have hzero : TlvType.ofCode 0 = none := by decide
  have height : TlvType.ofCode 8 = none := by decide
  rw [← executeFrame_eq, executeFrame, hheader]
  match k, hk with
  | 0, _ | 1, _ | 2, _ => exact hzero
  | 3, _ => exact height

/-- The last chunk fills its message, or leaves room for the job in the buffer: everything
arrives. -/
theorem received_of_fits (h : piece.bytes.length % fileChunk < 52) :
    Received al fd files piece jobId jobOperation := by
  obtain ⟨front, last, heq, hfront, hlast⟩ := piece.exists_fileTlvs_eq
  have hpos := List.length_pos_iff.mpr piece.bytes_ne
  have hjob := length_bytes_executeTlv jobId jobOperation
  obtain ⟨s', ev, hrun, hcalls⟩ : ∃ s' ev,
      Feeds al fd 0 (reads (clientHandler piece.bytes jobId jobOperation)) initTlvState s' ev ∧
        calls ev = (fileTlvs piece.bytes 0 ++ [executeTlv jobId jobOperation]).map
          (Tlv.call al fd) := by
    rw [clientHandler_eq_stream, heq]
    by_cases hzero : piece.bytes.length % fileChunk = 0
    · -- the last chunk is as long as the others
      have hfull : ∀ t ∈ front ++ [last], t.bytes.length = tlvBuffSize := by
        intro t ht
        rcases List.mem_append.mp ht with ht | ht
        · exact hfront t ht
        · rw [List.mem_singleton.mp ht, hlast]
          simp only [fileChunk, tlvBuffSize] at *
          omega
      exact exists_feeds_of_le al fd hfull (by simp [Tlv.header])
        (by simp [stream, hjob, tlvBuffSize]) clean_initTlvState
    · have hfits : (stream [last, executeTlv jobId jobOperation]).length ≤ tlvBuffSize := by
        simp only [stream, List.flatMap_cons, List.flatMap_nil, List.append_nil,
          List.length_append, hjob, hlast]
        simp only [fileChunk, tlvBuffSize] at *
        omega
      rw [List.append_assoc]
      exact exists_feeds_of_le al fd hfront (by simp [Tlv.header]) hfits clean_initTlvState
  rw [received_iff_of_feeds al fd hrun, hcalls, List.map_append]
  apply (handsOver_fileTlvs_iff al fd files piece.bytes_ne).mpr
  change jobArguments ((Pointer.null.realloc al
    (htonl jobId ++ htonl jobOperation).length).memcpy 0 (htonl jobId ++ htonl jobOperation)) = _
  rw [Pointer.memcpy_realloc_null]
  exact jobArguments_block _

/-- The last chunk leaves room for a part of the job. -/
theorem exists_reads_of_cut (jobId jobOperation : Word) (h : 52 ≤ piece.bytes.length % fileChunk) :
    ∃ bufs b₁ b₂ last ts, ∃ s₀ ev₀,
      reads (clientHandler piece.bytes jobId jobOperation) = bufs ++ [b₁] ++ [b₂] ∧
      fileTlvs piece.bytes 0 = ts ++ [last] ∧
      Feeds al fd 0 bufs initTlvState s₀ ev₀ ∧ Clean s₀ 0 ∧
      calls ev₀ = ts.map (Tlv.call al fd) ∧
      b₁.bytes = stream [last] ++ (executeTlv jobId jobOperation).bytes.take
        (64 - piece.bytes.length % fileChunk) ∧
      b₂.bytes = (executeTlv jobId jobOperation).bytes.drop
        (64 - piece.bytes.length % fileChunk) := by
  obtain ⟨front, last, heq, hfront, hlast⟩ := piece.exists_fileTlvs_eq
  have hpos := List.length_pos_iff.mpr piece.bytes_ne
  have hjob := length_bytes_executeTlv jobId jobOperation
  obtain ⟨bufs, s₀, ev₀, hreads, hrun, hs₀, hcalls⟩ :=
    exists_feeds_of_full al fd 0 hfront clean_initTlvState
  -- the last message of the file leaves room for a part of the next one
  have hroom : (stream [last]).length + (64 - piece.bytes.length % fileChunk) = tlvBuffSize := by
    rw [stream, List.flatMap_cons, List.flatMap_nil, List.append_nil, hlast]
    simp only [fileChunk, tlvBuffSize] at *
    omega
  obtain ⟨b₁, b₂, hcut, hb₁, hb₂⟩ := reads_cut (executeTlv jobId jobOperation).bytes hroom
    (by rw [hjob]; omega) (by rw [hjob, tlvBuffSize]; omega)
  refine ⟨bufs, b₁, b₂, last, front, s₀, ev₀, ?_, heq, hrun, hs₀, hcalls, hb₁, hb₂⟩
  rw [clientHandler_eq_stream, heq, stream_append, stream_append, List.append_assoc, hreads,
    List.append_assoc, List.singleton_append, ← hcut]
  simp [stream]

/-- The block of a job whose last bytes came in another buffer: it is resized to the number
of these bytes, and the job is read from it if that leaves room for all eight. -/
theorem jobArguments_cut_iff (jobId jobOperation : Word) (hgot : got < 8) :
    jobArguments ((((Pointer.null.realloc al got).memcpy 0
        ((htonl jobId ++ htonl jobOperation).take got)).realloc al (8 - got)).memcpy got
          ((htonl jobId ++ htonl jobOperation).drop got)) = some (jobId, jobOperation) ↔
      8 ≤ al.usable (8 - got) := by
  have htake : ((htonl jobId ++ htonl jobOperation).take got).length = got := by
    rw [List.length_take]
    exact Nat.min_eq_left (Nat.le_of_lt hgot)
  have hdrop : ((htonl jobId ++ htonl jobOperation).drop got).length = 8 - got := List.length_drop
  have hne : 8 - got ≠ 0 := by omega
  constructor
  · intro harguments
    by_contra hroom
    -- a block that is too small has no eight bytes to read
    rw [jobArguments_eq_none_of_room] at harguments
    · cases harguments
    · rw [Pointer.room_memcpy, Pointer.room_realloc al _ hne]
      omega
  · intro hroom
    have hblock := Pointer.memcpy_realloc_append al ((htonl jobId ++ htonl jobOperation).take got)
      ((htonl jobId ++ htonl jobOperation).drop got) hne (by rw [htake, hdrop]; omega)
    rw [htake, List.take_append_drop] at hblock
    rw [hblock]
    exact jobArguments_block _

/-- The buffer ends inside the payload of the job: the job is read if the block that the
missing bytes are given has room for it as a whole. -/
theorem received_iff_of_cut_payload (h : 52 ≤ piece.bytes.length % fileChunk)
    (hpayload : piece.bytes.length % fileChunk < 60) :
    Received al fd files piece jobId jobOperation ↔
      8 ≤ al.usable (piece.bytes.length % fileChunk - 51) := by
  obtain ⟨bufs, b₁, b₂, last, ts, s₀, ev₀, hreads, heq, hrun, hs₀, hcalls, hb₁, hb₂⟩ :=
    exists_reads_of_cut al fd jobId jobOperation h
  obtain ⟨got, hgot, hcount, hmissing⟩ : ∃ got < 8, 64 - piece.bytes.length % fileChunk = 5 + got ∧
      piece.bytes.length % fileChunk - 51 = 8 - got :=
    ⟨59 - piece.bytes.length % fileChunk, by omega, by omega, by omega⟩
  have htake : (executeTlv jobId jobOperation).bytes.take (5 + got) =
      (executeTlv jobId jobOperation).header ++ (htonl jobId ++ htonl jobOperation).take got := by
    rw [← Tlv.length_header (executeTlv jobId jobOperation), Tlv.bytes, List.take_length_add_append]
    rfl
  have hdrop : (executeTlv jobId jobOperation).bytes.drop (5 + got) =
      (htonl jobId ++ htonl jobOperation).drop got := by
    rw [← Tlv.length_header (executeTlv jobId jobOperation), Tlv.bytes, List.drop_length_add_append]
    rfl
  have hfront : ((htonl jobId ++ htonl jobOperation).take got).length = got := by
    rw [List.length_take]
    exact Nat.min_eq_left (Nat.le_of_lt hgot)
  have hback : ((htonl jobId ++ htonl jobOperation).drop got).length = 8 - got := List.length_drop
  rw [hcount, htake] at hb₁
  rw [hcount, hdrop] at hb₂
  -- one call keeps what is there of the payload, and the next one hands over the message
  obtain ⟨s₁, ev₁, hcall₁, hcalls₁, hpending, hdata⟩ :=
    exists_assembles_cut_payload al fd hs₀ hb₁ (by rw [hfront]; exact hgot)
  rw [hfront] at hpending hdata
  obtain ⟨s₂, ev₂, hcall₂, hcalls₂⟩ := exists_assembles_of_pending al fd hpending hb₂
  rw [hdata, hb₂, hback] at hcalls₂
  rw [hmissing, ← jobArguments_cut_iff al jobId jobOperation hgot,
    ← handsOver_fileTlvs_iff al fd files piece.bytes_ne]
  obtain ⟨ev, hrun₁, hev⟩ := hrun.exists_snoc hcall₁
  obtain ⟨ev', hrun₂, hev'⟩ := hrun₁.exists_snoc hcall₂
  rw [← hreads] at hrun₂
  rw [received_iff_of_feeds al fd hrun₂, hev', hev, hcalls, hcalls₁, hcalls₂, heq, List.map_append]
  rfl

/-- The buffer ends inside the header of the job: the job is lost. -/
theorem not_received_of_cut_header (h : 60 ≤ piece.bytes.length % fileChunk) :
    ¬ Received al fd files piece jobId jobOperation := by
  rintro ⟨s', ev, hfeeds, hover⟩
  obtain ⟨bufs, b₁, b₂, last, ts, s₀, ev₀, hreads, heq, hrun, hs₀, hcalls, hb₁, hb₂⟩ :=
    exists_reads_of_cut al fd jobId jobOperation (Nat.le_trans (by decide) h)
  have hm : piece.bytes.length % fileChunk < 64 := Nat.mod_lt _ (by decide)
  obtain ⟨k, hk, hcount⟩ : ∃ k < 4, 64 - piece.bytes.length % fileChunk = k + 1 :=
    ⟨63 - piece.bytes.length % fileChunk, by omega, by omega⟩
  rw [hcount] at hb₁ hb₂
  have hjob := length_bytes_executeTlv jobId jobOperation
  have hlength : ((executeTlv jobId jobOperation).bytes.take (k + 1)).length = k + 1 := by
    rw [List.length_take, hjob]
    omega
  have hlength₂ : b₂.bytes.length = 12 - k := by
    rw [hb₂, List.length_drop, hjob]
    omega
  obtain ⟨s₁, ev₁, hcall₁, hcalls₁, hsplit⟩ := exists_assembles_cut_header al fd hs₀ hb₁
    (List.length_pos_iff.mp (by omega)) (by omega)
  rw [hlength, Nat.add_sub_cancel] at hsplit
  have hunknown : TlvType.ofCode (b₂.headerAt 0).type = none := by
    rw [RecvBuff.headerAt, List.drop_zero, hb₂]
    exact ofCode_drop_executeTlv hk
  -- the first two reads are known, and the third gives no handler a job
  obtain ⟨ev, hrun₁, hev⟩ := hrun.exists_snoc hcall₁
  rw [hreads, hrun₁.append_iff] at hfeeds
  obtain ⟨rest, rfl, hfeeds⟩ := hfeeds
  cases hfeeds with
  | cons hcall₂ hnil =>
    obtain ⟨-, rfl⟩ := feeds_nil_iff.mp hnil
    have hnone := jobArguments_of_split al fd hsplit hunknown (by omega) (by omega) hcall₂
    rw [calls_append, hev, hcalls, hcalls₁, List.append_nil, calls_map_shift, ← List.map_append,
      ← heq] at hover
    exact not_handsOver_fileTlvs al fd hnone hover

/-- **Delivery.** A piece and its job are received if and only if no read ends inside the
header of the job and, where one ends behind the header, the block for the bytes of the
payload that are missing has room for all eight. -/
theorem received_iff (al : Allocator) (fd : ℤ) (files : Files) (piece : Piece)
    (jobId jobOperation : Word) :
    Received al fd files piece jobId jobOperation ↔
      piece.bytes.length % fileChunk < 60 ∧
        (52 ≤ piece.bytes.length % fileChunk →
          8 ≤ al.usable (piece.bytes.length % fileChunk - 51)) := by
  rcases Nat.lt_or_ge (piece.bytes.length % fileChunk) 52 with hfits | hcut
  · -- the job is read as a whole
    refine iff_of_true (received_of_fits al fd hfits) ⟨by omega, ?_⟩
    intro hcut
    omega
  rcases Nat.lt_or_ge (piece.bytes.length % fileChunk) 60 with hpayload | hheader
  · rw [received_iff_of_cut_payload al fd hcut hpayload]
    constructor
    · intro hroom
      exact ⟨hpayload, fun _ => hroom⟩
    · rintro ⟨-, hroom⟩
      exact hroom hcut
  · refine iff_of_false (not_received_of_cut_header al fd hheader) ?_
    rintro ⟨hpayload, -⟩
    omega

/-- An allocator that hands out more than enough. -/
def Allocator.roomy : Allocator := ⟨fun m => m + 24, fun m => Nat.le_add_right m 24⟩

/-- Sixty bytes: the read ends four bytes into the header of the job. -/
def sixtyBytes : Piece := ⟨List.replicate 60 49, by decide, by decide⟩

theorem not_received_sixtyBytes : ¬ Received Allocator.roomy 4 (fun _ => none) sixtyBytes 1 2 :=
  not_received_of_cut_header Allocator.roomy 4 (by decide)

end Multicast
