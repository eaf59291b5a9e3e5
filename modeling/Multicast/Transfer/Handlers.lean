import Multicast.Server.Registration
import Multicast.Transfer.Piece

/-!
# What the handlers read

A handler gets a pointer to the payload of its message, and three of the handlers are told
the length. A text is printed up to its first zero, a name is copied up to its first zero
or to ten bytes, the numbers of a job or a result are eight bytes, and the ids of groups
are read four bytes at a time until no byte is left, into an array of as many bytes as the
payload has. None of them looks at the length before it reads, so that a payload has to be
long enough, aligned, or ended by a zero.

## Main definitions

* `Multicast.handleText`, `registeredGroups`, `resultArguments` — what these handlers read
* `HandlerCall.StaysInside` — a handler reads the payload and nothing else
* `Tlv.Fits` — the payload has the shape that its handler relies on

## Main results

* `isSome_cString_iff`, `isSome_strncpy_iff` — when a search for a zero ends in the payload
* `fillGroupArray_eq`, `registeredGroups_eq` — the ids that are read from a payload
* `staysInside_iff` — a handler reads its payload and nothing else exactly if this fits
-/

set_option autoImplicit false

namespace Multicast

open HeapBlock

/-! ### The handlers -/

/-- The bytes that `printf ("%s")` prints: those before the first zero. A search that runs
on leaves the block within `n` steps. -/
def cString (p : Pointer UInt8) (off : ℕ) : ℕ → Option (List UInt8)
  | 0 => none
  | n + 1 => (p.read off 1).bind fun bytes =>
    if bytes = [0] then some [] else (cString p (off + 1) n).map (bytes ++ ·)

/-- `Handle_text`: what it prints. -/
def handleText (text : Pointer UInt8) : Option (List UInt8) := cString text 0 (text.room + 1)

/-- The loop of `Handle_group_id_regs`, with `size` bytes to go and a `group_array` of `room`
bytes: the entries that it writes. A `size` below zero ends it as zero does. -/
def fillGroupArray (groupIds : Pointer UInt8) (room i size : ℕ) : Option (List ℤ) :=
  if size = 0 then some []
  else (groupIds.read (i * 4) 4).bind fun a =>
    if i * 4 + 4 ≤ room then
      (fillGroupArray groupIds room (i + 1) (size - 4)).map ((ntohl a).toInt :: ·)
    else none
termination_by size

/-- `j = size / sizeof (int)`: a division of unsigned numbers of 64 bits. -/
def groupCount (size : Word) : ℤ := ((size.signExtend 64 / 4).setWidth 32).toInt

/-- `Handle_group_id_regs`, up to its two calls: the entries of the array and their number,
as both calls get them. -/
def registeredGroups (groupIds : Pointer UInt8) (size : Word) : Option (List ℤ × ℤ) :=
  (fillGroupArray groupIds size.toInt.toNat 0 size.toInt.toNat).map fun groupArray =>
    (groupArray.take (groupCount size).toNat, groupCount size)

/-- The result and the job that `Handle_result` reads from its argument. -/
def resultArguments (resultBytes : Pointer UInt8) : Option (Word × Word) :=
  (resultBytes.read 0 4).bind fun result => (resultBytes.read 4 4).map fun jobId =>
    (ntohl result, ntohl jobId)

/-- All that a handler reads through its pointer lies in the block, and all that it writes to
an array of its own lies in that. -/
def HandlerCall.StaysInside : HandlerCall → Prop
  | .printText text => (handleText text).isSome
  | .fileWrite _ filedata fileSizeBytes | .fileAppend _ filedata fileSizeBytes =>
    (strncpy filedata 0 10).isSome ∧ (fileBytes filedata fileSizeBytes).isSome
  | .regGroupId _ groupIds size => (registeredGroups groupIds size).isSome
  | .keepalive _ => True
  | .executeJob _ jobdata => (jobArguments jobdata).isSome
  | .jobResult _ resultBytes => (resultArguments resultBytes).isSome

/-- A text has a zero, a name has ten bytes or a zero, ids have four bytes each unless there
are too many for an `int`, and a job or a result has eight bytes. -/
def Tlv.Fits (t : Tlv) : Prop :=
  match t.type with
  | .text => 0 ∈ t.payload
  | .fileWrite | .fileAppend => 10 ≤ t.payload.length ∨ 0 ∈ t.payload
  | .registerGroups => 4 ∣ t.payload.length ∨ 2 ^ 31 ≤ t.payload.length
  | .keepAlive => True
  | .executeJobId | .result => 8 ≤ t.payload.length

variable {p : Pointer UInt8} {bytes : List UInt8} {off n i size : ℕ}

/-! ### Searches for a zero -/

theorem read_one (h : p.Holds bytes) : p.read off 1 = bytes[off]?.map fun b => [b] := by
  rw [h off 1 Nat.one_pos]
  by_cases hlt : off < bytes.length
  · rw [if_pos (by omega), List.getElem?_eq_getElem hlt, List.drop_eq_getElem_cons hlt]
    rfl
  · rw [if_neg (by omega), List.getElem?_eq_none (Nat.le_of_not_lt hlt), Option.map_none]

/-- A text is printed from the payload if and only if a zero follows in it. -/
theorem isSome_cString_iff (h : p.Holds bytes) (hn : bytes.length < off + n) :
    (cString p off n).isSome ↔ 0 ∈ bytes.drop off := by
  induction n generalizing off with
  | zero =>
    rw [List.drop_eq_nil_of_le (by omega)]
    simp [cString]
  | succ n ih =>
    rw [cString, read_one h]
    by_cases hlt : off < bytes.length
    · rw [List.getElem?_eq_getElem hlt, List.drop_eq_getElem_cons hlt, List.mem_cons]
      by_cases hzero : bytes[off] = 0
      · simp [hzero]
      · have hbound : bytes.length < off + 1 + n := by omega
        simp [hzero, Ne.symm hzero, ih hbound]
    · rw [List.getElem?_eq_none (Nat.le_of_not_lt hlt), List.drop_eq_nil_of_le (by omega)]
      simp

/-- A name is copied from the payload if and only if this has bytes enough, or a zero
follows in it. -/
theorem isSome_strncpy_iff (h : p.Holds bytes) (hoff : off ≤ bytes.length) :
    (strncpy p off n).isSome ↔ off + n ≤ bytes.length ∨ 0 ∈ bytes.drop off := by
  induction n generalizing off with
  | zero => simp [strncpy, hoff]
  | succ n ih =>
    rw [strncpy, read_one h]
    by_cases hlt : off < bytes.length
    · rw [List.getElem?_eq_getElem hlt, List.drop_eq_getElem_cons hlt, List.mem_cons]
      by_cases hzero : bytes[off] = 0
      · simp [hzero]
      · have hnext : off + 1 ≤ bytes.length := hlt
        have hplace : off + (n + 1) = off + 1 + n := by omega
        simp [hzero, Ne.symm hzero, ih hnext, hplace]
    · rw [List.getElem?_eq_none (Nat.le_of_not_lt hlt), List.drop_eq_nil_of_le (by omega)]
      simp
      omega

/-! ### Payloads with a length -/

/-- The bytes behind a name are in the payload. -/
theorem isSome_fileBytes {fileSizeBytes : Word} (h : p.Holds bytes)
    (hsize : fileSizeBytes.toInt ≤ bytes.length) : (fileBytes p fileSizeBytes).isSome := by
  rw [fileBytes]
  split
  · rw [h _ _ (by omega), if_pos (by omega)]
    rfl
  · rfl

/-- The ids are read from the payload if and only if no bytes are left behind the last one. -/
theorem fillGroupArray_eq (h : p.Holds bytes) (hsize : i * 4 + size = bytes.length) :
    fillGroupArray p bytes.length i size =
      if 4 ∣ size then some (groupArray (bytes.drop (i * 4))) else none := by
  induction size using Nat.strongRecOn generalizing i with
  | ind size ih =>
    rw [fillGroupArray]
    by_cases hzero : size = 0
    · rw [if_pos hzero, hzero, if_pos (Nat.dvd_zero 4), List.drop_eq_nil_of_le (by omega)]
      rfl
    rw [if_neg hzero, h _ _ (by decide)]
    by_cases hfour : 4 ≤ size
    · -- one id, and those behind it
      have hdvd : 4 ∣ size - 4 ↔ 4 ∣ size := by omega
      obtain ⟨b₀, b₁, b₂, b₃, rest, hrest⟩ : ∃ b₀ b₁ b₂ b₃ rest,
          bytes.drop (i * 4) = b₀ :: b₁ :: b₂ :: b₃ :: rest := by
        have hlength : 4 ≤ (bytes.drop (i * 4)).length := by
          rw [List.length_drop]
          omega
        match bytes.drop (i * 4), hlength with
        | b₀ :: b₁ :: b₂ :: b₃ :: rest, _ => exact ⟨b₀, b₁, b₂, b₃, rest, rfl⟩
      have hnext : bytes.drop ((i + 1) * 4) = rest := by
        rw [Nat.succ_mul, ← List.drop_drop, hrest]
        rfl
      rw [if_pos (by omega), hrest, Option.bind_some, if_pos (by omega),
        ih (size - 4) (by omega) (by omega), hnext, if_congr hdvd rfl rfl]
      split <;> rfl
    · -- the bytes that are left are fewer than four
      rw [if_neg (by omega), if_neg (by omega)]
      rfl

/-- The two numbers of a job or a result are in the payload if and only if it has eight
bytes. -/
theorem isSome_jobArguments_iff (h : p.Holds bytes) :
    (jobArguments p).isSome ↔ 8 ≤ bytes.length := by
  rw [jobArguments, h 4 4 (by decide)]
  by_cases height : 8 ≤ bytes.length
  · rw [h 0 4 (by decide), if_pos (by omega), if_pos (by omega)]
    exact iff_of_true rfl height
  · rw [if_neg (by omega)]
    refine iff_of_false ?_ height
    cases p.read 0 4 <;> exact Bool.false_ne_true

/-! ### The messages -/

/-- The argument of a handler holds the payload. -/
theorem holds_data_call (al : Allocator) (fd : ℤ) (t : Tlv) :
    (t.call al fd).data.Holds t.payload := by
  rw [Tlv.call, TlvType.data_handler]
  exact Pointer.holds_memcpy_fresh al t.payload

theorem toInt_length_le (t : Tlv) : t.length.toInt ≤ t.payload.length := by
  rw [BitVec.toInt_eq_toNat_cond, Tlv.toNat_length]
  split <;> omega

/-- A size that is not negative is divided as a natural number. -/
theorem groupCount_ofNat {n : ℕ} (h : n < 2 ^ 31) :
    groupCount (BitVec.ofNat 32 n) = (n / 4 : ℕ) := by
  have hmsb : (BitVec.ofNat 32 n).msb = false := by
    rw [BitVec.msb_eq_false_iff_two_mul_lt, BitVec.toNat_ofNat]
    omega
  rw [groupCount, BitVec.signExtend_eq_setWidth_of_msb_false hmsb, BitVec.toInt_eq_toNat_cond]
  have hfour : (4 : BitVec 64).toNat = 4 := rfl
  simp only [BitVec.toNat_setWidth, BitVec.toNat_udiv, BitVec.toNat_ofNat, hfour]
  omega

theorem toNat_toInt_length {t : Tlv} (h : t.payload.length < 2 ^ 31) :
    t.length.toInt.toNat = t.payload.length := by
  rw [BitVec.toInt_eq_toNat_cond, Tlv.toNat_length, if_pos (by omega), Int.toNat_natCast]

/-- The ids of a message that has nothing behind them: both calls get those that a
registration has, and their number. -/
theorem registeredGroups_eq {t : Tlv} (h : p.Holds t.payload) (hdvd : 4 ∣ t.payload.length)
    (hsmall : t.payload.length < 2 ^ 31) :
    registeredGroups p t.length =
      some (groupIds t.payload, ((groupIds t.payload).length : ℤ)) := by
  have hcount : groupCount t.length = ((groupArray t.payload).length : ℤ) := by
    rw [Tlv.length, groupCount_ofNat hsmall, length_groupArray]
  have hread := fillGroupArray_eq h (i := 0) (Nat.zero_add _)
  rw [if_pos hdvd, Nat.zero_mul, List.drop_zero] at hread
  rw [registeredGroups, toNat_toInt_length hsmall, hread, Option.map_some, hcount,
    Int.toNat_natCast, List.take_length, groupIds, if_pos hsmall]

/-- The ids of a message are read, or there are too many of them, exactly if no bytes are
left behind the last one. -/
theorem isSome_registeredGroups_iff {t : Tlv} (h : p.Holds t.payload) :
    (registeredGroups p t.length).isSome ↔
      4 ∣ t.payload.length ∨ 2 ^ 31 ≤ t.payload.length := by
  rw [registeredGroups, Option.isSome_map]
  by_cases hbig : 2 ^ 31 ≤ t.payload.length
  · -- the size is negative, and the loop is not entered
    have hsize : t.length.toInt.toNat = 0 := by
      rw [BitVec.toInt_eq_toNat_cond, Tlv.toNat_length, if_neg (by omega)]
      have hlt := t.payload_lt
      omega
    rw [hsize, fillGroupArray, if_pos rfl]
    exact iff_of_true rfl (.inr hbig)
  · rw [toNat_toInt_length (by omega), fillGroupArray_eq h (by omega), or_iff_left hbig]
    split
    next hdvd => exact iff_of_true rfl hdvd
    next hdvd => exact iff_of_false Bool.false_ne_true hdvd

/-- **Bounds.** The handler that is called for a message reads its payload and nothing else,
and writes nothing outside its array, if and only if the payload fits. -/
theorem staysInside_iff (al : Allocator) (fd : ℤ) (t : Tlv) :
    (t.call al fd).StaysInside ↔ t.Fits := by
  have hcall : t.call al fd = t.type.handler fd (t.call al fd).data t.length := by
    rw [Tlv.call, TlvType.data_handler]
  have hholds := holds_data_call al fd t
  have hsize := toInt_length_le t
  rw [hcall, Tlv.Fits]
  generalize (t.call al fd).data = p at hholds
  have hname : (strncpy p 0 10).isSome ∧ (fileBytes p t.length).isSome ↔
      10 ≤ t.payload.length ∨ 0 ∈ t.payload := by
    rw [isSome_strncpy_iff hholds (Nat.zero_le _), Nat.zero_add, List.drop_zero]
    exact and_iff_left (isSome_fileBytes hholds hsize)
  cases t.type with
  | text =>
    have hroom := hholds.length_le_room
    exact isSome_cString_iff hholds (by omega)
  | fileWrite | fileAppend => exact hname
  | registerGroups => exact isSome_registeredGroups_iff hholds
  | keepAlive => exact Iff.rfl
  | executeJobId | result => exact isSome_jobArguments_iff hholds

/-- A text of two bytes without a zero. -/
def hiTlv : Tlv := ⟨.text, [104, 105], by decide⟩

/-- It is printed on, past its end. -/
theorem not_staysInside_hi : ¬ (hiTlv.call .exact 4).StaysInside := by
  change ¬ (handleText (hiTlv.call .exact 4).data).isSome
  decide

end Multicast
