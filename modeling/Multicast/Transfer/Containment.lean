import Multicast.Shell.FileName
import Multicast.Tlv.Connection
import Multicast.Transfer.Fields
import Multicast.Transfer.Handlers

/-!
# The files that a client can change

Server and client share their handlers, so that a client can send the server a file. The name
of the file is in the message, and a handler copies ten bytes of it at most, up to a zero, and
passes them to `fopen`. The handler of results appends a line to a file of which the message tells
the number.

A client can therefore give any content to each file to which a name of at most ten bytes leads.
Other result files it can make longer, and it can do nothing to any other file, whatever it sends
and however it arrives. The names of the pieces are too long, but a short name can lead to a piece
all the same: `/dev/fd/3` does while the piece is open as descriptor 3.

## Main definitions

* `Multicast.serverHandle` — the files of the server after a handler was called
* `Multicast.Handled` — what calls of handlers can do, while names lead where they may
* `Multicast.Nameable` — the names that a handler of files can read
* `Multicast.CanChange`, `CanWrite` — a client can change a file, or give it any content
* `pieceFileName`, `resultFileName` — the names that the server uses

## Main results

* `strncpy_eq` — the name that is copied from a payload
* `Grown.of_handled` — what the handlers do to a file to which no short name leads
* `canChange_iff` — the files that a client can change, and those that it can give any content
* `canWrite_serverFiles` — the files of the server

## Implementation notes

Where a name leads is a matter of the kernel: to a file, through directories and links, or to
nothing. It can change from one call of `fopen` to the next, as `/dev/fd/3` does, so that it is a
relation here, of which each call sees a part.
-/

set_option autoImplicit false

namespace Multicast

open HeapBlock Shell

/-- A name that a handler of files can read from a message. -/
structure Nameable (name : List UInt8) : Prop where
  length_le : name.length ≤ 10
  zero_notMem : 0 ∉ name

/-! ### The names of the server's files -/

/-- A text as the bytes of a name. -/
def textBytes (text : List Char) : List UInt8 := text.map fun c => UInt8.ofNat c.toNat

/-- The file to which `Handle_result` appends. -/
def resultFileName (jobId : ℤ) : List Char := "Result_".toList ++ printInt jobId

/-- The piece of a task, from the digits behind its name. -/
def pieceFileName (jobId : ℤ) (digits : List ℕ) : List Char :=
  printInt jobId ++ "_in_file".toList ++ digits.map Nat.digitChar

/-- The byte between directories. -/
def slash : UInt8 := 47

/-! ### The handlers of the server -/

/-- A line with a number. -/
def numberLine (n : ℤ) : List UInt8 := textBytes (printInt n) ++ [10]

/-- A file with a number on each line. -/
def fileOf (numbers : List ℤ) : List UInt8 := numbers.flatMap numberLine

/-- The files after `Handle_result` appended its line. -/
def appendLine (files : Files) (file : List UInt8) (result : ℤ) : Files :=
  Function.update files file (some ((files file).getD [] ++ numberLine result))

/-- The files of the server after a handler was called. A result for a job that is not listed ends
the server, but its line is in the file by then. -/
def serverHandle (lookup : Lookup) (files : Files) : HandlerCall → Option Files
  | .jobResult _ resultBytes => (resultArguments resultBytes).bind fun out =>
    (lookup (textBytes (resultFileName out.2.toInt))).map fun file =>
      appendLine files file out.1.toInt
  | handlerCall => handleAt lookup files handlerCall

/-- Calls of handlers one after the other. Each finds names as they lead at its moment. -/
inductive Handled (leads : List UInt8 → List UInt8 → Prop) :
    Files → List HandlerCall → Files → Prop
  | nil {files : Files} : Handled leads files [] files
  | cons {lookup : Lookup} {files files' files'' : Files} {handlerCall : HandlerCall}
      {handlerCalls : List HandlerCall} :
      (∀ name file, lookup name = some file → leads name file) →
      serverHandle lookup files handlerCall = some files' →
      Handled leads files' handlerCalls files'' →
      Handled leads files (handlerCall :: handlerCalls) files''

/-- Some bytes on a connection, in some reads, can make the handlers change the file. -/
def CanChange (al : Allocator) (fd : ℤ) (leads : List UInt8 → List UInt8 → Prop)
    (file : List UInt8) : Prop :=
  ∃ (rds : List Read) (ev : List Event) (files files' : Files), Serves al fd rds ev ∧
    Handled leads files (calls ev) files' ∧ files' file ≠ files file

/-- Whatever the files are, the file can be given any content. -/
def CanWrite (al : Allocator) (fd : ℤ) (leads : List UInt8 → List UInt8 → Prop)
    (file : List UInt8) : Prop :=
  ∀ (files : Files) (content : List UInt8),
    ∃ (rds : List Read) (ev : List Event) (files' : Files), Serves al fd rds ev ∧
      Handled leads files (calls ev) files' ∧ files' file = some content

/-- A short name may lead to the file. -/
def Named (leads : List UInt8 → List UInt8 → Prop) (file : List UInt8) : Prop :=
  ∃ name, Nameable name ∧ leads name file

/-- The name of a result file may lead to the file. -/
def IsResultFile (leads : List UInt8 → List UInt8 → Prop) (file : List UInt8) : Prop :=
  ∃ jobId : Word, leads (textBytes (resultFileName jobId.toInt)) file

/-- The file is as it was, or it is a result file and lines were appended. -/
def Grown (leads : List UInt8 → List UInt8 → Prop) (file : List UInt8) (files files' : Files) :
    Prop :=
  files' file = files file ∨
    IsResultFile leads file ∧
      ∃ results : List ℤ, files' file = some ((files file).getD [] ++ fileOf results)

variable {al : Allocator} {fd : ℤ} {p : Pointer UInt8} {bytes name file content : List UInt8}
variable {off n : ℕ} {files files' : Files} {handlerCall : HandlerCall}
variable {handlerCalls : List HandlerCall} {lookup : Lookup} {t : Tlv}
variable {leads : List UInt8 → List UInt8 → Prop}

theorem fileOf_append (numbers numbers' : List ℤ) :
    fileOf (numbers ++ numbers') = fileOf numbers ++ fileOf numbers' := List.flatMap_append

theorem fileOf_singleton (n : ℤ) : fileOf [n] = numberLine n := List.flatMap_singleton ..

/-! ### Reading a name -/

theorem strncpy_spec (h : strncpy p off n = some name) : name.length ≤ n ∧ 0 ∉ name := by
  induction n generalizing off name with
  | zero =>
    obtain rfl := Option.some.inj h
    exact ⟨Nat.le_refl 0, List.not_mem_nil⟩
  | succ n ih =>
    rw [strncpy] at h
    obtain ⟨bytes, hread, hrest⟩ := Option.bind_eq_some_iff.mp h
    obtain ⟨b, rfl⟩ := List.length_eq_one_iff.mp (Pointer.length_of_read hread)
    split at hrest
    next =>
      obtain rfl := Option.some.inj hrest
      exact ⟨Nat.zero_le _, List.not_mem_nil⟩
    next hzero =>
      obtain ⟨rest, hcopied, rfl⟩ := Option.map_eq_some_iff.mp hrest
      obtain ⟨hlength, hnot⟩ := ih hcopied
      refine ⟨Nat.succ_le_succ hlength, ?_⟩
      rintro (_ | ⟨_, hmem⟩)
      · exact hzero rfl
      · exact hnot hmem

/-- The name is what stands before the first zero of the payload. -/
theorem strncpy_eq (h : p.Holds bytes) (hn : off + n ≤ bytes.length) :
    strncpy p off n = some (((bytes.drop off).take n).takeWhile (· ≠ 0)) := by
  induction n generalizing off with
  | zero => rfl
  | succ n ih =>
    have hlt : off < bytes.length := by omega
    rw [strncpy, read_one h, List.getElem?_eq_getElem hlt, List.drop_eq_getElem_cons hlt,
      List.take_succ_cons]
    by_cases hzero : bytes[off] = 0
    · simp [hzero]
    · simp [hzero, ih (by omega : off + 1 + n ≤ bytes.length)]

/-! ### What the handlers leave alone -/

/-- A file that a short name found is one to which a short name leads. -/
theorem named_of_strncpy (hlookup : ∀ name file, lookup name = some file → leads name file)
    (hcopy : strncpy p 0 10 = some name) (hfile : lookup name = some file) : Named leads file :=
  ⟨name, ⟨(strncpy_spec hcopy).1, (strncpy_spec hcopy).2⟩, hlookup name file hfile⟩

/-- A handler changes no file to which no short name leads. -/
theorem eq_of_handleAt (hlookup : ∀ name file, lookup name = some file → leads name file)
    (hnot : ¬ Named leads file) (h : handleAt lookup files handlerCall = some files') :
    files' file = files file := by
  cases handlerCall with
  | fileWrite fd filedata len =>
    obtain ⟨filename, hcopy, hrest⟩ := Option.bind_eq_some_iff.mp h
    obtain ⟨written, hfile, hrest⟩ := Option.bind_eq_some_iff.mp hrest
    obtain ⟨bytes, -, rfl⟩ := Option.map_eq_some_iff.mp hrest
    refine Function.update_of_ne ?_ ..
    rintro rfl
    exact hnot (named_of_strncpy hlookup hcopy hfile)
  | fileAppend fd filedata len =>
    obtain ⟨filename, hcopy, hrest⟩ := Option.bind_eq_some_iff.mp h
    obtain ⟨written, hfile, hrest⟩ := Option.bind_eq_some_iff.mp hrest
    obtain ⟨bytes, -, rfl⟩ := Option.map_eq_some_iff.mp hrest
    refine Function.update_of_ne ?_ ..
    rintro rfl
    exact hnot (named_of_strncpy hlookup hcopy hfile)
  | executeJob sfd jobdata =>
    obtain rfl := Option.some.inj h
    cases hfile : lookup bTxt with
    | none => rfl
    | some removed =>
      refine Function.update_of_ne ?_ ..
      rintro rfl
      exact hnot ⟨bTxt, ⟨by decide, by decide⟩, hlookup _ _ hfile⟩
  | printText data | regGroupId fd data len | keepalive data | jobResult fd data =>
    obtain rfl := Option.some.inj h
    rfl

theorem serverHandle_of_ne (h : handlerCall.type ≠ .result) :
    serverHandle lookup files handlerCall = handleAt lookup files handlerCall := by
  cases handlerCall with
  | jobResult fd resultBytes => exact absurd rfl h
  | _ => rfl

/-- A handler of the server makes it longer at most. -/
theorem Grown.of_serverHandle (hlookup : ∀ name file, lookup name = some file → leads name file)
    (hnot : ¬ Named leads file) (h : serverHandle lookup files handlerCall = some files') :
    Grown leads file files files' := by
  by_cases htype : handlerCall.type = .result
  · cases handlerCall with
    | jobResult fd resultBytes =>
      obtain ⟨⟨result, jobId⟩, -, hrest⟩ := Option.bind_eq_some_iff.mp h
      obtain ⟨appended, hfile, rfl⟩ := Option.map_eq_some_iff.mp hrest
      by_cases heq : file = appended
      · subst heq
        refine .inr ⟨⟨jobId, hlookup _ _ hfile⟩, [result.toInt], ?_⟩
        rw [appendLine, Function.update_self, fileOf_singleton]
      · exact .inl (Function.update_of_ne heq ..)
    | printText | fileWrite | fileAppend | regGroupId | keepalive | executeJob => cases htype
  · rw [serverHandle_of_ne htype] at h
    exact .inl (eq_of_handleAt hlookup hnot h)

theorem Grown.trans {files'' : Files} (h : Grown leads file files files')
    (h' : Grown leads file files' files'') : Grown leads file files files'' := by
  rcases h' with heq' | ⟨hresult, results', heq'⟩
  · rcases h with heq | ⟨hresult, results, heq⟩
    · exact .inl (heq'.trans heq)
    · exact .inr ⟨hresult, results, heq'.trans heq⟩
  · refine .inr ⟨hresult, ?_⟩
    rcases h with heq | ⟨-, results, heq⟩
    · exact ⟨results', by rw [heq', heq]⟩
    · refine ⟨results ++ results', ?_⟩
      rw [heq', heq, Option.getD_some, fileOf_append, List.append_assoc]

/-- So do many of them. -/
theorem Grown.of_handled (hnot : ¬ Named leads file) (h : Handled leads files handlerCalls files') :
    Grown leads file files files' := by
  induction h with
  | nil => exact .inl rfl
  | cons hlookup hfirst _ ih => exact (Grown.of_serverHandle hlookup hnot hfirst).trans ih

/-! ### What a client can write -/

/-- The payload of a message with a file: the name, padded with zeros, and the content. -/
def filePayload (name content : List UInt8) : List UInt8 :=
  name ++ List.replicate (10 - name.length) 0 ++ content

/-- The message that empties a file, and creates it. -/
def emptyTlv (name : List UInt8) (h : (filePayload name []).length < 2 ^ 31) : Tlv where
  type := .fileWrite
  payload := filePayload name []
  payload_lt := h.trans (by decide)

/-- The message that appends a byte to it. -/
def appendTlv (name : List UInt8) (b : UInt8) (h : (filePayload name [b]).length < 2 ^ 31) :
    Tlv where
  type := .fileAppend
  payload := filePayload name [b]
  payload_lt := h.trans (by decide)

theorem Nameable.length_filePayload (h : Nameable name) (content : List UInt8) :
    (filePayload name content).length = 10 + content.length := by
  have hle := h.length_le
  simp only [filePayload, List.length_append, List.length_replicate]
  omega

theorem Nameable.length_filePayload_lt (h : Nameable name) (hcontent : content.length ≤ 1) :
    (filePayload name content).length < 2 ^ 31 := by
  rw [h.length_filePayload]
  omega

/-- The name that is read from the payload. -/
theorem Nameable.takeWhile_filePayload (h : Nameable name) :
    ((filePayload name content).take 10).takeWhile (· ≠ 0) = name := by
  have hle := h.length_le
  have htake : (filePayload name content).take 10 =
      name ++ List.replicate (10 - name.length) 0 := by
    rw [filePayload]
    exact List.take_left' (by simp; omega)
  have hname : ∀ b ∈ name, decide (b ≠ 0) = true := by
    intro b hb
    rw [decide_eq_true_eq]
    exact fun heq => h.zero_notMem (heq ▸ hb)
  rw [htake, List.takeWhile_append_of_pos hname, List.takeWhile_replicate]
  simp

/-- The name and the content that the handler of such a message reads. -/
theorem reads_of_filePayload (hname : Nameable name) (ht : t.payload = filePayload name content)
    (hcontent : content.length ≤ 1) (al : Allocator) (fd : ℤ) :
    strncpy (t.call al fd).data 0 10 = some name ∧
      fileBytes (t.call al fd).data t.length = some content := by
  have hlength : t.payload.length = 10 + content.length := ht ▸ hname.length_filePayload content
  have hholds := holds_data_call al fd t
  constructor
  · rw [strncpy_eq hholds (by omega), List.drop_zero, ht]
    exact congrArg some hname.takeWhile_filePayload
  · have hint : t.length.toInt = 10 + content.length := by
      rw [BitVec.toInt_eq_toNat_of_lt, Tlv.toNat_length]
      · omega
      · rw [Tlv.toNat_length]
        omega
    rw [fileBytes, hint]
    by_cases hempty : content = []
    · subst hempty
      rfl
    · have hpos := List.length_pos_iff.mpr hempty
      have hdrop : t.payload.drop 10 = content := by
        have hle := hname.length_le
        rw [ht, filePayload]
        exact List.drop_left' (by simp; omega)
      have hcount : ((10 + content.length : ℤ) - 10).toNat = content.length := by omega
      rw [if_pos (by omega), hcount, Tlv.read_data_call _ (by omega), hdrop, List.take_length]

/-- The name leads to the file at the moment of the call. -/
theorem serverHandle_emptyTlv (al : Allocator) (fd : ℤ) (files : Files) (hname : Nameable name)
    (hfile : lookup name = some file) (h : (filePayload name []).length < 2 ^ 31) :
    serverHandle lookup files ((emptyTlv name h).call al fd) =
      some (Function.update files file (some [])) := by
  obtain ⟨hcopy, hbytes⟩ :=
    reads_of_filePayload (t := emptyTlv name h) hname rfl (Nat.zero_le _) al fd
  rw [serverHandle_of_ne (by rw [Tlv.type_call]; exact nofun)]
  change handleFileWrite lookup files ((emptyTlv name h).call al fd).data
    (emptyTlv name h).length = _
  rw [handleFileWrite, hcopy, Option.bind_some, hfile, Option.bind_some, hbytes, Option.map_some]

theorem serverHandle_appendTlv (al : Allocator) (fd : ℤ) (files : Files) (b : UInt8)
    (hname : Nameable name) (hfile : lookup name = some file)
    (h : (filePayload name [b]).length < 2 ^ 31) :
    serverHandle lookup files ((appendTlv name b h).call al fd) =
      some (Function.update files file (some ((files file).getD [] ++ [b]))) := by
  obtain ⟨hcopy, hbytes⟩ :=
    reads_of_filePayload (t := appendTlv name b h) hname rfl (Nat.le_refl _) al fd
  rw [serverHandle_of_ne (by rw [Tlv.type_call]; exact nofun)]
  change handleFileAppend lookup files ((appendTlv name b h).call al fd).data
    (appendTlv name b h).length = _
  rw [handleFileAppend, hcopy, Option.bind_some, hfile, Option.bind_some, hbytes, Option.map_some]

/-- A lookup at a moment at which a name leads to a file. -/
def lookupOne (name file : List UInt8) : Lookup := fun n => if n = name then some file else none

theorem lookupOne_self (name file : List UInt8) : lookupOne name file name = some file :=
  if_pos rfl

theorem leads_of_lookupOne (hleads : leads name file) (n f : List UInt8)
    (h : lookupOne name file n = some f) : leads n f := by
  rw [lookupOne] at h
  split at h
  next heq =>
    obtain rfl := Option.some.inj h
    exact heq ▸ hleads
  next => cases h

/-- The messages that give a file its content. -/
def fileMessages (hname : Nameable name) (content : List UInt8) : List Tlv :=
  emptyTlv name (hname.length_filePayload_lt (Nat.zero_le _)) ::
    content.map fun b => appendTlv name b (hname.length_filePayload_lt (Nat.le_refl _))

theorem handled_appendTlvs (hname : Nameable name) (hleads : leads name file) (al : Allocator)
    (fd : ℤ) {done : List UInt8} (hdone : files file = some done) (content : List UInt8) :
    ∃ files', Handled leads files ((content.map fun b => appendTlv name b
          (hname.length_filePayload_lt (Nat.le_refl _))).map (Tlv.call al fd)) files' ∧
      files' file = some (done ++ content) := by
  induction content generalizing files done with
  | nil => exact ⟨files, .nil, by rw [hdone, List.append_nil]⟩
  | cons b content ih =>
    have hfirst := serverHandle_appendTlv al fd files b hname (lookupOne_self name file)
      (hname.length_filePayload_lt (Nat.le_refl _))
    rw [hdone, Option.getD_some] at hfirst
    obtain ⟨files', hrest, hfile⟩ := ih (Function.update_self ..)
    refine ⟨files', .cons (leads_of_lookupOne hleads) hfirst hrest, ?_⟩
    rw [hfile, List.append_assoc, List.singleton_append]

theorem handled_fileMessages (hname : Nameable name) (hleads : leads name file) (al : Allocator)
    (fd : ℤ) (files : Files) (content : List UInt8) :
    ∃ files', Handled leads files ((fileMessages hname content).map (Tlv.call al fd)) files' ∧
      files' file = some content := by
  have hfirst := serverHandle_emptyTlv al fd files hname (lookupOne_self name file)
    (hname.length_filePayload_lt (Nat.zero_le _))
  obtain ⟨files', hrest, hfile⟩ :=
    handled_appendTlvs hname hleads al fd (Function.update_self file (some []) files) content
  exact ⟨files', .cons (leads_of_lookupOne hleads) hfirst hrest, hfile⟩

/-- Messages that reads have room for are received, each in a read of its own. -/
theorem exists_serves_each (al : Allocator) (fd : ℤ) (ts : List Tlv)
    (h : ∀ t ∈ ts, t.bytes.length ≤ arrayReceivedSize) :
    ∃ rds ev, Serves al fd rds ev ∧ calls ev = ts.map (Tlv.call al fd) := by
  obtain ⟨rds, hforall, hnone⟩ : ∃ rds : List Read,
      List.Forall₂ (fun (b : RecvBuff) group => b.bytes = stream group) (rds.map Read.buff)
        (ts.map fun t => [t]) ∧ ∀ rd ∈ rds, ¬ rd.dropped := by
    induction ts with
    | nil => exact ⟨[], .nil, by simp⟩
    | cons t ts ih =>
      obtain ⟨ht, hts⟩ := List.forall_mem_cons.mp h
      obtain ⟨rds, hforall, hnone⟩ := ih hts
      have hlt : t.bytes.length < 2 ^ 31 := by
        rw [arrayReceivedSize] at ht
        omega
      have hne : t.bytes ≠ [] := by
        refine List.ne_nil_of_length_pos ?_
        rw [Tlv.length_bytes]
        omega
      refine ⟨⟨⟨t.bytes, hlt⟩, hne, ht, 0, 0⟩ :: rds, .cons (List.append_nil _).symm hforall, ?_⟩
      exact List.forall_mem_cons.mpr ⟨by simp [Read.dropped, eagain], hnone⟩
  obtain ⟨ev, hserves, hcalls⟩ := exists_serves al fd hforall hnone
  refine ⟨rds, ev, hserves, ?_⟩
  rw [hcalls, ← List.flatMap_def, List.flatMap_singleton']

/-- **Forging.** A client can give a file to which a short name leads any content. -/
theorem canWrite_of_named (al : Allocator) (fd : ℤ) (h : Named leads file) :
    CanWrite al fd leads file := by
  obtain ⟨name, hname, hleads⟩ := h
  intro files content
  obtain ⟨rds, ev, hserves, hcalls⟩ := exists_serves_each al fd (fileMessages hname content) (by
    intro t ht
    have hlength : t.payload.length ≤ 11 := by
      rcases List.mem_cons.mp ht with rfl | ht
      · exact (hname.length_filePayload []).le.trans (by simp)
      · obtain ⟨b, -, rfl⟩ := List.mem_map.mp ht
        exact (hname.length_filePayload [b]).le
    rw [Tlv.length_bytes, arrayReceivedSize]
    omega)
  obtain ⟨files', hhandled, hfile⟩ := handled_fileMessages hname hleads al fd files content
  exact ⟨rds, ev, files', hserves, hcalls ▸ hhandled, hfile⟩

/-- A client can append a line to a result file. -/
theorem canChange_of_isResultFile (al : Allocator) (fd : ℤ) (h : IsResultFile leads file) :
    CanChange al fd leads file := by
  obtain ⟨jobId, hleads⟩ := h
  obtain ⟨rds, ev, hserves, hcalls⟩ := exists_serves_each al fd [resultTlv 0 jobId] (by
    intro t ht
    rw [List.mem_singleton.mp ht, Tlv.length_bytes, arrayReceivedSize, resultTlv,
      List.length_append, length_htonl, length_htonl]
    omega)
  have hread : resultArguments ((resultTlv 0 jobId).call al fd).data = some (0, jobId) :=
    jobArguments_executeTlv al fd 0 jobId
  have hhandle : serverHandle (lookupOne (textBytes (resultFileName jobId.toInt)) file)
      (fun _ => none) ((resultTlv 0 jobId).call al fd) =
        some (appendLine (fun _ => none) file (0 : Word).toInt) := by
    change (resultArguments ((resultTlv 0 jobId).call al fd).data).bind _ = _
    rw [hread, Option.bind_some, lookupOne_self, Option.map_some]
  have hhandled : Handled leads (fun _ => none) (calls ev)
      (appendLine (fun _ => none) file (0 : Word).toInt) := by
    rw [hcalls]
    exact .cons (leads_of_lookupOne hleads) hhandle .nil
  refine ⟨rds, ev, fun _ => none, _, hserves, hhandled, ?_⟩
  rw [appendLine, Function.update_self]
  exact Option.some_ne_none _

/-! ### The files that can be changed -/

/-- A file that a client can change has a short name, or is a result file. -/
theorem CanChange.named_or (h : CanChange al fd leads file) :
    Named leads file ∨ IsResultFile leads file := by
  obtain ⟨rds, ev, files, files', -, hhandled, hchanged⟩ := h
  by_contra hnot
  obtain ⟨hnamed, hresult⟩ := not_or.mp hnot
  rcases Grown.of_handled hnamed hhandled with heq | ⟨hjob, -⟩
  · exact hchanged heq
  · exact hresult hjob

/-- One that it can give any content has a short name: other files lose nothing. -/
theorem CanWrite.named (h : CanWrite al fd leads file) : Named leads file := by
  by_contra hnamed
  obtain ⟨rds, ev, files', -, hhandled, hempty⟩ := h (fun _ => some [0]) []
  -- a file that was not empty does not become empty
  rcases Grown.of_handled hnamed hhandled with heq | ⟨-, results, heq⟩
  · cases heq.symm.trans hempty
  · cases heq.symm.trans hempty

theorem canWrite_iff_named : CanWrite al fd leads file ↔ Named leads file :=
  ⟨CanWrite.named, canWrite_of_named al fd⟩

theorem canChange_of_named (al : Allocator) (fd : ℤ) (h : Named leads file) :
    CanChange al fd leads file := by
  obtain ⟨rds, ev, files', hserves, hhandled, hcontent⟩ :=
    canWrite_of_named al fd h (fun _ => none) []
  refine ⟨rds, ev, fun _ => none, files', hserves, hhandled, ?_⟩
  rw [hcontent]
  exact Option.some_ne_none _

/-- A client can change exactly the files to which short names lead and the result files. It can
give any content exactly to those to which short names lead; the other result files only get more
lines, and every other file stays as it is. -/
theorem canChange_iff (al : Allocator) (fd : ℤ) (leads : List UInt8 → List UInt8 → Prop)
    (file : List UInt8) :
    (CanChange al fd leads file ↔ Named leads file ∨ IsResultFile leads file) ∧
    (CanWrite al fd leads file ↔ Named leads file) ∧
    (¬ Named leads file → ∀ rds ev files files', Serves al fd rds ev →
      Handled leads files (calls ev) files' → Grown leads file files files') := by
  refine ⟨⟨CanChange.named_or, ?_⟩, canWrite_iff_named,
    fun hnot _ _ _ _ _ hhandled => Grown.of_handled hnot hhandled⟩
  rintro (hnamed | hresult)
  · exact canChange_of_named al fd hnamed
  · exact canChange_of_isResultFile al fd hresult

/-! ### The files of the server -/

theorem zero_notMem_textBytes {text : List Char} (h : ∀ c ∈ text, 0 < c.toNat ∧ c.toNat < 256) :
    0 ∉ textBytes text := by
  intro hmem
  obtain ⟨c, hc, hzero⟩ := List.mem_map.mp hmem
  obtain ⟨hpos, hlt⟩ := h c hc
  have htoNat := congrArg UInt8.toNat hzero
  rw [UInt8.toNat_ofNat', Nat.mod_eq_of_lt (by omega)] at htoNat
  exact absurd htoNat (Nat.ne_of_gt hpos)

theorem printInt_of_nonneg {i : ℤ} (h : 0 ≤ i) :
    printInt i = (decimal i.natAbs).map Nat.digitChar := by
  rw [printInt, if_neg (not_lt.mpr h), List.nil_append]

theorem toNat_of_mem_resultFileName {jobId : ℤ} (hpos : 0 < jobId) {c : Char}
    (h : c ∈ resultFileName jobId) : 0 < c.toNat ∧ c.toNat < 256 := by
  unfold resultFileName at h
  rw [printInt_of_nonneg hpos.le] at h
  rcases List.mem_append.mp h with h | h
  · have hall : ∀ c ∈ ['R', 'e', 's', 'u', 'l', 't', '_'], 0 < c.toNat ∧ c.toNat < 256 := by
      simp
    exact hall c (by simpa using h)
  · obtain ⟨d, hd, rfl⟩ := List.mem_map.mp h
    have hdigit : ∀ d < 10, 0 < (Nat.digitChar d).toNat ∧ (Nat.digitChar d).toNat < 256 := by
      decide
    exact hdigit d (lt_of_mem_decimal hd)

/-- The names of the result files are short up to job 999. -/
theorem nameable_resultFileName_iff {jobId : ℤ} (hpos : 0 < jobId) :
    Nameable (textBytes (resultFileName jobId)) ↔ jobId < 1000 := by
  have hlength : (textBytes (resultFileName jobId)).length = 7 + (decimal jobId.natAbs).length := by
    have hfixed : "Result_".toList.length = 7 := by simp
    unfold resultFileName
    rw [textBytes, List.length_map, List.length_append, printInt_of_nonneg hpos.le,
      List.length_map, hfixed]
  have hdigits : (decimal jobId.natAbs).length ≤ 3 ↔ jobId.natAbs < 10 ^ 3 := by
    rw [decimal, if_neg (by omega), List.length_reverse]
    exact Nat.digits_length_le_iff (by decide) _
  constructor
  · intro hname
    have hle := hname.length_le
    have hlt := hdigits.mp (by omega)
    omega
  · intro hlt
    have hle := hdigits.mpr (by omega)
    refine ⟨by omega, ?_⟩
    exact zero_notMem_textBytes fun c hc => toNat_of_mem_resultFileName hpos hc

/-- The names of the pieces are not. -/
theorem not_nameable_pieceFileName (jobId : ℤ) (k : ℕ) :
    ¬ Nameable (textBytes (pieceFileName jobId (suffix k))) := by
  intro hname
  have hle := hname.length_le
  have hfixed : "_in_file".toList.length = 8 := by simp
  rw [textBytes, List.length_map, pieceFileName, List.length_append, List.length_append,
    List.length_map, hfixed, suffix, List.length_append, List.length_replicate] at hle
  omega

/-- Nor are pieces result files: their names have no capital letter. -/
theorem pieceFileName_ne_resultFileName (jobId j : ℤ) (k : ℕ) :
    textBytes (pieceFileName jobId (suffix k)) ≠ textBytes (resultFileName j) := by
  intro heq
  have hcapital : (82 : UInt8) ∈ textBytes (resultFileName j) := by
    unfold resultFileName
    simp [textBytes]
  rw [← heq] at hcapital
  obtain ⟨c, hmem, hc⟩ := List.mem_map.mp hcapital
  have hdigit : ∀ d < 10, UInt8.ofNat (Nat.digitChar d).toNat ≠ 82 := by decide
  have hdecimal {n : ℕ} (h : c ∈ (decimal n).map Nat.digitChar) : False := by
    obtain ⟨d, hd, rfl⟩ := List.mem_map.mp h
    exact hdigit d (lt_of_mem_decimal hd) hc
  unfold pieceFileName printInt at hmem
  rcases List.mem_append.mp hmem with hmem | hmem
  · rcases List.mem_append.mp hmem with hmem | hmem
    · rcases List.mem_append.mp hmem with hmem | hmem
      · -- the sign
        split at hmem
        next =>
          obtain rfl := List.mem_singleton.mp hmem
          cases hc
        next => cases hmem
      · exact hdecimal hmem
    · have hall : ∀ c ∈ ['_', 'i', 'n', '_', 'f', 'i', 'l', 'e'],
          UInt8.ofNat c.toNat ≠ 82 := by simp
      exact hall c (by simpa using hmem) hc
  · rw [suffix, List.map_append] at hmem
    rcases List.mem_append.mp hmem with hmem | hmem
    · obtain ⟨d, hd, rfl⟩ := List.mem_map.mp hmem
      exact hdigit d (by rw [List.eq_of_mem_replicate hd]; decide) hc
    · exact hdecimal hmem

/-- No name of a result file has a directory. -/
theorem slash_notMem_resultFileName (jobId : ℤ) : slash ∉ textBytes (resultFileName jobId) := by
  intro hmem
  obtain ⟨c, hc, hslash⟩ := List.mem_map.mp hmem
  have hdigit : ∀ d < 10, UInt8.ofNat (Nat.digitChar d).toNat ≠ slash := by decide
  unfold resultFileName printInt at hc
  rcases List.mem_append.mp hc with hc | hc
  · have hall : ∀ c ∈ ['R', 'e', 's', 'u', 'l', 't', '_'], UInt8.ofNat c.toNat ≠ slash := by
      simp [slash]
    exact hall c (by simpa using hc) hslash
  rcases List.mem_append.mp hc with hc | hc
  · split at hc
    next =>
      obtain rfl := List.mem_singleton.mp hc
      cases hslash
    next => cases hc
  · obtain ⟨d, hd, rfl⟩ := List.mem_map.mp hc
    exact hdigit d (lt_of_mem_decimal hd) hslash

/-- Where names without a directory are those of files of their own, the server's files can be
named by their own names, or from another directory. -/
theorem named_iff_of_plain (hplain : ∀ name file, slash ∉ name → leads name file → file = name) :
    Named leads file ↔ (Nameable file ∧ slash ∉ file ∧ leads file file) ∨
      ∃ name, Nameable name ∧ slash ∈ name ∧ leads name file := by
  constructor
  · rintro ⟨name, hname, hleads⟩
    by_cases hslash : slash ∈ name
    · exact .inr ⟨name, hname, hslash, hleads⟩
    · obtain rfl := hplain name file hslash hleads
      exact .inl ⟨hname, hslash, hleads⟩
  · rintro (⟨hname, -, hleads⟩ | ⟨name, hname, -, hleads⟩)
    · exact ⟨file, hname, hleads⟩
    · exact ⟨name, hname, hleads⟩

/-- Of the files that the server uses, a client can change all result files. Where names without
a directory are those of files of their own, it can give a result file any content by its own name
up to job 999, and others by names of at most ten bytes from other directories only; and only by
such a name it can change the piece of a task. -/
theorem canWrite_serverFiles (al : Allocator) (fd : ℤ) (leads : List UInt8 → List UInt8 → Prop)
    (hplain : ∀ name file, slash ∉ name → leads name file → file = name) (jobId : ℤ)
    (hpos : 0 < jobId) (hint : jobId < 2 ^ 31)
    (hfile : leads (textBytes (resultFileName jobId)) (textBytes (resultFileName jobId))) :
    CanChange al fd leads (textBytes (resultFileName jobId)) ∧
      (CanWrite al fd leads (textBytes (resultFileName jobId)) ↔ jobId < 1000 ∨
        ∃ name, Nameable name ∧ slash ∈ name ∧ leads name (textBytes (resultFileName jobId))) ∧
      ∀ k, CanChange al fd leads (textBytes (pieceFileName jobId (suffix k))) ↔
        ∃ name, Nameable name ∧ slash ∈ name ∧
          leads name (textBytes (pieceFileName jobId (suffix k))) := by
  have hslash := slash_notMem_resultFileName jobId
  refine ⟨?_, ?_, fun k => ?_⟩
  · refine canChange_of_isResultFile al fd ⟨BitVec.ofInt 32 jobId, ?_⟩
    rw [BitVec.toInt_ofInt, Int.bmod_eq_of_le (by omega) (by omega)]
    exact hfile
  · rw [← nameable_resultFileName_iff hpos, canWrite_iff_named, named_iff_of_plain hplain]
    simp only [hslash, hfile, not_false_eq_true, and_true]
  · constructor
    · intro hchange
      rcases hchange.named_or with hnamed | ⟨j, hleads⟩
      · rcases (named_iff_of_plain hplain).mp hnamed with ⟨hname, -⟩ | hother
        · exact absurd hname (not_nameable_pieceFileName jobId k)
        · exact hother
      · -- the name of a result file leads to that file
        have heq := hplain _ _ (slash_notMem_resultFileName j.toInt) hleads
        exact absurd heq (pieceFileName_ne_resultFileName jobId j.toInt k)
    · rintro ⟨name, hname, -, hleads⟩
      exact canChange_of_named al fd ⟨name, hname, hleads⟩

/-- The file of job 7, in a directory without directories. -/
theorem canWrite_serverFiles_seven :
    CanChange .exact 5 (fun name file => file = name) (textBytes (resultFileName 7)) ∧
      (CanWrite .exact 5 (fun name file => file = name) (textBytes (resultFileName 7)) ↔
        (7 : ℤ) < 1000 ∨
        ∃ name, Nameable name ∧ slash ∈ name ∧ textBytes (resultFileName 7) = name) ∧
      ∀ k, CanChange .exact 5 (fun name file => file = name)
          (textBytes (pieceFileName 7 (suffix k))) ↔
        ∃ name, Nameable name ∧ slash ∈ name ∧ textBytes (pieceFileName 7 (suffix k)) = name :=
  canWrite_serverFiles .exact 5 (fun name file => file = name) (fun _ _ _ heq => heq) 7 (by decide)
    (by decide) rfl

end Multicast
