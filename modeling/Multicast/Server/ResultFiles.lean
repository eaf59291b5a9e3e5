import Multicast.Lib.Glob
import Multicast.Server.Exclusivity
import Multicast.Transfer.Containment

/-!
# The result files on the disk

The results of a job are lines of a file, and the library gets the name of that file. The model
of the server keeps a list of numbers for each job. Here the server has only the files: it
appends lines, counts them with `wc`, and passes them to the library.

A shell starts with an empty slate, whatever an earlier server left: it removes all pieces and
all result files. From there on server and model do the same. The same runs are possible, after
each of them the tables are the same, and the file of each job has the lines for its numbers. The
only other files that are written are the pieces of the inputs.

## Main definitions

* `Multicast.ResultFiles.initCleanup` — what the shell removes before its loop
* `readInt` — the number that a text stands for
* `Disk`, `Action`, `step` — the server with its files, and what `split` writes
* `onNumbers` — the library, as a function of the numbers in a file
* `Represents` — the model of a server with files

## Main results

* `readInt_printInt` — what was printed is read
* `resultFileName_injective` — each job has a file of its own
* `initCleanup_eq_none` — no result file and no piece is left
* `Represents.handleResult` — server and model handle a result in the same way
* `represents_diskRun` — so do their runs

## Implementation notes

The files are those of the directory in which the server works, each by its name. What `split`
writes is not determined here: any pieces, at any moment, under the names that it gives them, as
long as the name of the input is a plain word to the shell that runs the command. What clients
send to the handlers of files is the matter of `Multicast.CanChange`.
-/

set_option autoImplicit false

namespace Multicast.ResultFiles

open StepRun Shell
open Exclusivity (Control initialControl)

/-! ### What the shell removes -/

/-- A pattern that accepts a text. -/
def literal (text : List Char) : List (Glob.Token UInt8) := Glob.text (textBytes text)

/-- `*`. -/
def anyRun : Glob.Token UInt8 := .star fun b => b != slash

/-- `[0-9]*_in_file*`. -/
def inFilePattern : List (Glob.Token UInt8) :=
  .one (fun b => 48 ≤ b && b ≤ 57) :: anyRun :: (literal "_in_file".toList ++ [anyRun])

/-- `Result_*`. -/
def resultPattern : List (Glob.Token UInt8) := literal "Result_".toList ++ [anyRun]

/-- `init_cleanup`, if `rm` can remove what the patterns accept. A pattern that accepts no name is
passed to `rm` as it stands, which is left out. -/
def initCleanup (files : Files) : Files := fun name =>
  if Glob.accepts inFilePattern name || Glob.accepts resultPattern name then none
  else files name

/-! ### Numbers and lines -/

/-- The number that some digits stand for. -/
def readDigits (digits : List UInt8) : ℕ :=
  Nat.ofDigits 10 (digits.map fun b => b.toNat - 48).reverse

/-- The number that a text stands for. -/
def readInt (text : List UInt8) : ℤ :=
  if text.head? = some 45 then -readDigits text.tail else readDigits text

/-- What `wc -l` counts. -/
def wc (file : Option (List UInt8)) : ℕ := (file.getD []).count 10

/-! ### The server with its files -/

/-- The server, when the results are on the disk. -/
structure Disk extends Control where
  files : Files

/-- The server after `init_cleanup`. -/
def startedDisk (files : Files) : Disk :=
  { initialControl with files := initCleanup files }

/-- The function that the `switch` on the operation selects. -/
def select (lib : FileMinMax) (operation : ℤ) : Option (Option (List UInt8) → Word) :=
  if operation = jobMin then some lib.minimumOfNumbers
  else if operation = jobMax then some lib.maximumOfNumbers
  else none

namespace Disk

/-- The line that `Handle_result` appends to the file of the job. -/
def appendResult (d : Disk) (jobId result : ℤ) : Disk :=
  { d with files := appendLine d.files (textBytes (resultFileName jobId)) result }

/-- The call of `update_client_status_to_free`. -/
def freeClient (d : Disk) (clientSocketFd jobId : ℤ) : Disk :=
  { d with toServer := d.toServer.freeClient clientSocketFd jobId }

/-- The lines that `wc` counts. -/
def countResults (d : Disk) (jobId : ℤ) : ℤ := wc (d.files (textBytes (resultFileName jobId)))

/-- The call of `update_group_status_to_free`. -/
def freeGroup (d : Disk) (groupId jobId : ℤ) : Disk :=
  { d with toServer := d.toServer.freeGroup groupId jobId }

/-- The call of the library with the name of the file. -/
def evaluate (lib : FileMinMax) (d : Disk) (jobId : ℤ) : Option ℤ :=
  (getJobOpFromId d.jobList jobId).bind fun job =>
    (select lib job).map fun minMax => (minMax (d.files (textBytes (resultFileName jobId)))).toInt

/-- The call of `update_job_status_to_completed`. -/
def completeJob (d : Disk) (jobId result : ℤ) : Option Disk :=
  (d.toServer.completeJob jobId result).map fun server => { d with toServer := server }

/-- What `Handle_result` does when all results are there. -/
def finishJob (lib : FileMinMax) (d : Disk) (jobId : ℤ) : Option Disk :=
  (getGroupIdFromJob d.jobList jobId).bind fun groupId =>
    ((d.freeGroup groupId jobId).evaluate lib jobId).bind fun result =>
      (d.freeGroup groupId jobId).completeJob jobId result

/-- `Handle_result`, on the disk. -/
def handleResult (lib : FileMinMax) (d : Disk) (clientSocketFd result jobId : ℤ) : Option Disk :=
  let d := (d.appendResult jobId result).freeClient clientSocketFd jobId
  (timeToComputeFinalResult d.jobList jobId (d.countResults jobId)).bind fun time =>
    if time then d.finishJob lib jobId else some d

end Disk

/-- The files after `split` wrote some pieces of the input of a job, the first one with the number
`k`. -/
def writePieces (jobId : ℤ) : ℕ → List (List UInt8) → Files → Files
  | _, [], files => files
  | k, piece :: pieces, files => writePieces jobId (k + 1) pieces
    (Function.update files (textBytes (pieceFileName jobId (suffix k))) (some piece))

/-- What happens to the tables, and the command `split` of a group handler. -/
inductive Action where
  | control (a : Exclusivity.Action)
  | split (groupId : ℤ) (pieces : List (List UInt8))

/-- A step that changes the tables. Only results are written. -/
def controlStep (lib : FileMinMax) : Exclusivity.Action → Disk → Option Disk
  | .register now clientSocketFd groups, d =>
    if ValidGroups groups then
      some { d with toServer := d.handleGroupIdRegs now clientSocketFd groups }
    else none
  | .start operation, d =>
    if (operation = jobMin ∨ operation = jobMax) ∧ findFreeGroup d.multicastGroups ≠ -1 then
      let started := d.jobAddition operation
      some { d with
        toServer := started.2
        queued := d.queued ++ [(started.1, started.2.jobId)] }
    else none
  | .groupHandler groupId jobId, d =>
    if d.queued.contains (groupId, jobId) then
      (d.toServer.groupHandler groupId).map fun server =>
        { d with toServer := server, queued := d.queued.erase (groupId, jobId) }
    else none
  | .result clientSocketFd value jobId, d =>
    if (jobWithId d.jobList jobId).isSome then d.handleResult lib clientSocketFd value jobId
    else none

/-- One step. The id of the job is read from the group for the names of the pieces. -/
def step (lib : FileMinMax) : Action → Disk → Option Disk
  | .control a, d => controlStep lib a d
  | .split groupId pieces, d =>
    some { d with files := writePieces (d.multicastGroups groupId).jobId 0 pieces d.files }

/-! ### The model -/

/-- The library, as a function of the numbers in a file. -/
def onNumbers (lib : FileMinMax) : MinMax where
  minimumOfNumbers numbers := (lib.minimumOfNumbers (some (fileOf numbers))).toInt
  maximumOfNumbers numbers := (lib.maximumOfNumbers (some (fileOf numbers))).toInt

/-- The file for some results; a file is there when the first one came. -/
def resultFile (numbers : List ℤ) : Option (List UInt8) :=
  if numbers = [] then none else some (fileOf numbers)

/-- The tables of a server, without the results. -/
def withoutResults (s : Control) : Control := { s with resultFiles := fun _ => [] }

/-- A step of the model, which has no pieces. -/
def modelStep (lib : FileMinMax) : Action → Control → Option Control
  | .control a, s => Exclusivity.step (onNumbers lib) a s
  | .split _ _, s => some s

/-- A server with files and its model have the same tables, the file of each job has the lines
for its results, and all files that are neither results nor pieces are as they were. -/
structure Represents (files : Files) (d : Disk) (s : Control) : Prop where
  tables : d.toControl = withoutResults s
  resultFiles : ∀ j, d.files (textBytes (resultFileName j)) = resultFile (s.resultFiles j)
  others : ∀ name, (∀ j, name ≠ textBytes (resultFileName j)) →
    (∀ j k, name ≠ textBytes (pieceFileName j (suffix k))) → d.files name = files name

variable {lib : FileMinMax} {files : Files} {d d' : Disk} {s s' : Control} {as : List Action}
variable {name : List UInt8} {numbers : List ℤ} {i j fd value : ℤ} {n : ℕ}

/-! ### Printed numbers -/

/-- The digits of a number, as bytes. -/
def digitBytes (n : ℕ) : List UInt8 := (decimal n).map fun d => UInt8.ofNat (48 + d)

theorem textBytes_printInt :
    textBytes (printInt i) = (if i < 0 then [45] else []) ++ digitBytes i.natAbs := by
  have hdigit : ∀ d < 10, UInt8.ofNat (Nat.digitChar d).toNat = UInt8.ofNat (48 + d) := by decide
  have hdigits : textBytes ((decimal i.natAbs).map Nat.digitChar) = digitBytes i.natAbs := by
    rw [textBytes, List.map_map]
    exact List.map_congr_left fun d hd => hdigit d (lt_of_mem_decimal hd)
  rw [printInt, textBytes, List.map_append]
  refine congrArg₂ (· ++ ·) ?_ hdigits
  split <;> rfl

theorem readDigits_digitBytes : readDigits (digitBytes n) = n := by
  have hdigit : ∀ d < 10, (UInt8.ofNat (48 + d)).toNat - 48 = d := by decide
  have hdigits : (digitBytes n).map (fun b => b.toNat - 48) = decimal n := by
    rw [digitBytes, List.map_map]
    exact (List.map_congr_left fun d hd => hdigit d (lt_of_mem_decimal hd)).trans (List.map_id _)
  rw [readDigits, hdigits, decimal]
  split
  next hzero =>
    rw [hzero]
    rfl
  next => rw [List.reverse_reverse, Nat.ofDigits_digits]

theorem digit_of_mem_digitBytes {b : UInt8} (h : b ∈ digitBytes n) :
    b ≠ 10 ∧ b ≠ 45 ∧ 48 ≤ b ∧ b ≤ 57 := by
  have hdigit : ∀ d < 10, UInt8.ofNat (48 + d) ≠ 10 ∧ UInt8.ofNat (48 + d) ≠ 45 ∧
      48 ≤ UInt8.ofNat (48 + d) ∧ UInt8.ofNat (48 + d) ≤ 57 := by decide
  obtain ⟨d, hd, rfl⟩ := List.mem_map.mp h
  exact hdigit d (lt_of_mem_decimal hd)

theorem digitBytes_ne_nil : digitBytes n ≠ [] := by
  rw [digitBytes, Ne, List.map_eq_nil_iff, decimal]
  split
  · exact List.cons_ne_nil _ _
  next hpos => rwa [List.reverse_eq_nil_iff, Nat.digits_eq_nil_iff_eq_zero]

/-- **Round trip.** What was printed is read. -/
theorem readInt_printInt : readInt (textBytes (printInt i)) = i := by
  rw [textBytes_printInt, readInt]
  by_cases hneg : i < 0
  · rw [if_pos hneg, List.singleton_append, List.head?_cons, if_pos rfl, List.tail_cons,
      readDigits_digitBytes]
    omega
  · have hhead : (digitBytes i.natAbs).head? ≠ some 45 := fun h =>
      (digit_of_mem_digitBytes (List.mem_of_mem_head? h)).2.1 rfl
    rw [if_neg hneg, List.nil_append, if_neg hhead, readDigits_digitBytes]
    omega

/-- Each job has a file of its own. -/
theorem resultFileName_injective : (fun j => textBytes (resultFileName j)).Injective := by
  intro i j h
  have hprinted : textBytes (printInt i) = textBytes (printInt j) := by
    have happend (j : ℤ) : textBytes (resultFileName j) =
        textBytes "Result_".toList ++ textBytes (printInt j) := List.map_append
    simp only [happend] at h
    exact List.append_cancel_left h
  exact readInt_printInt.symm.trans ((congrArg readInt hprinted).trans readInt_printInt)

/-- A line has one newline, at its end. -/
theorem count_numberLine : (numberLine i).count 10 = 1 := by
  have hnone : (textBytes (printInt i)).count 10 = 0 := by
    rw [textBytes_printInt, List.count_eq_zero, List.mem_append, not_or]
    refine ⟨?_, fun h => (digit_of_mem_digitBytes h).1 rfl⟩
    split <;> decide
  rw [numberLine, List.count_append, hnone]
  rfl

theorem count_fileOf : (fileOf numbers).count 10 = numbers.length := by
  induction numbers with
  | nil => rfl
  | cons i numbers ih =>
    rw [fileOf, List.flatMap_cons, List.count_append, count_numberLine, List.length_cons,
      Nat.add_comm]
    exact congrArg (· + 1) ih

/-! ### A new server -/

/-- Printed numbers have no directory, -/
theorem not_slash_of_printInt : ∀ b ∈ textBytes (printInt j), (b != slash) = true := by
  intro b hb
  rw [textBytes_printInt] at hb
  refine bne_iff_ne.mpr ?_
  rintro rfl
  rcases List.mem_append.mp hb with hb | hb
  · split at hb
    next => exact absurd (List.mem_singleton.mp hb) (by decide)
    next => cases hb
  · obtain ⟨-, -, hlow, -⟩ := digit_of_mem_digitBytes hb
    exact absurd hlow (by decide)

/-- nor have the digits behind a piece. -/
theorem not_slash_of_suffix :
    ∀ b ∈ textBytes ((suffix n).map Nat.digitChar), (b != slash) = true := by
  have hdigit : ∀ d < 10, UInt8.ofNat (Nat.digitChar d).toNat ≠ slash := by decide
  intro b hb
  rw [textBytes, List.map_map] at hb
  obtain ⟨d, hd, rfl⟩ := List.mem_map.mp hb
  refine bne_iff_ne.mpr (hdigit d ?_)
  rw [suffix] at hd
  rcases List.mem_append.mp hd with hd | hd
  · rw [List.eq_of_mem_replicate hd]
    decide
  · exact lt_of_mem_decimal hd

/-- No result file is left, and no piece of a job. -/
theorem initCleanup_eq_none (files : Files) (j : ℤ) :
    initCleanup files (textBytes (resultFileName j)) = none ∧
      (0 ≤ j → ∀ k, initCleanup files (textBytes (pieceFileName j (suffix k))) = none) := by
  constructor
  · refine if_pos ((Bool.or_eq_true ..).mpr (.inr ?_))
    refine Glob.accepts_text_append_iff.mpr ⟨_, List.map_append, Glob.accepts_star_nil ?_⟩
    rw [← textBytes]
    exact not_slash_of_printInt
  · intro hj k
    refine if_pos ((Bool.or_eq_true ..).mpr (.inl ?_))
    obtain ⟨b, front, hfront⟩ := List.exists_cons_of_ne_nil (digitBytes_ne_nil (n := j.natAbs))
    have hprinted : textBytes (printInt j) = b :: front := by
      rw [textBytes_printInt, if_neg (not_lt.mpr hj), List.nil_append, hfront]
    have hname : textBytes (pieceFileName j (suffix k)) =
        b :: (front ++ (textBytes "_in_file".toList ++
          textBytes ((suffix k).map Nat.digitChar))) := by
      unfold pieceFileName
      rw [textBytes, List.map_append, List.map_append, List.append_assoc]
      exact congrArg (· ++ _) hprinted
    obtain ⟨-, -, hlow, hhigh⟩ := digit_of_mem_digitBytes (hfront ▸ List.mem_cons_self (a := b))
    rw [hname, inFilePattern, Glob.accepts]
    refine (Bool.and_eq_true ..).mpr ⟨by simp [hlow, hhigh], Glob.accepts_star_iff.mpr ?_⟩
    refine ⟨front, _, rfl, fun c hc => not_slash_of_printInt c (by rw [hprinted]; exact .tail _ hc),
      Glob.accepts_text_append_iff.mpr ⟨_, rfl, Glob.accepts_star_nil not_slash_of_suffix⟩⟩

theorem represents_startedDisk :
    Represents (initCleanup files) (startedDisk files) initialControl where
  tables := rfl
  resultFiles j := (initCleanup_eq_none files j).1
  others _ _ _ := rfl

/-! ### The steps -/

/-- A step that changes only tables, in the same way on both sides. -/
theorem Represents.of_tables (h : Represents files d s) (htables : d'.toControl = withoutResults s')
    (hfiles : d'.files = d.files) (hresults : s'.resultFiles = s.resultFiles) :
    Represents files d' s' where
  tables := htables
  resultFiles j := by
    rw [hfiles, hresults]
    exact h.resultFiles j
  others name hresult hpiece := hfiles ▸ h.others name hresult hpiece

/-- The file of a job, as it is read for appending. -/
theorem Represents.getD_files (h : Represents files d s) :
    (d.files (textBytes (resultFileName j))).getD [] = fileOf (s.resultFiles j) := by
  rw [h.resultFiles, resultFile]
  split
  next hnil =>
    rw [hnil]
    rfl
  next => rfl

/-- A line is appended on both sides. -/
theorem Represents.appendResult (h : Represents files d s) :
    Represents files (d.appendResult j value) ⟨s.appendResult j value, s.queued⟩ where
  tables := h.tables
  resultFiles j' := by
    by_cases hj : j' = j
    · subst hj
      simp only [Disk.appendResult, appendLine, Server.appendResult, Function.update_self,
        resultFile, h.getD_files]
      rw [if_neg (by simp), fileOf_append, fileOf_singleton]
    · -- the line is in the file of another job
      have hname := fun heq => hj (resultFileName_injective heq)
      simp only [Disk.appendResult, appendLine, Server.appendResult]
      rw [Function.update_of_ne hname, Function.update_of_ne hj]
      exact h.resultFiles j'
  others name hresult hpiece :=
    (Function.update_of_ne (hresult j) ..).trans (h.others name hresult hpiece)

theorem Represents.freeClient (h : Represents files d s) :
    Represents files (d.freeClient fd j) ⟨s.freeClient fd j, s.queued⟩ :=
  h.of_tables (congrArg (fun c : Control => { c with toServer := c.freeClient fd j }) h.tables)
    rfl rfl

theorem Represents.freeGroup (h : Represents files d s) :
    Represents files (d.freeGroup i j) ⟨s.freeGroup i j, s.queued⟩ :=
  h.of_tables (congrArg (fun c : Control => { c with toServer := c.freeGroup i j }) h.tables)
    rfl rfl

theorem Represents.jobList (h : Represents files d s) : d.jobList = s.jobList := by
  change d.jobList = (withoutResults s).jobList
  rw [← h.tables]

theorem Represents.completeJob (h : Represents files d s) :
    Option.Rel (Represents files) (d.completeJob j value)
      ((s.completeJob j value).map fun server => { s with toServer := server }) := by
  rw [Disk.completeJob, Server.completeJob, Server.completeJob, h.jobList]
  cases updateJobStatusToCompleted s.jobList j value with
  | none => exact .none
  | some out =>
    have htables := congrArg (fun c : Control => { c with jobList := out.2 }) h.tables
    exact .some (h.of_tables htables rfl rfl)

/-- `wc` counts the results. -/
theorem Represents.countResults (h : Represents files d s) :
    d.countResults j = s.countResults j := by
  rw [Disk.countResults, wc, h.getD_files, count_fileOf]
  rfl

/-- The library sees the same numbers. -/
theorem Represents.evaluate (h : Represents files d s) (hne : s.resultFiles j ≠ []) :
    d.evaluate lib j = s.evaluate (onNumbers lib) j := by
  rw [Disk.evaluate, Server.evaluate, h.jobList, h.resultFiles, resultFile, if_neg hne]
  refine Option.bind_congr fun job _ => ?_
  rw [select, MinMax.select]
  split
  · rfl
  · split <;> rfl

/-- Both finish a job, or both fail. -/
theorem Represents.finishJob (h : Represents files d s) (hne : s.resultFiles j ≠ []) :
    Option.Rel (Represents files) (d.finishJob lib j)
      ((s.finishJob (onNumbers lib) j).map fun server => { s with toServer := server }) := by
  rw [Disk.finishJob, Server.finishJob, h.jobList]
  cases getGroupIdFromJob s.jobList j with
  | none => exact .none
  | some groupId =>
    have hfreed : Represents files (d.freeGroup groupId j) ⟨s.freeGroup groupId j, s.queued⟩ :=
      h.freeGroup
    rw [Option.bind_some, Option.bind_some, hfreed.evaluate hne]
    cases (s.freeGroup groupId j).evaluate (onNumbers lib) j with
    | none => exact .none
    | some result => exact hfreed.completeJob

/-- Server and model handle a result in the same way. -/
theorem Represents.handleResult (h : Represents files d s) :
    Option.Rel (Represents files) (d.handleResult lib fd value j)
      ((s.handleResult (onNumbers lib) fd value j).map
        fun server => { s with toServer := server }) := by
  have hrecorded : Represents files ((d.appendResult j value).freeClient fd j)
      ⟨(s.appendResult j value).freeClient fd j, s.queued⟩ := h.appendResult.freeClient
  have hne : (s.appendResult j value).resultFiles j ≠ [] := by simp [Server.appendResult]
  rw [Disk.handleResult, Server.handleResult, hrecorded.jobList, hrecorded.countResults]
  dsimp only
  cases timeToComputeFinalResult ((s.appendResult j value).freeClient fd j).jobList j
      (((s.appendResult j value).freeClient fd j).countResults j) with
  | none => exact .none
  | some time =>
    cases time with
    | true => exact hrecorded.finishJob hne
    | false => exact .some hrecorded

theorem jobAddition_withoutResults :
    (withoutResults s).jobAddition i =
      ((s.jobAddition i).1, { (s.jobAddition i).2 with resultFiles := fun _ => [] }) := by
  have hgroups : (withoutResults s).multicastGroups = s.multicastGroups := rfl
  rw [Server.jobAddition, Server.jobAddition, hgroups]
  generalize findFreeGroup s.multicastGroups = groupId
  rfl

theorem resultFiles_of_groupHandler {server : Server} (h : s.groupHandler i = some server) :
    server.resultFiles = s.resultFiles := by
  obtain ⟨arrClients, -, hrecord⟩ := Option.bind_eq_some_iff.mp h
  rw [Server.eq_of_recordJob hrecord]
  rfl

/-- A group handler does not look at the results. -/
theorem groupHandler_withoutResults :
    (withoutResults s).groupHandler i =
      (s.groupHandler i).map fun server => { server with resultFiles := fun _ => [] } := by
  change (findFreeClientsInAGroup s.clients s.multicastGroups i).bind _ =
    ((findFreeClientsInAGroup s.clients s.multicastGroups i).bind _).map _
  cases findFreeClientsInAGroup s.clients s.multicastGroups i with
  | none => rfl
  | some arrClients =>
    rw [Option.bind_some, Option.bind_some, Server.recordJob, Server.recordJob, Option.map_map]
    rfl

/-- `split` writes nothing but its pieces. -/
theorem writePieces_of_ne {jobId : ℤ} {k : ℕ} {pieces : List (List UInt8)}
    (hname : ∀ k, name ≠ textBytes (pieceFileName jobId (suffix k))) :
    writePieces jobId k pieces files name = files name := by
  induction pieces generalizing k files with
  | nil => rfl
  | cons piece pieces ih =>
    rw [writePieces, ih, Function.update_of_ne (hname k)]

/-- The pieces are no results. -/
theorem Represents.writePieces {pieces : List (List UInt8)} (h : Represents files d s) :
    Represents files { d with files := ResultFiles.writePieces i 0 pieces d.files } s where
  tables := h.tables
  resultFiles j :=
    (writePieces_of_ne fun k => (pieceFileName_ne_resultFileName i j k).symm).trans
      (h.resultFiles j)
  others name hresult hpiece :=
    (writePieces_of_ne (hpiece i)).trans (h.others name hresult hpiece)

theorem Represents.controlStep {a : Exclusivity.Action} (h : Represents files d s) :
    Option.Rel (Represents files) (controlStep lib a d)
      (Exclusivity.step (onNumbers lib) a s) := by
  obtain ⟨c, dfiles⟩ := d
  obtain rfl : c = withoutResults s := h.tables
  cases a with
  | register now fd groups =>
    refine rel_guard Iff.rfl fun _ => ?_
    exact .some (h.of_tables rfl rfl rfl)
  | start operation =>
    refine rel_guard Iff.rfl fun _ => ?_
    rw [jobAddition_withoutResults]
    have hresults : (s.jobAddition operation).2.resultFiles = s.resultFiles := rfl
    -- what is found among the groups does not matter here
    generalize s.jobAddition operation = started at hresults ⊢
    exact .some (h.of_tables rfl rfl hresults)
  | groupHandler groupId jobId =>
    refine rel_guard List.contains_iff_mem fun _ => ?_
    rw [groupHandler_withoutResults]
    cases hserver : s.groupHandler groupId with
    | none => exact .none
    | some server => exact .some (h.of_tables rfl rfl (resultFiles_of_groupHandler hserver))
  | result fd value j =>
    refine rel_guard Iff.rfl fun _ => ?_
    exact h.handleResult

/-- A step is possible for the server if it is for the model, and keeps them together. -/
theorem Represents.step {a : Action} (h : Represents files d s) :
    Option.Rel (Represents files) (step lib a d) (modelStep lib a s) := by
  cases a with
  | control a => exact h.controlStep
  | split groupId pieces => exact .some h.writePieces

/-- Whatever files an earlier server left, the same runs are possible for a server that starts
with `init_cleanup` and for its model; and after each of them the model represents the server. -/
theorem represents_diskRun (lib : FileMinMax) (files : Files) (as : List Action) :
    Option.Rel (Represents (initCleanup files)) (run (step lib) as (startedDisk files))
      (run (modelStep lib) as initialControl) :=
  run_rel (fun _ _ _ h => h.step) represents_startedDisk

end Multicast.ResultFiles
