import Multicast.Shell.Operations
import Multicast.Shell.Params
import Multicast.Transfer.Split

/-!
# The name of the data-set

The name that an operator types lies in the line, at most 79 characters. `job_addition`
copies it into an array of 100, which is enough. The group handler copies it from there into
an array of 15, with at most 15 characters, and prints it into two commands. A name of 15
characters or more fills the array, and nothing ends it.

## Main definitions

* `Multicast.Shell.DataSetCommands` — the two commands of a group handler
* `handlerCommands` — how it puts them together from its arguments
* `dataSetCommands` — the commands for a line that starts a job
* `NamesDataSet` — they name what the line names
* `ShortName` — the condition on the line

## Main results

* `dataSetCommands_eq` — the commands for a line
* `namesDataSet_iff` — they name what the line names exactly if the name is short
* `not_namesDataSet_long` — a line with a name of 16 characters
-/

set_option autoImplicit false

namespace Multicast.Shell

/-! ### Commands -/

/-- What `%d` prints. -/
def printInt (i : ℤ) : List Char :=
  (if i < 0 then ['-'] else []) ++ (decimal i.natAbs).map Nat.digitChar

/-- What the group handler passes to `popen` and to `system`. -/
structure DataSetCommands where
  wc : List Char
  split : List Char
deriving DecidableEq

/-- The command that counts the lines of a file. -/
def wcText (fileName : List Char) : List Char :=
  "wc -l ".toList ++ fileName ++ " | awk '\x7bprint $1\x7d'".toList

/-- The command that cuts a file into pieces. -/
def splitText (lines : ℤ) (fileName : List Char) (jobId : ℤ) : List Char :=
  "split -l ".toList ++ printInt lines ++ " -a 6 --numeric-suffixes ".toList ++ fileName ++
    " ".toList ++ printInt jobId ++ "_in_file".toList

/-- The size of `filename` in `struct mg_argument`. -/
def filenameSize : ℕ := 100

/-- The commands of `multicast_Group_Handler`, from the array `filename` in its arguments,
the number of lines for a piece and the id of the job. The array `file_name` has 15
characters, the array `cmd` has 256, and both are zero when they are written. -/
def handlerCommands (filename : List Char) (lines jobId : ℤ) : Option DataSetCommands :=
  (CString.read nul filename).bind fun filename =>
    ((CString.strncpy nul (List.replicate 15 nul) filename 15).bind (CString.read nul)).bind
      fun fileName =>
        ((CString.snprintf nul (List.replicate 256 nul) (wcText fileName) 256).bind
          (CString.read nul)).bind fun wc =>
            ((CString.strcpy nul (List.replicate 256 nul) (splitText lines fileName jobId)).bind
              (CString.read nul)).map fun split => ⟨wc, split⟩

/-- The commands of the handler that a line queues, when `job_addition` finds `filename` in
its variable, and this variable arrives as it is. -/
def dataSetCommands (s : Locals) (line : CommandLine) (filename : List.Vector Char filenameSize)
    (lines jobId : ℤ) : Option DataSetCommands :=
  (s.round line.chars).bind fun (_, action) =>
    match action with
    | .startJob _ fileName =>
      (CString.strcpy nul filename.toList fileName).bind fun filename =>
        handlerCommands filename lines jobId
    | _ => none

/-! ### The property and the condition -/

/-- The commands name what the line names. -/
def NamesDataSet (line : CommandLine) : Prop :=
  ∀ jobNumber fileName, commandOf line.chars = .startJob jobNumber fileName →
    ∀ (s : Locals) (filename : List.Vector Char filenameSize) (lines jobId : Word), s.Valid →
      dataSetCommands s line filename lines.toInt jobId.toInt =
        some ⟨wcText fileName, splitText lines.toInt fileName jobId.toInt⟩

/-- The condition on a line: if it starts a job, its fourth word has at most 14 characters. -/
def ShortName (line : CommandLine) : Prop :=
  ∀ operation fileName rest,
    (chomp line.chars).splitOn ' ' =
        ['s', 't', 'a', 'r', 't'] :: ['j', 'o', 'b'] :: operation :: fileName :: rest →
      atoi operation ≤ 2 → fileName.length < 15

variable {line : CommandLine} {fileName : List Char} {jobNumber i : ℤ}

/-! ### Names in lines -/

/-- A word of a line is a part of it. -/
theorem isInfix_intercalate {sep word : List Char} {words : List (List Char)} (h : word ∈ words) :
    word <:+: sep.intercalate words := by
  induction words with
  | nil => cases h
  | cons word' words ih =>
    cases words with
    | nil =>
      rw [List.mem_singleton] at h
      rw [List.intercalate_singleton, h]
    | cons word'' words =>
      rw [List.intercalate_cons_cons, List.append_assoc]
      rcases List.mem_cons.mp h with rfl | hmem
      · exact (List.prefix_append ..).isInfix
      · exact (ih hmem).trans ((List.suffix_append sep _).trans (List.suffix_append ..)).isInfix

theorem isInfix_fileName (h : commandOf line.chars = .startJob jobNumber fileName) :
    fileName <:+: line.chars := by
  obtain ⟨operation, rest, hwords, -⟩ := commandOf_eq_startJob_iff.mp h
  have hpart : fileName <:+: chomp line.chars := by
    have hline : [' '].intercalate ((chomp line.chars).splitOn ' ') = chomp line.chars :=
      List.intercalate_splitOn ' '
    rw [← hline]
    exact isInfix_intercalate (by simp [hwords])
  refine hpart.trans ?_
  rw [chomp]
  split
  · exact (List.dropLast_prefix _).isInfix
  · exact List.infix_refl _

/-! ### Printing -/

theorem length_decimal_le {n d : ℕ} (hd : 0 < d) (h : n < 10 ^ d) : (decimal n).length ≤ d := by
  rw [decimal]
  split
  · exact hd
  · rw [List.length_reverse]
    exact (Nat.digits_length_le_iff (by decide) n).mpr h

/-- An `int` is printed with at most eleven characters. -/
theorem length_printInt_le (i : Word) : (printInt i.toInt).length ≤ 11 := by
  have hlow := BitVec.le_toInt i
  have hhigh := BitVec.toInt_lt (x := i)
  have hdecimal : (decimal i.toInt.natAbs).length ≤ 10 :=
    length_decimal_le (by decide) (by omega)
  rw [printInt, List.length_append, List.length_map]
  have hsign : (if i.toInt < 0 then ['-'] else []).length ≤ 1 := by split <;> simp
  omega

theorem lt_of_mem_decimal {n d : ℕ} (h : d ∈ decimal n) : d < 10 := by
  rw [decimal] at h
  split at h
  · obtain rfl := List.mem_singleton.mp h
    decide
  · exact Nat.digits_lt_base (by decide) (List.mem_reverse.mp h)

theorem nul_notMem_printInt : nul ∉ printInt i := by
  rw [printInt, List.mem_append, not_or]
  constructor
  · split <;> decide
  · intro h
    obtain ⟨d, hd, hchar⟩ := List.mem_map.mp h
    have hdigit : ∀ d < 10, Nat.digitChar d ≠ nul := by decide
    exact hdigit d (lt_of_mem_decimal hd) hchar

theorem nul_notMem_wcText (h : nul ∉ fileName) : nul ∉ wcText fileName := by
  have hfront : nul ∉ "wc -l ".toList := by simp [nul]
  have hback : nul ∉ " | awk '\x7bprint $1\x7d'".toList := by simp [nul]
  exact List.not_mem_append (List.not_mem_append hfront h) hback

theorem length_wcText : (wcText fileName).length = fileName.length + 25 := by
  unfold wcText
  rw [List.length_append, List.length_append]
  have hfront : "wc -l ".toList.length = 6 := by simp
  have hback : " | awk '\x7bprint $1\x7d'".toList.length = 19 := by simp
  omega

theorem nul_notMem_splitText {lines jobId : ℤ} (h : nul ∉ fileName) :
    nul ∉ splitText lines fileName jobId := by
  have hfixed : nul ∉ "split -l ".toList ∧ nul ∉ " -a 6 --numeric-suffixes ".toList ∧
      nul ∉ " ".toList ∧ nul ∉ "_in_file".toList := by simp [nul]
  obtain ⟨hcommand, hoption, hspace, hback⟩ := hfixed
  have hlines := List.not_mem_append hcommand (nul_notMem_printInt (i := lines))
  have hname := List.not_mem_append (List.not_mem_append hlines hoption) h
  have hjob := List.not_mem_append (List.not_mem_append hname hspace)
    (nul_notMem_printInt (i := jobId))
  exact List.not_mem_append hjob hback

theorem length_splitText_le (fileName : List Char) (lines jobId : Word) :
    (splitText lines.toInt fileName jobId.toInt).length ≤ fileName.length + 65 := by
  have hlines := length_printInt_le lines
  have hjob := length_printInt_le jobId
  have hfixed : "split -l ".toList.length = 9 ∧ " -a 6 --numeric-suffixes ".toList.length = 25 ∧
      " ".toList.length = 1 ∧ "_in_file".toList.length = 8 := by simp
  unfold splitText
  rw [List.length_append, List.length_append, List.length_append, List.length_append,
    List.length_append, List.length_append]
  omega

/-! ### The handler -/

/-- A name that fits the array of the handler is printed; another one is not a string. -/
theorem handlerCommands_eq {filename : List Char}
    (hfile : CString.read nul filename = some fileName) (lines jobId : Word) :
    handlerCommands filename lines.toInt jobId.toInt =
      if fileName.length < 15 then
        some ⟨wcText fileName, splitText lines.toInt fileName jobId.toInt⟩
      else none := by
  have hnul := (CString.read_eq_some_iff.mp hfile).1
  have hcopy : (CString.strncpy nul (List.replicate 15 nul) fileName 15).bind (CString.read nul) =
      if fileName.length < 15 then some fileName else none :=
    CString.read_strncpy hnul
  rw [handlerCommands, hfile, Option.bind_some, hcopy]
  split
  next hshort =>
    -- both texts fit their arrays, however long the numbers are
    have hwc : (CString.snprintf nul (List.replicate 256 nul) (wcText fileName) 256).bind
        (CString.read nul) = some (wcText fileName) :=
      CString.read_snprintf (nul_notMem_wcText hnul) (by rw [length_wcText]; omega)
        (Nat.le_of_eq (List.length_replicate ..).symm)
    have hsplit : (CString.strcpy nul (List.replicate 256 nul)
        (splitText lines.toInt fileName jobId.toInt)).bind (CString.read nul) =
          some (splitText lines.toInt fileName jobId.toInt) := by
      refine CString.read_strcpy (nul_notMem_splitText hnul) ?_
      have hlength := length_splitText_le fileName lines jobId
      rw [List.length_replicate]
      omega
    rw [Option.bind_some, hwc, Option.bind_some, hsplit, Option.map_some]
  next => rfl

/-- The commands for a line that starts a job. -/
theorem dataSetCommands_eq (h : commandOf line.chars = .startJob jobNumber fileName) {s : Locals}
    (hs : s.Valid) (filename : List.Vector Char filenameSize) (lines jobId : Word) :
    dataSetCommands s line filename lines.toInt jobId.toInt =
      if fileName.length < 15 then
        some ⟨wcText fileName, splitText lines.toInt fileName jobId.toInt⟩
      else none := by
  obtain ⟨s', hround, -⟩ := Locals.round_spec hs line
  have hpart := isInfix_fileName h
  have hnul : nul ∉ fileName := fun hmem => line.nul_notMem (hpart.subset hmem)
  have hfits : fileName.length < filename.toList.length := by
    have hle := hpart.length_le
    have hlt := line.length_lt
    rw [filename.toList_length, filenameSize]
    rw [cmdlineLen] at hlt
    omega
  have hstore : CString.strcpy nul filename.toList fileName = some _ :=
    CString.strcpy_eq_some hfits
  have hread := CString.read_strcpy hnul hfits
  rw [hstore, Option.bind_some] at hread
  simp only [dataSetCommands, hround, h, Option.bind_some, hstore]
  exact handlerCommands_eq hread lines jobId

/-! ### Lines -/

/-- The variables of `shell_loop` at the beginning, when the memory is zero. -/
def unwrittenLocals : Locals := .initial (.replicate _ nul) (.replicate _ none)

theorem valid_unwrittenLocals : unwrittenLocals.Valid := Locals.valid_initial ..

/-- The commands name what the line names if and only if the name has at most 14
characters. -/
theorem namesDataSet_iff (line : CommandLine) : NamesDataSet line ↔ ShortName line := by
  constructor
  · intro h operation fileName rest hwords hop
    have hstart : commandOf line.chars = .startJob (atoi operation) fileName :=
      commandOf_eq_startJob_iff.mpr ⟨operation, rest, hwords, rfl, hop⟩
    by_contra hlong
    have hnames := h _ _ hstart unwrittenLocals (.replicate _ nul) 0 0 valid_unwrittenLocals
    rw [dataSetCommands_eq hstart valid_unwrittenLocals, if_neg hlong] at hnames
    cases hnames
  · intro h jobNumber fileName hstart s filename lines jobId hs
    obtain ⟨operation, rest, hwords, rfl, hop⟩ := commandOf_eq_startJob_iff.mp hstart
    rw [dataSetCommands_eq hstart hs, if_pos (h operation fileName rest hwords hop)]

/-- The line `start job 1 aaaaaaaaaaaaaaaa`. -/
def longNameLine : CommandLine where
  chars := ['s', 't', 'a', 'r', 't', ' ', 'j', 'o', 'b', ' ', '1', ' '] ++ List.replicate 16 'a'
  ne_nil := by decide
  nul_notMem := by decide
  length_lt := by decide

/-- The commands for this line would read past the array. -/
theorem not_namesDataSet_long : ¬ NamesDataSet longNameLine := by
  intro h
  have hstart : commandOf longNameLine.chars = .startJob 1 (List.replicate 16 'a') := by
    decide +kernel
  have hnames := h _ _ hstart unwrittenLocals (.replicate _ nul) 0 0 valid_unwrittenLocals
  rw [dataSetCommands_eq hstart valid_unwrittenLocals, if_neg (by decide)] at hnames
  cases hnames

end Multicast.Shell
