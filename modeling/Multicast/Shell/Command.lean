import Mathlib.Algebra.Group.Int.Defs
import Mathlib.Data.Int.Notation
import Mathlib.Data.List.Basic

/-!
# Command lines

The shell cuts a line at its spaces into at most five words and decides by the first ones
what to do. A word is a list of characters here, a missing word is the end of the list of
words. Numbers are read with `atoi`, which accepts everything and answers 0 for a word that
is no number.

## Main definitions

* `Multicast.Shell.strsep`, `readCommand` — the words of a line
* `Multicast.Shell.atoi` — the value of a word
* `Multicast.Shell.ShellAction`, `executeCommand` — what a line asks for

## Main results

* `readCommand_eq_take_splitOn` — the words are the pieces of the line between its spaces
* `commandOf_eq_startJob_iff` — the lines that start a job
* `executeCommand_eq_showGroup` — the ids that are looked up are at most 255
-/

set_option autoImplicit false

namespace Multicast.Shell

/-- `MAX_ARGS`. -/
def maxArgs : ℕ := 5

/-! ### Words -/

/-- `strsep (&cmd, " ")`: the word up to the first space, and the line behind it, if there
is a space. -/
def strsep : List Char → List Char × Option (List Char)
  | [] => ([], none)
  | c :: cmd =>
    if c = ' ' then ([], some cmd) else (c :: (strsep cmd).1, (strsep cmd).2)

/-- `readCommand`: the words of a line, at most as many as there is room for. -/
def readCommand : ℕ → Option (List Char) → List (List Char)
  | 0, _ | _ + 1, none => []
  | room + 1, some cmd => (strsep cmd).1 :: readCommand room (strsep cmd).2

/-- A line as `fgets` stores it, without the newline at its end. -/
def chomp (line : List Char) : List Char :=
  if line.getLast? = some '\n' then line.dropLast else line

/-! ### Numbers -/

/-- The characters that `strtol` skips. -/
def isSpace (c : Char) : Bool := c = ' ' || (9 ≤ c.toNat && c.toNat ≤ 13)

/-- The number that the digits at the front of a word continue `n` to. -/
def digitsValue (n : ℕ) : List Char → ℕ
  | [] => n
  | c :: cs => if c.isDigit then digitsValue (10 * n + (c.toNat - 48)) cs else n

/-- `strtol` to the base ten: a number that does not fit a `long` becomes the nearest one
that does. -/
def strtol (word : List Char) : ℤ :=
  match word.dropWhile isSpace with
  | '-' :: digits => max (-2 ^ 63) (-(digitsValue 0 digits : ℤ))
  | '+' :: digits => min (2 ^ 63 - 1) (digitsValue 0 digits : ℤ)
  | digits => min (2 ^ 63 - 1) (digitsValue 0 digits : ℤ)

/-- `atoi`: the `long` cut down to an `int`. -/
def atoi (word : List Char) : ℤ := (BitVec.ofInt 32 (strtol word)).toInt

/-! ### Commands -/

/-- What a line asks for. -/
inductive ShellAction where
  | quit
  | usage
  | startJob (jobNumber : ℤ) (fileName : List Char)
  | showGroup (groupId : ℤ)
  | showMessages
  | showClients
  | showJobs
  | showAllGroups (refreshInterval : ℤ)
  | nothing
deriving DecidableEq, Repr

/-- The branch for `start`, on the words behind it. -/
def executeStart : List (List Char) → ShellAction
  | [] => .usage
  | sub :: args =>
    if sub = ['j', 'o', 'b'] then
      match args with
      | [] => .nothing
      | operation :: args =>
        if atoi operation > 2 then .usage
        else
          match args with
          | [] => .usage
          | fileName :: _ => .startJob (atoi operation) fileName
    else .nothing

/-- The branch for `show`. -/
def executeShow : List (List Char) → ShellAction
  | [] => .usage
  | sub :: args =>
    if sub = ['g', 'r', 'o', 'u', 'p'] then
      match args with
      | [] => .nothing
      | groupId :: _ => if atoi groupId > 255 then .usage else .showGroup (atoi groupId)
    else if sub = ['m', 'e', 's', 's', 'a', 'g', 'e', 's'] then .showMessages
    else if sub = ['c', 'l', 'i', 'e', 'n', 't', 's'] then .showClients
    else .nothing

/-- The branch for `stats`, which is not taken without a word behind it. -/
def executeStats (interval : List Char) : ShellAction :=
  if interval = ['j', 'o', 'b'] then .showJobs
  else if atoi interval > 20 then .usage
  else .showAllGroups (atoi interval)

/-- `executeCommand`. The list of words is not empty. -/
def executeCommand : List (List Char) → ShellAction
  | [] => .nothing
  | name :: args =>
    if name = ['q', 'u', 'i', 't'] then .quit
    else if name = ['h', 'e', 'l', 'p'] then .usage
    else if name = ['s', 't', 'a', 'r', 't'] then executeStart args
    else if name = ['s', 'h', 'o', 'w'] then executeShow args
    else
      match args with
      | interval :: _ =>
        if name = ['s', 't', 'a', 't', 's'] then executeStats interval
        else if name = [] then .nothing
        else .usage
      | [] => if name = [] then .nothing else .usage

/-- One round of `shell_loop`. -/
def commandOf (line : List Char) : ShellAction :=
  executeCommand (readCommand maxArgs (some (chomp line)))

variable {word line fileName : List Char} {args : List (List Char)} {g jobNumber : ℤ}

/-! ### What is read -/

theorem strsep_append (h : ' ' ∉ word) (rest : List Char) :
    strsep (word ++ ' ' :: rest) = (word, some rest) := by
  induction word with
  | nil => simp [strsep]
  | cons c word ih =>
    obtain ⟨hc, hword⟩ := by simpa using h
    rw [List.cons_append, strsep, if_neg (Ne.symm hc), ih hword]

theorem strsep_of_not_mem (h : ' ' ∉ word) : strsep word = (word, none) := by
  induction word with
  | nil => rfl
  | cons c word ih =>
    obtain ⟨hc, hword⟩ := by simpa using h
    rw [strsep, if_neg (Ne.symm hc), ih hword]

/-- The words that are read are the first pieces of the line between spaces. -/
theorem readCommand_eq_take_splitOn (room : ℕ) (cmd : List Char) :
    readCommand room (some cmd) = (cmd.splitOn ' ').take room := by
  induction room generalizing cmd with
  | zero => rfl
  | succ room ih =>
    rw [readCommand]
    induction cmd with
    | nil => cases room <;> rfl
    | cons c cmd ihcmd =>
      rw [List.splitOn_cons_eq_if_modifyHead, strsep]
      by_cases hc : c = ' '
      · -- the word ends here, and the rest of the line is read with less room
        rw [if_pos hc, if_pos (beq_iff_eq.mpr hc), List.take_succ_cons, ih]
      · -- the character belongs to the first word
        obtain ⟨word, words, hsplit⟩ := List.exists_cons_of_ne_nil (List.splitOn_ne_nil ' ' cmd)
        rw [hsplit, List.take_succ_cons] at ihcmd
        obtain ⟨hword, hwords⟩ := List.cons_eq_cons.mp ihcmd
        rw [if_neg hc, if_neg (by simpa using hc), hsplit, List.modifyHead_cons,
          List.take_succ_cons, hword, hwords]

/-! ### What is asked for -/

theorem executeStart_ne_showGroup : executeStart args ≠ .showGroup g := by
  fun_cases executeStart args <;> simp

theorem executeStats_ne_showGroup : executeStats word ≠ .showGroup g := by
  fun_cases executeStats word <;> simp

theorem executeShow_eq_showGroup (h : executeShow args = .showGroup g) : g ≤ 255 := by
  revert h
  fun_cases executeShow args <;> grind

/-- A group that is looked up has an id of at most 255. The other end is not tested. -/
theorem executeCommand_eq_showGroup (h : executeCommand args = .showGroup g) : g ≤ 255 := by
  revert h
  fun_cases executeCommand args
  case case4 => exact fun h => absurd h executeStart_ne_showGroup
  case case5 => exact executeShow_eq_showGroup
  case case6 => exact fun h => absurd h executeStats_ne_showGroup
  -- the other branches pass no words on
  all_goals simp

/-! ### Lines that start a job -/

theorem executeStart_eq_startJob_iff : executeStart args = .startJob jobNumber fileName ↔
    ∃ operation rest, args = ['j', 'o', 'b'] :: operation :: fileName :: rest ∧
      atoi operation = jobNumber ∧ jobNumber ≤ 2 := by
  constructor
  · fun_cases executeStart args
    -- the branch in which the job is added
    case case5 operation hle fileName' rest =>
      intro h
      obtain ⟨rfl, rfl⟩ := ShellAction.startJob.inj h
      exact ⟨operation, rest, rfl, rfl, Int.not_lt.mp hle⟩
    all_goals simp
  · rintro ⟨operation, rest, rfl, rfl, hle⟩
    simp [executeStart, Int.not_lt.mpr hle]

theorem executeShow_ne_startJob : executeShow args ≠ .startJob jobNumber fileName := by
  fun_cases executeShow args <;> simp

theorem executeStats_ne_startJob {word : List Char} :
    executeStats word ≠ .startJob jobNumber fileName := by
  fun_cases executeStats word <;> simp

theorem executeCommand_eq_startJob_iff : executeCommand args = .startJob jobNumber fileName ↔
    ∃ operation rest,
      args = ['s', 't', 'a', 'r', 't'] :: ['j', 'o', 'b'] :: operation :: fileName :: rest ∧
        atoi operation = jobNumber ∧ jobNumber ≤ 2 := by
  constructor
  · fun_cases executeCommand args
    case case4 args _ _ =>
      intro h
      obtain ⟨operation, rest, rfl, hop⟩ := executeStart_eq_startJob_iff.mp h
      exact ⟨operation, rest, rfl, hop⟩
    case case5 args _ _ _ => exact fun h => absurd h executeShow_ne_startJob
    case case6 interval _ _ _ _ _ => exact fun h => absurd h executeStats_ne_startJob
    -- the other branches pass no words on
    all_goals simp
  · rintro ⟨operation, rest, rfl, rfl, hle⟩
    simp [executeCommand, executeStart, Int.not_lt.mpr hle]

/-- The lines that start a job: their first four pieces decide. -/
theorem commandOf_eq_startJob_iff : commandOf line = .startJob jobNumber fileName ↔
    ∃ operation rest,
      (chomp line).splitOn ' ' =
          ['s', 't', 'a', 'r', 't'] :: ['j', 'o', 'b'] :: operation :: fileName :: rest ∧
        atoi operation = jobNumber ∧ jobNumber ≤ 2 := by
  rw [commandOf, readCommand_eq_take_splitOn, executeCommand_eq_startJob_iff]
  constructor
  · rintro ⟨operation, rest, hwords, hop⟩
    refine ⟨operation, ((chomp line).splitOn ' ').drop 4, ?_, hop⟩
    have hfront := congrArg (List.take 4) hwords
    rw [List.take_take] at hfront
    calc (chomp line).splitOn ' '
        = ((chomp line).splitOn ' ').take 4 ++ ((chomp line).splitOn ' ').drop 4 :=
          (List.take_append_drop 4 _).symm
      _ = _ := by rw [show min 4 maxArgs = 4 from rfl] at hfront; rw [hfront]; rfl
  · rintro ⟨operation, rest, hline, hop⟩
    exact ⟨operation, rest.take 1, by rw [hline]; rfl, hop⟩

end Multicast.Shell
