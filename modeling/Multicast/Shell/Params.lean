import Mathlib.Data.Vector.Defs
import Multicast.Lib.CString
import Multicast.Shell.Command

/-!
# The array of the words

The shell keeps the line in one array of characters and the words as pointers into it in
another. A line overwrites the first array from its beginning and the second one up to the
first word that is missing, so that pointers of earlier lines stay behind it. An entry of
the second array is read only if the one in front of it was found to be a word, and so it was
written for the same line.

Here every entry remembers the line for which it was written, which the program does not
see, and an entry that was not written for the current line has no value. Nothing that the
shell does fails for want of a value.

## Main definitions

* `Multicast.Shell.CommandLine` — a line that `fgets` can store
* `Entry`, `Locals` — an entry of `params`, and the variables of `shell_loop`
* `Locals.readCommand`, `Locals.executeCommand` — the two functions, on the arrays
* `shellLoop` — what the shell does, line by line
* `answers` — what it should do: each line by itself, up to the first that quits

## Main results

* `Locals.readParams_spec` — the entries after a line was read
* `Locals.executeCommand_eq` — the entries that are tested are those of the line
* `shellLoop_ownLine` — a command depends on its own line only
-/

set_option autoImplicit false

namespace Multicast.Shell

/-- `CMDLINE_LEN`. -/
def cmdlineLen : ℕ := 80

/-- The terminator of a string. -/
def nul : Char := '\x00'

/-- A line that `fgets` stores in an array of `CMDLINE_LEN` characters. -/
structure CommandLine where
  chars : List Char
  ne_nil : chars ≠ []
  nul_notMem : nul ∉ chars
  length_lt : chars.length < cmdlineLen

/-- An entry of `params`: a place in `cmd` or a null pointer, and the number of the line for
which it was written. -/
structure Entry where
  lineNumber : ℕ
  pointer : Option ℕ

/-- The variables of `shell_loop`, and the number of the current line. -/
structure Locals where
  cmd : List Char
  params : List Entry
  lineNumber : ℕ

namespace Locals

/-! ### Reading a line -/

/-- `fgets` stores a line. -/
def fgets (s : Locals) (line : List Char) : Option Locals :=
  (CString.strcpy nul s.cmd line).map fun cmd =>
    { s with cmd := cmd, lineNumber := s.lineNumber + 1 }

/-- The newline at the end becomes a terminator. An empty string has no last place. -/
def chomp (s : Locals) : Option Locals :=
  (CString.read nul s.cmd).bind fun line =>
    if line = [] then none
    else if s.cmd[line.length - 1]? = some '\n' then
      some { s with cmd := s.cmd.set (line.length - 1) nul }
    else some s

/-- `params[i] = pointer`. -/
def assign (s : Locals) (i : ℕ) (pointer : Option ℕ) : Locals :=
  { s with params := s.params.set i ⟨s.lineNumber, pointer⟩ }

/-- The loop of `readCommand` from entry `i` on, while there are entries left. -/
def readParams : ℕ → ℕ → Option ℕ → Locals → Option Locals
  | 0, _, _, s => some s
  | _ + 1, i, none, s => some (s.assign i none)
  | room + 1, i, some cmd, s =>
    (CString.strsep ' ' nul s.cmd cmd).bind fun (buf, next) =>
      readParams room (i + 1) next ({ s with cmd := buf }.assign i (some cmd))

/-- `readCommand (cmd, params)`. -/
def readCommand (s : Locals) : Option Locals := s.readParams maxArgs 0 (some 0)

/-! ### Executing a command -/

/-- The pointer `params[i]`; none if it was not written for the current line. -/
def entry (s : Locals) (i : ℕ) : Option (Option ℕ) :=
  (s.params[i]?.filter fun e => e.lineNumber = s.lineNumber).map Entry.pointer

/-- The string to which `params[i]` points. -/
def word (s : Locals) (i : ℕ) : Option (List Char) :=
  (s.entry i).bind fun pointer => pointer.bind fun j => CString.read nul (s.cmd.drop j)

/-- The branch for `start`. -/
def executeStart (s : Locals) : Option ShellAction :=
  (s.entry 1).bind fun
    | none => some .usage
    | some _ => (s.word 1).bind fun sub =>
      if sub = ['j', 'o', 'b'] then
        (s.entry 2).bind fun
          | none => some .nothing
          | some _ => (s.word 2).bind fun operation =>
            if atoi operation > 2 then some .usage
            else
              (s.entry 3).bind fun
                | none => some .usage
                | some _ => (s.word 3).map fun fileName => .startJob (atoi operation) fileName
      else some .nothing

/-- The branch for `show`. -/
def executeShow (s : Locals) : Option ShellAction :=
  (s.entry 1).bind fun
    | none => some .usage
    | some _ => (s.word 1).bind fun sub =>
      if sub = ['g', 'r', 'o', 'u', 'p'] then
        (s.entry 2).bind fun
          | none => some .nothing
          | some _ => (s.word 2).map fun groupId =>
            if atoi groupId > 255 then .usage else .showGroup (atoi groupId)
      else if sub = ['m', 'e', 's', 's', 'a', 'g', 'e', 's'] then some .showMessages
      else if sub = ['c', 'l', 'i', 'e', 'n', 't', 's'] then some .showClients
      else some .nothing

/-- The branch for `stats`. -/
def executeStats (s : Locals) : Option ShellAction :=
  (s.word 1).map fun interval =>
    if interval = ['j', 'o', 'b'] then .showJobs
    else if atoi interval > 20 then .usage
    else .showAllGroups (atoi interval)

/-- `executeCommand (params)`. -/
def executeCommand (s : Locals) : Option ShellAction :=
  (s.word 0).bind fun name =>
    if name = ['q', 'u', 'i', 't'] then some .quit
    else if name = ['h', 'e', 'l', 'p'] then some .usage
    else if name = ['s', 't', 'a', 'r', 't'] then s.executeStart
    else if name = ['s', 'h', 'o', 'w'] then s.executeShow
    else if name = ['s', 't', 'a', 't', 's'] then
      (s.entry 1).bind fun
        | none => some .usage
        | some _ => s.executeStats
    else if name = [] then some .nothing
    else some .usage

/-! ### Lines -/

/-- One round of the loop of `shell_loop`: the variables after it, and what the line asked
for. -/
def round (s : Locals) (line : List Char) : Option (Locals × ShellAction) :=
  ((s.fgets line).bind chomp).bind fun s =>
    s.readCommand.bind fun s => s.executeCommand.map fun action => (s, action)

end Locals

/-- `shell_loop`: what the lines ask for, one after the other, up to the end of the input or
the first line that quits. -/
def shellLoop : List CommandLine → Locals → Option (List ShellAction)
  | [], _ => some []
  | line :: lines, s =>
    (s.round line.chars).bind fun (s, action) =>
      if action = .quit then some [action] else (shellLoop lines s).map (action :: ·)

/-- The variables at the beginning, with whatever is in memory. -/
def Locals.initial (cmd : List.Vector Char cmdlineLen)
    (params : List.Vector (Option ℕ) maxArgs) : Locals where
  cmd := cmd.toList
  params := params.toList.map fun pointer => ⟨0, pointer⟩
  lineNumber := 0

/-- Each line by itself, up to the first that quits. -/
def answers : List CommandLine → List ShellAction
  | [] => []
  | line :: lines =>
    if commandOf line.chars = .quit then [.quit] else commandOf line.chars :: answers lines

namespace Locals

variable {s s' : Locals} {i j room : ℕ} {front rest junk : List Char} {args : List (List Char)}

/-- The entries from `i` on have the words of a line, and behind the last one there is a null
pointer, if there is an entry left. -/
def Reads (s : Locals) : ℕ → List (List Char) → Prop
  | i, [] => i < maxArgs → s.entry i = some none
  | i, word :: args =>
    (∃ j, s.entry i = some (some j)) ∧ s.word i = some word ∧ s.Reads (i + 1) args

/-- What the loop of `readCommand` leaves alone when it begins at entry `i` with a place
behind `front`. -/
structure Keeps (s s' : Locals) (i : ℕ) (front : List Char) : Prop where
  lineNumber : s'.lineNumber = s.lineNumber
  length_params : s'.params.length = s.params.length
  length_cmd : s'.cmd.length = s.cmd.length
  front_prefix : front <+: s'.cmd
  params : ∀ k < i, s'.params[k]? = s.params[k]?

/-! ### Reading a line -/

theorem Keeps.entry (h : Keeps s s' i front) (hk : j < i) : s'.entry j = s.entry j := by
  rw [Locals.entry, Locals.entry, h.params j hk, h.lineNumber]

theorem Keeps.trans {s'' : Locals} {front' : List Char} (h : Keeps s s' i front)
    (h' : Keeps s' s'' j front') (hij : i ≤ j) (hfront : front <+: front') :
    Keeps s s'' i front where
  lineNumber := h'.lineNumber.trans h.lineNumber
  length_params := h'.length_params.trans h.length_params
  length_cmd := h'.length_cmd.trans h.length_cmd
  front_prefix := hfront.trans h'.front_prefix
  params k hk := (h'.params k (by omega)).trans (h.params k hk)

theorem entry_assign (hi : i < s.params.length) (pointer : Option ℕ) :
    (s.assign i pointer).entry i = some pointer := by
  simp [entry, assign, hi]

/-- An entry that is assigned leaves those in front of it alone. -/
theorem keeps_assign {buf : List Char} (hbuf : buf.length = s.cmd.length) (h : front <+: buf)
    (pointer : Option ℕ) : Keeps s ({ s with cmd := buf }.assign i pointer) i front where
  lineNumber := rfl
  length_params := List.length_set
  length_cmd := hbuf
  front_prefix := h
  params _ hk := List.getElem?_set_ne (Nat.ne_of_gt hk)

/-- A word that was cut off in front of everything that changed is read. -/
theorem word_eq {word : List Char} (hnul : nul ∉ word)
    (hentry : s.entry i = some (some front.length)) (hcmd : front ++ word ++ [nul] <+: s.cmd) :
    s.word i = some word := by
  obtain ⟨tail, htail⟩ := hcmd
  rw [Locals.word, hentry, Option.bind_some, Option.bind_some, ← htail, List.append_assoc,
    List.append_assoc, List.drop_left]
  exact CString.read_append hnul tail

/-- Behind the last word, the loop leaves a null pointer if there is an entry left. -/
theorem readParams_none (hroom : i + room = maxArgs) (hparams : s.params.length = maxArgs) :
    ∃ s', s.readParams room i none = some s' ∧ Keeps s s' i s.cmd ∧ s'.Reads i [] := by
  cases room with
  | zero =>
    refine ⟨s, rfl, ⟨rfl, rfl, rfl, List.prefix_refl _, fun _ _ => rfl⟩, ?_⟩
    intro hlt
    omega
  | succ room =>
    refine ⟨s.assign i none, rfl, keeps_assign rfl (List.prefix_refl _) none, ?_⟩
    intro hlt
    exact entry_assign (hparams ▸ hlt) none

/-- The last word stays as it is, and what is left is a null pointer. -/
theorem readParams_last (hcmd : s.cmd = front ++ rest ++ nul :: junk) (hnul : nul ∉ rest)
    (hspace : ' ' ∉ rest) (hroom : i + (room + 1) = maxArgs)
    (hparams : s.params.length = maxArgs) :
    ∃ s', s.readParams (room + 1) i (some front.length) = some s' ∧ Keeps s s' i front ∧
      s'.Reads i [rest] := by
  have hcut : CString.strsep ' ' nul s.cmd front.length = some (s.cmd, none) := by
    rw [hcmd]
    exact CString.strsep_of_nul hspace hnul
  have hword : front ++ rest ++ [nul] <+: s.cmd := ⟨junk, by simp [hcmd]⟩
  have hfront : front <+: s.cmd := ⟨rest ++ nul :: junk, by simp [hcmd]⟩
  let s₁ := s.assign i (some front.length)
  have hkeeps : Keeps s s₁ i front := keeps_assign rfl hfront _
  obtain ⟨s', hloop, hkeeps', hreads⟩ : ∃ s', s₁.readParams room (i + 1) none = some s' ∧
      Keeps s₁ s' (i + 1) s.cmd ∧ s'.Reads (i + 1) [] :=
    readParams_none (by omega) (hkeeps.length_params.trans hparams)
  -- the null pointer behind the word leaves its entry alone
  have hentry : s'.entry i = some (some front.length) := by
    rw [hkeeps'.entry (Nat.lt_succ_self i)]
    exact entry_assign (by omega) _
  refine ⟨s', ?_, hkeeps.trans hkeeps' (Nat.le_succ i) hfront, ⟨_, hentry⟩, ?_, hreads⟩
  · rw [readParams, hcut, Option.bind_some]
    exact hloop
  · exact word_eq hnul hentry (hword.trans hkeeps'.front_prefix)

/-- The loop, on a line whose rest begins behind `front`. -/
theorem readParams_spec (hcmd : s.cmd = front ++ rest ++ nul :: junk) (hnul : nul ∉ rest)
    (hroom : i + room = maxArgs) (hparams : s.params.length = maxArgs) :
    ∃ s', s.readParams room i (some front.length) = some s' ∧ Keeps s s' i front ∧
      s'.Reads i (Shell.readCommand room (some rest)) := by
  induction room generalizing i front rest junk s with
  | zero =>
    refine ⟨s, rfl, ⟨rfl, rfl, rfl, ?_, fun _ _ => rfl⟩, fun hlt => absurd hroom (by omega)⟩
    rw [hcmd, List.append_assoc]
    exact List.prefix_append ..
  | succ room ih =>
    by_cases hspace : ' ' ∈ rest
    · -- a word is cut off, and the loop goes on behind it
      obtain ⟨word, rest, rfl, hword⟩ := List.eq_append_cons_of_mem hspace
      obtain ⟨hnulword, hnulrest⟩ := not_or.mp (mt List.mem_append.mpr hnul)
      let buf := front ++ word ++ [nul] ++ rest ++ nul :: junk
      have hcut : CString.strsep ' ' nul s.cmd front.length =
          some (buf, some (front ++ word ++ [nul]).length) := by
        have hcmd' : s.cmd = front ++ word ++ ' ' :: (rest ++ nul :: junk) := by simp [hcmd]
        have hbuf : buf = front ++ word ++ nul :: (rest ++ nul :: junk) := by simp [buf]
        rw [hcmd', hbuf, List.length_append, List.length_append]
        exact CString.strsep_of_sep (by decide) hword hnulword
      have hlength : buf.length = s.cmd.length := by simp [buf, hcmd]
      have hfront : front <+: front ++ word ++ [nul] := ⟨word ++ [nul], by simp⟩
      let s₁ := { s with cmd := buf }.assign i (some front.length)
      have hkeeps : Keeps s s₁ i front :=
        keeps_assign hlength (hfront.trans ⟨rest ++ nul :: junk, by simp [buf]⟩) _
      obtain ⟨s', hloop, hkeeps', hreads⟩ : ∃ s',
          s₁.readParams room (i + 1) (some (front ++ word ++ [nul]).length) = some s' ∧
            Keeps s₁ s' (i + 1) (front ++ word ++ [nul]) ∧
            s'.Reads (i + 1) (Shell.readCommand room (some rest)) :=
        ih rfl (fun h => hnulrest (List.mem_cons_of_mem _ h)) (by omega)
          (hkeeps.length_params.trans hparams)
      have hentry : s'.entry i = some (some front.length) := by
        rw [hkeeps'.entry (Nat.lt_succ_self i)]
        exact entry_assign (show i < s.params.length by omega) _
      refine ⟨s', ?_, hkeeps.trans hkeeps' (Nat.le_succ i) hfront, ?_⟩
      · rw [readParams, hcut, Option.bind_some]
        exact hloop
      · rw [Shell.readCommand, strsep_append hword]
        exact ⟨⟨_, hentry⟩, word_eq hnulword hentry hkeeps'.front_prefix, hreads⟩
    · obtain ⟨s', hloop, hkeeps, hreads⟩ := readParams_last hcmd hnul hspace hroom hparams
      refine ⟨s', hloop, hkeeps, ?_⟩
      rw [Shell.readCommand, strsep_of_not_mem hspace]
      cases room with
      | zero => exact hreads
      | succ room => exact hreads

/-! ### Executing a command -/

theorem executeStart_eq (h : s.Reads 1 args) :
    s.executeStart = some (Shell.executeStart args) := by
  cases args with
  | nil => simp [executeStart, Shell.executeStart, h (by decide)]
  | cons sub args =>
    obtain ⟨⟨j, hentry⟩, hsub, hargs⟩ := h
    simp only [executeStart, hentry, hsub, Option.bind_some]
    by_cases hjob : sub = ['j', 'o', 'b']
    · cases args with
      | nil => simp [hjob, Shell.executeStart, hargs (by decide)]
      | cons operation args =>
        obtain ⟨⟨j, hentry⟩, hoperation, hargs⟩ := hargs
        simp only [hjob, if_true, hentry, hoperation, Option.bind_some]
        by_cases hhigh : atoi operation > 2
        · simp [hhigh, Shell.executeStart]
        · cases args with
          | nil => simp [hhigh, Shell.executeStart, hargs (by decide)]
          | cons fileName args =>
            obtain ⟨⟨j, hentry⟩, hfile, -⟩ := hargs
            simp [hhigh, Shell.executeStart, hentry, hfile]
    · simp [hjob, Shell.executeStart]

theorem executeShow_eq (h : s.Reads 1 args) :
    s.executeShow = some (Shell.executeShow args) := by
  cases args with
  | nil => simp [executeShow, Shell.executeShow, h (by decide)]
  | cons sub args =>
    obtain ⟨⟨j, hentry⟩, hsub, hargs⟩ := h
    simp only [executeShow, Shell.executeShow, hentry, hsub, Option.bind_some]
    by_cases hgroup : sub = ['g', 'r', 'o', 'u', 'p']
    · cases args with
      | nil => simp [hgroup, hargs (by decide)]
      | cons groupId args =>
        obtain ⟨⟨j, hentry⟩, hid, -⟩ := hargs
        simp [hgroup, hentry, hid]
    · simp only [if_neg hgroup, apply_ite some]

/-- On the words of a line the entries that are tested have values. -/
theorem executeCommand_eq {name : List Char} (h : s.Reads 0 (name :: args)) :
    s.executeCommand = some (Shell.executeCommand (name :: args)) := by
  obtain ⟨-, hname, hargs⟩ := h
  simp only [executeCommand, Shell.executeCommand, hname, Option.bind_some,
    executeStart_eq hargs, executeShow_eq hargs, apply_ite some]
  -- only the branch for `stats` still tests an entry
  refine ite_congr rfl (fun _ => rfl) fun _ => ite_congr rfl (fun _ => rfl) fun _ =>
    ite_congr rfl (fun _ => rfl) fun _ => ite_congr rfl (fun _ => rfl) fun _ => ?_
  by_cases hstats : name = ['s', 't', 'a', 't', 's']
  · rw [if_pos hstats]
    cases args with
    | nil => simp [hstats, hargs (by decide)]
    | cons interval args =>
      obtain ⟨⟨j, hentry⟩, hinterval, -⟩ := hargs
      simp [hstats, hentry, executeStats, Shell.executeStats, hinterval]
  · rw [if_neg hstats]
    cases args with
    | nil => exact (apply_ite some ..).symm
    | cons interval args => simp only [if_neg hstats, apply_ite some]

/-! ### Lines -/

/-- Both arrays have their size. -/
structure Valid (s : Locals) : Prop where
  length_cmd : s.cmd.length = cmdlineLen
  length_params : s.params.length = maxArgs

theorem valid_initial (cmd : List.Vector Char cmdlineLen)
    (params : List.Vector (Option ℕ) maxArgs) : (Locals.initial cmd params).Valid where
  length_cmd := cmd.toList_length
  length_params := (List.length_map _).trans params.toList_length

/-- The newline is taken off in the array as it is in the line. -/
theorem chomp_spec {line : List Char} (hcmd : s.cmd = line ++ nul :: junk) (hne : line ≠ [])
    (hnul : nul ∉ line) :
    ∃ junk', s.chomp = some { s with cmd := Shell.chomp line ++ nul :: junk' } ∧
      (Shell.chomp line ++ nul :: junk').length = s.cmd.length := by
  obtain ⟨front, c, rfl⟩ := (List.eq_nil_or_concat' line).resolve_left hne
  have hlast : s.cmd[(front ++ [c]).length - 1]? = some c := by simp [hcmd]
  rw [chomp, hcmd, CString.read_append hnul, Option.bind_some, if_neg hne, ← hcmd, hlast,
    Shell.chomp, List.getLast?_concat, List.dropLast_concat]
  by_cases hc : c = '\n'
  · refine ⟨nul :: junk, ?_, by simp [hc, hcmd]⟩
    simp [hc, hcmd, List.set_append_right]
  · refine ⟨junk, ?_, by simp [hc, hcmd]⟩
    simp only [Option.some.injEq, hc, if_false, ← hcmd]

theorem notMem_chomp {line : List Char} (hnul : nul ∉ line) : nul ∉ Shell.chomp line := by
  rw [Shell.chomp]
  split
  · exact fun h => hnul (List.dropLast_subset _ h)
  · exact hnul

/-- One line is answered by itself. -/
theorem round_spec (h : s.Valid) (line : CommandLine) :
    ∃ s', s.round line.chars = some (s', commandOf line.chars) ∧ s'.Valid := by
  have hfits : line.chars.length < s.cmd.length := h.length_cmd ▸ line.length_lt
  let s₁ : Locals :=
    { s with
      cmd := line.chars ++ nul :: s.cmd.drop (line.chars.length + 1)
      lineNumber := s.lineNumber + 1 }
  have hfgets : s.fgets line.chars = some s₁ := by
    rw [fgets, CString.strcpy_eq_some hfits, Option.map_some]
  obtain ⟨junk, hchomp, hlength⟩ : ∃ junk,
      s₁.chomp = some { s₁ with cmd := Shell.chomp line.chars ++ nul :: junk } ∧
        (Shell.chomp line.chars ++ nul :: junk).length = s₁.cmd.length :=
    chomp_spec rfl line.ne_nil line.nul_notMem
  let s₂ : Locals := { s₁ with cmd := Shell.chomp line.chars ++ nul :: junk }
  have hcmd : s₂.cmd = [] ++ Shell.chomp line.chars ++ nul :: junk := rfl
  -- the words begin at the beginning of the array
  obtain ⟨s', hread, hkeeps, hreads⟩ :=
    readParams_spec hcmd (notMem_chomp line.nul_notMem) (Nat.zero_add maxArgs) h.length_params
  refine ⟨s', ?_, ?_, hkeeps.length_params.trans h.length_params⟩
  · have hexecute : s'.executeCommand = some (commandOf line.chars) := executeCommand_eq hreads
    have hcommand : s₂.readCommand = some s' := hread
    rw [round, hfgets, Option.bind_some, hchomp, Option.bind_some, hcommand, Option.bind_some,
      hexecute, Option.map_some]
  · have hstored : s₁.cmd.length = s.cmd.length := by simp [s₁]; omega
    rw [hkeeps.length_cmd, hlength, hstored, h.length_cmd]

end Locals

theorem answers_prefix (lines : List CommandLine) :
    answers lines <+: lines.map fun line => commandOf line.chars := by
  induction lines with
  | nil => exact List.prefix_refl []
  | cons line lines ih =>
    rw [answers, List.map_cons]
    split
    next hquit =>
      rw [hquit]
      exact List.prefix_append [ShellAction.quit] _
    next => exact List.cons_prefix_cons.mpr ⟨rfl, ih⟩

theorem shellLoop_eq (cmd : List.Vector Char cmdlineLen)
    (params : List.Vector (Option ℕ) maxArgs) (lines : List CommandLine) :
    shellLoop lines (.initial cmd params) = some (answers lines) := by
  have hvalid := Locals.valid_initial cmd params
  generalize Locals.initial cmd params = s at hvalid
  induction lines generalizing s with
  | nil => rfl
  | cons line lines ih =>
    obtain ⟨s', hround, hvalid'⟩ := Locals.round_spec hvalid line
    simp only [shellLoop, hround, Option.bind_some, answers]
    by_cases hquit : commandOf line.chars = .quit
    · rw [if_pos hquit, if_pos hquit, hquit]
    · rw [if_neg hquit, if_neg hquit, ih s' hvalid', Option.map_some]

/-- A command depends on its own line only. Whatever was in memory, and whatever the lines
before it left there, the shell reads entries of the current line only, and what it does with
each line that it reads is a function of this line. -/
theorem shellLoop_ownLine (cmd : List.Vector Char cmdlineLen)
    (params : List.Vector (Option ℕ) maxArgs) (lines : List CommandLine) :
    shellLoop lines (.initial cmd params) = some (answers lines) ∧
      answers lines <+: lines.map fun line => commandOf line.chars :=
  ⟨shellLoop_eq cmd params lines, answers_prefix lines⟩

end Multicast.Shell
