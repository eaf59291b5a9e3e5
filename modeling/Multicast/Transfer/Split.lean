import Mathlib.Data.Nat.Digits.Lemmas

/-!
# Splitting the input

The group handler counts the lines of the input, divides by the number of free clients,
lets `split` make pieces of that many lines, and gives one piece to each client. The names
of the pieces end in six digits; the handler writes the digits for its task itself.

The division drops the remainder, so that `split` makes more pieces than there are clients
unless the division is exact. It is also carried out on an `int`, and six digits name a
million pieces.

## Main definitions

* `Multicast.split` — the pieces, as the shell command makes them
* `Multicast.taskSuffix` — the digits that the handler writes for a task
* `Multicast.openedPiece` — the piece that a task opens
* `Multicast.Partitions` — every task has a piece, and every line goes to one task

## Main results

* `taskSuffix_eq_suffix` — the digits agree below a million
* `partitions_iff` — the pieces are a partition exactly if the number of clients divides
  the number of lines, and neither is too large
-/

set_option autoImplicit false

namespace Multicast

variable {α : Type*} {lines : List α} {size i k q L : ℕ} {x : α × ℕ}

/-! ### Names -/

/-- The digits that `%d` prints. -/
def decimal (i : ℕ) : List ℕ := if i = 0 then [0] else (Nat.digits 10 i).reverse

/-- The digits of a name that `split -a 6 --numeric-suffixes` makes. -/
def suffix (k : ℕ) : List ℕ := List.replicate (6 - (decimal k).length) 0 ++ decimal k

/-- What `snprintf (number, 7, "%d", i)` leaves in the array. -/
def number (i : ℕ) : List ℕ := (decimal i).take 6

/-- The digits at the end of the name that `multicast_Group_Handler` builds for task `i`. -/
def taskSuffix (i : ℕ) : List ℕ :=
  if i < 10 then [0, 0, 0, 0, 0] ++ number i
  else if i < 100 then [0, 0, 0, 0] ++ number i
  else if i < 1000 then [0, 0, 0] ++ number i
  else if i < 10000 then [0, 0] ++ number i
  else if i < 100000 then [0] ++ number i
  else number i

/-- The names of different pieces differ. -/
theorem ofDigits_suffix (k : ℕ) : Nat.ofDigits 10 (suffix k).reverse = k := by
  rw [suffix, List.reverse_append, List.reverse_replicate, Nat.ofDigits_append_replicate_zero,
    decimal]
  split
  next hk => simp [hk]
  next => rw [List.reverse_reverse, Nat.ofDigits_digits]

theorem suffix_injective : Function.Injective suffix := by
  intro k k' h
  rw [← ofDigits_suffix k, h, ofDigits_suffix]

/-- How many digits `%d` prints. -/
theorem length_decimal_eq {d : ℕ} (hlow : 10 ^ d ≤ i) (hhigh : i < 10 ^ (d + 1)) :
    (decimal i).length = d + 1 := by
  have hpos : i ≠ 0 := by
    have := Nat.pow_pos (n := d) (show 0 < 10 by decide)
    omega
  have hle := (Nat.digits_length_le_iff (by decide : 1 < 10) (k := d + 1) i).mpr hhigh
  have hlt := (Nat.lt_digits_length_iff (by decide : 1 < 10) (k := d) i).mpr hlow
  rw [decimal, if_neg hpos, List.length_reverse]
  omega

theorem length_decimal_of_lt (hi : i < 10) : (decimal i).length = 1 := by
  by_cases hzero : i = 0
  · simp [decimal, hzero]
  · exact length_decimal_eq (d := 0) (by omega) (by omega)

/-- A number of `d + 1` digits is filled up with zeros to six. -/
theorem replicate_append_number {d : ℕ} (hlen : (decimal i).length = d + 1) (hd : d ≤ 5) :
    List.replicate (5 - d) 0 ++ number i = suffix i := by
  have hnumber : number i = decimal i := List.take_of_length_le (by omega)
  have hzeros : 6 - (decimal i).length = 5 - d := by omega
  rw [suffix, hnumber, hzeros]

/-- Below a million the handler writes the digits of the piece. -/
theorem taskSuffix_eq_suffix (hi : i < 10 ^ 6) : taskSuffix i = suffix i := by
  rw [taskSuffix]
  -- one case for each number of digits
  split
  next h => exact replicate_append_number (length_decimal_of_lt h) (by decide)
  split
  next hlow hhigh =>
    exact replicate_append_number (d := 1) (length_decimal_eq (by omega) hhigh) (by decide)
  split
  next hlow hhigh =>
    exact replicate_append_number (d := 2) (length_decimal_eq (by omega) hhigh) (by decide)
  split
  next hlow hhigh =>
    exact replicate_append_number (d := 3) (length_decimal_eq (by omega) hhigh) (by decide)
  split
  next hlow hhigh =>
    exact replicate_append_number (d := 4) (length_decimal_eq (by omega) hhigh) (by decide)
  next hlow =>
    exact replicate_append_number (d := 5) (length_decimal_eq (by omega) hi) (by decide)

/-- Past a million the last digits are cut off, and the name is that of another piece. -/
theorem taskSuffix_million : taskSuffix 1000000 = taskSuffix 100000 := by
  norm_num [taskSuffix, number, decimal]

/-! ### Pieces -/

/-- The value that `atoi` returns for the decimal form of a number, an `int`. -/
def atoi (n : ℕ) : ℤ :=
  if n % 2 ^ 32 < 2 ^ 31 then (n % 2 ^ 32 : ℕ) else (n % 2 ^ 32 : ℕ) - 2 ^ 32

/-- The number of lines that the handler asks for, for `size` clients that were found. -/
def linesPerPiece (lines : List α) (size : ℕ) : ℤ := atoi lines.length / size

/-- The files that `split -l n -a 6 --numeric-suffixes` makes: runs of `n` lines, the last
one maybe shorter, until the names run out; none if `n` is not positive. -/
def split (n : ℤ) (lines : List α) : List (List α) :=
  if n ≤ 0 then []
  else
    ((List.range ((lines.length + n.toNat - 1) / n.toNat)).map fun k =>
      (lines.drop (k * n.toNat)).take n.toNat).take (10 ^ 6)

/-- The piece with a name. -/
def openPiece (pieces : List (List α)) (name : List ℕ) : Option (List α) :=
  ((List.range pieces.length).find? fun k => suffix k = name).bind fun k => pieces[k]?

/-- The piece that the task `i` opens, when `size` clients were found. -/
def openedPiece (lines : List α) (size i : ℕ) : Option (List α) :=
  openPiece (split (linesPerPiece lines size) lines) (taskSuffix i)

/-- Every task finds its piece, and every line, told apart by its place in the input, is in
the piece of one task. -/
structure Partitions (lines : List α) (size : ℕ) : Prop where
  exists_piece : ∀ i < size, ∃ piece, openedPiece lines.zipIdx size i = some piece
  sent_once : ∀ line ∈ lines.zipIdx,
    ∃! i, i < size ∧ ∃ piece, openedPiece lines.zipIdx size i = some piece ∧ line ∈ piece

/-! ### Opening a piece -/

/-- The piece with the digits of `k` is the one with that number. -/
theorem openPiece_suffix (pieces : List (List α)) : openPiece pieces (suffix k) = pieces[k]? := by
  rw [openPiece]
  by_cases hk : k < pieces.length
  · have hfind : (List.range pieces.length).find? (fun k' => suffix k' = suffix k) = some k := by
      simp only [List.find?_range_eq_some, suffix_injective.eq_iff, decide_true, List.mem_range]
      refine ⟨trivial, hk, fun k' hk' => ?_⟩
      simpa using hk'.ne
    rw [hfind, Option.bind_some]
  · have hfind : (List.range pieces.length).find? (fun k' => suffix k' = suffix k) = none := by
      rw [List.find?_eq_none]
      intro k' hk'
      rw [List.mem_range] at hk'
      simp only [decide_eq_true_eq, suffix_injective.eq_iff]
      omega
    rw [hfind, Option.bind_none, List.getElem?_eq_none (by omega)]

theorem atoi_le (n : ℕ) : atoi n ≤ n := by
  rw [atoi]
  split <;> omega

theorem atoi_eq_iff (n : ℕ) : atoi n = n ↔ n < 2 ^ 31 := by
  rw [atoi]
  split <;> omega

/-- The pieces are there as long as there are lines and names. -/
theorem getElem?_split (hq : 0 < q) :
    (split (q : ℤ) lines)[k]? =
      if k < 10 ^ 6 ∧ k * q < lines.length then some ((lines.drop (k * q)).take q) else none := by
  have hlast : k < (lines.length + q - 1) / q ↔ k * q < lines.length := by
    rw [Nat.lt_div_iff_mul_lt hq]
    omega
  rw [split, if_neg (by omega), Int.toNat_natCast, List.getElem?_take, List.getElem?_map]
  by_cases hname : k < 10 ^ 6
  · by_cases hline : k * q < lines.length
    · rw [if_pos hname, if_pos ⟨hname, hline⟩, List.getElem?_range (hlast.mpr hline),
        Option.map_some]
    · -- the lines are used up
      rw [if_pos hname, if_neg (fun h => hline h.2), List.getElem?_eq_none, Option.map_none]
      rw [List.length_range]
      exact not_lt.mp fun h => hline (hlast.mp h)
  · -- the names are used up
    rw [if_neg hname, if_neg (fun h => hname h.1)]

/-- A line is at its place. -/
theorem place_of_getElem? (h : lines.zipIdx[k]? = some x) : x.2 = k := by
  rw [List.getElem?_zipIdx] at h
  obtain ⟨line, -, rfl⟩ := Option.map_eq_some_iff.mp h
  exact Nat.zero_add k

theorem place_lt (h : x ∈ lines.zipIdx) : x.2 < lines.length := by
  obtain ⟨k, hk⟩ := List.mem_iff_getElem?.mp h
  obtain ⟨hlt, -⟩ := List.getElem?_eq_some_iff.mp hk
  rw [place_of_getElem? hk]
  rwa [List.length_zipIdx] at hlt

/-- The lines in a piece. -/
theorem mem_piece_iff : x ∈ (lines.zipIdx.drop (k * q)).take q ↔
    x ∈ lines.zipIdx ∧ k * q ≤ x.2 ∧ x.2 < k * q + q := by
  constructor
  · intro hx
    obtain ⟨j, hj⟩ := List.mem_iff_getElem?.mp hx
    rw [List.getElem?_take] at hj
    split at hj
    next hlt =>
      rw [List.getElem?_drop] at hj
      have hplace := place_of_getElem? hj
      exact ⟨List.mem_iff_getElem?.mpr ⟨_, hj⟩, by omega, by omega⟩
    next => cases hj
  · rintro ⟨hx, hlow, hhigh⟩
    obtain ⟨j, hj⟩ := List.mem_iff_getElem?.mp hx
    have hplace := place_of_getElem? hj
    refine List.mem_iff_getElem?.mpr ⟨j - k * q, ?_⟩
    rw [List.getElem?_take, if_pos (by omega), List.getElem?_drop, Nat.add_sub_cancel' (by omega)]
    exact hj

/-! ### The partition -/

/-- What the tasks below a million open. -/
theorem openedPiece_eq (hq : 0 < q) (hlines : linesPerPiece lines size = q) (hi : i < 10 ^ 6) :
    openedPiece lines.zipIdx size i =
      if i * q < lines.length then some ((lines.zipIdx.drop (i * q)).take q) else none := by
  have hper : linesPerPiece lines.zipIdx size = q := by
    rw [linesPerPiece, List.length_zipIdx, ← hlines, linesPerPiece]
  rw [openedPiece, hper, taskSuffix_eq_suffix hi, openPiece_suffix, getElem?_split hq,
    List.length_zipIdx]
  exact if_congr (and_iff_right hi) rfl rfl

/-- With a million tasks or fewer, and an exact division, the pieces are a partition. -/
theorem partitions_of_dvd (hlines : lines ≠ []) (hdvd : size ∣ lines.length)
    (hsize : size ≤ 10 ^ 6) (hint : lines.length < 2 ^ 31) : Partitions lines size := by
  obtain ⟨q, hlength⟩ := hdvd
  have hpos : 0 < size * q := hlength ▸ List.length_pos_iff.mpr hlines
  have hq : 0 < q := Nat.pos_of_mul_pos_left hpos
  have hper : linesPerPiece lines size = q := by
    rw [linesPerPiece, (atoi_eq_iff _).mpr hint, hlength, Nat.cast_mul]
    exact Int.mul_ediv_cancel_left _ (by have := Nat.pos_of_mul_pos_right hpos; omega)
  have hopened : ∀ i < size, openedPiece lines.zipIdx size i =
      some ((lines.zipIdx.drop (i * q)).take q) := by
    intro i hi
    rw [openedPiece_eq hq hper (by omega), if_pos]
    rw [hlength]
    exact Nat.mul_lt_mul_of_pos_right hi hq
  refine ⟨fun i hi => ⟨_, hopened i hi⟩, fun line hline => ?_⟩
  have hplace : line.2 / q < size := by
    rw [Nat.div_lt_iff_lt_mul hq, ← hlength]
    exact place_lt hline
  -- the line at place `p` is in the piece `p / q`, and in no other
  refine ⟨line.2 / q, ⟨hplace, _, hopened _ hplace, mem_piece_iff.mpr ⟨hline, ?_, ?_⟩⟩, ?_⟩
  · exact Nat.div_mul_le_self _ _
  · exact Nat.lt_div_mul_add hq
  · rintro i ⟨hi, piece, hpiece, hmem⟩
    rw [hopened i hi] at hpiece
    obtain rfl := Option.some.inj hpiece
    obtain ⟨-, hlow, hhigh⟩ := mem_piece_iff.mp hmem
    exact (Nat.div_eq_of_lt_le hlow (by rwa [Nat.succ_mul])).symm

/-- Tasks whose pieces exist ask for at least one line. -/
theorem Partitions.exists_linesPerPiece (h : Partitions lines size) (hsize : 0 < size) :
    ∃ q : ℕ, 0 < q ∧ linesPerPiece lines size = q := by
  obtain ⟨piece, hpiece⟩ := h.exists_piece 0 hsize
  have hpos : 0 < linesPerPiece lines size := by
    -- otherwise the command fails, and there is no piece
    by_contra hle
    have hper : linesPerPiece lines.zipIdx size ≤ 0 := by
      rw [linesPerPiece, List.length_zipIdx]
      exact not_lt.mp hle
    rw [openedPiece, split, if_pos hper] at hpiece
    cases hpiece
  obtain ⟨q, hq⟩ := Int.eq_ofNat_of_zero_le hpos.le
  exact ⟨q, by omega, hq⟩

/-- A million and one tasks would send the lines of one piece twice. -/
theorem Partitions.size_le (h : Partitions lines size) (hsize : 0 < size) : size ≤ 10 ^ 6 := by
  by_contra hlarge
  obtain ⟨q, hq, hper⟩ := h.exists_linesPerPiece hsize
  obtain ⟨piece, hpiece⟩ := h.exists_piece 100000 (by omega)
  -- both tasks open the piece with the digits 100000, and it has a line
  have hsame : openedPiece lines.zipIdx size 1000000 = some piece := by
    rw [← hpiece, openedPiece, openedPiece, taskSuffix_million]
  have heq := hpiece
  rw [openedPiece_eq hq hper (by decide)] at heq
  split at heq
  next hline =>
    obtain rfl := Option.some.inj heq
    have hmem : (lines[100000 * q], 100000 * q) ∈ lines.zipIdx := by
      rw [List.mk_mem_zipIdx_iff_getElem?]
      exact List.getElem?_eq_getElem hline
    obtain ⟨i, -, honly⟩ := h.sent_once _ hmem
    have hin := mem_piece_iff.mpr ⟨hmem, le_rfl, Nat.lt_add_of_pos_right hq⟩
    have hfirst := honly 100000 ⟨by omega, _, hpiece, hin⟩
    have hsecond := honly 1000000 ⟨by omega, _, hsame, hin⟩
    omega
  next => cases heq

/-- **The split is a partition of the input** exactly if the number of clients divides the
number of lines, there are no more clients than names, and the number of lines is an
`int`. -/
theorem partitions_iff (lines : List α) (size : ℕ) (hlines : lines ≠ []) (hsize : 0 < size) :
    Partitions lines size ↔
      size ∣ lines.length ∧ size ≤ 10 ^ 6 ∧ lines.length < 2 ^ 31 := by
  refine ⟨fun h => ?_, fun h => partitions_of_dvd hlines h.1 h.2.1 h.2.2⟩
  obtain ⟨q, hq, hper⟩ := h.exists_linesPerPiece hsize
  have hle := h.size_le hsize
  -- the last line is in the piece of a task
  have hpos := List.length_pos_iff.mpr hlines
  have hmem : (lines[lines.length - 1], lines.length - 1) ∈ lines.zipIdx := by
    rw [List.mk_mem_zipIdx_iff_getElem?]
    exact List.getElem?_eq_getElem _
  obtain ⟨i, ⟨hi, piece, hpiece, hin⟩, -⟩ := h.sent_once _ hmem
  rw [openedPiece_eq hq hper (by omega)] at hpiece
  split at hpiece
  next =>
    obtain rfl := Option.some.inj hpiece
    have hhigh : lines.length - 1 < i * q + q := (mem_piece_iff.mp hin).2.2
    have hcover : lines.length ≤ size * q := by
      have hmul : (i + 1) * q ≤ size * q := Nat.mul_le_mul_right q hi
      rw [Nat.succ_mul] at hmul
      omega
    -- and the pieces of all tasks have at most as many lines as were counted
    have hcount : (size * q : ℕ) ≤ atoi lines.length := by
      rw [linesPerPiece] at hper
      rw [Nat.cast_mul, ← hper]
      exact Int.mul_ediv_self_le (by omega)
    have hatoi := atoi_le lines.length
    have hexact : lines.length = size * q := by omega
    exact ⟨⟨q, hexact⟩, hle, (atoi_eq_iff _).mp (by omega)⟩
  next => cases hpiece

/-- Six lines for three clients. -/
theorem partitions_sixLines : Partitions [10, 20, 30, 40, 50, 60] 3 :=
  (partitions_iff [10, 20, 30, 40, 50, 60] 3 (by decide) (by decide)).mpr
    ⟨by decide, by decide, by decide⟩

/-- Five lines for two clients make three pieces, and no task opens the third. -/
theorem not_partitions_fiveLines : ¬ Partitions [10, 20, 30, 40, 50] 2 := by
  intro h
  have hper : linesPerPiece [10, 20, 30, 40, 50] 2 = (2 : ℕ) := by decide
  obtain ⟨i, ⟨hi, piece, hpiece, hin⟩, -⟩ := h.sent_once (50, 4) (by decide)
  rw [openedPiece_eq (by decide) hper (by omega)] at hpiece
  split at hpiece
  next =>
    obtain rfl := Option.some.inj hpiece
    have hhigh : 4 < i * 2 + 2 := (mem_piece_iff.mp hin).2.2
    omega
  next => cases hpiece

end Multicast
