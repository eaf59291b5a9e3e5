import Multicast.Lib.Extrema
import Multicast.Lib.Potential
import Multicast.Server.Completion
import Multicast.Transfer.Split

/-!
# The answer of a job

The input of a job goes to its clients piece by piece, each client returns the extremum of its
piece, and the server takes the extremum of what is returned. The results are handled on
threads that interleave with each other and with everything else that the server does.

The job can be completed from every state, and when it is complete its result is the extremum
of the input, as far as the pieces of the tasks reach. The division of the lines drops a
remainder; with none, that is the whole input.

## Main definitions

* `TaskResults` — the results of the tasks, in the order in which they arrive
* `answered` — the lines that are in the piece of a task
* `Threads.remaining` — how many calls the threads make at most

## Main results

* `openedPiece_eq_run` — the pieces are runs of the input
* `TaskResults.answered_eq` — the lines that are answered are those of the opened pieces
* `TaskResults.isResult` — the extremum of the results is that of the lines
* `exists_run_finished` — the threads come to an end
* `answer_of_run` — the answer of the job
-/

set_option autoImplicit false

namespace Multicast.Completion

open StepRun Extrema

variable {lib : MinMax} {j operation result : ℤ} {results numbers : List ℤ} {size i : ℕ}
variable {s s' s₀ : Threads} {t : ResultHandler} {pc : Pc} {k : ℕ} {as : List Action}

/-! ### The results of the tasks -/

/-- Each task has the result of the operation on the piece that it opens. The results arrive in
some order. -/
def TaskResults (operation : ℤ) (numbers : List ℤ) (size : ℕ) (results : List ℤ) : Prop :=
  ∃ inOrder : List ℤ, results.Perm inOrder ∧
    List.Forall₂ (fun i result => ∃ piece, openedPiece numbers size i = some piece ∧
      IsResult operation piece result) (List.range size) inOrder

/-- The lines in the pieces of the tasks. -/
def answered (numbers : List ℤ) (size : ℕ) : List ℤ :=
  numbers.take (size * (numbers.length / size))

/-- With an exact division these are all lines. -/
theorem answered_of_dvd (h : size ∣ numbers.length) : answered numbers size = numbers := by
  rw [answered, Nat.mul_div_cancel' h, List.take_length]

theorem linesPerPiece_eq (hint : numbers.length < 2 ^ 31) :
    linesPerPiece numbers size = (numbers.length / size : ℕ) := by
  rw [linesPerPiece, (atoi_eq_iff _).mpr hint, Int.natCast_div]

/-- A task that finds its piece finds its run of the input. -/
theorem openedPiece_eq_run {piece : List ℤ} (hint : numbers.length < 2 ^ 31) (hi : i < 10 ^ 6)
    (h : openedPiece numbers size i = some piece) :
    piece = (numbers.drop (i * (numbers.length / size))).take (numbers.length / size) := by
  rw [openedPiece, linesPerPiece_eq hint, taskSuffix_eq_suffix hi, openPiece_suffix] at h
  rcases Nat.eq_zero_or_pos (numbers.length / size) with hq | hq
  · -- the command fails, and there is no piece
    rw [hq] at h
    cases h
  · rw [getElem?_split hq] at h
    split at h
    next => exact (Option.some.inj h).symm
    next => cases h

/-- Results of results are results. -/
theorem isResult_flatten {pieces : List (List ℤ)}
    (h : List.Forall₂ (IsResult operation) pieces results)
    (hresult : IsResult operation results result) : IsResult operation pieces.flatten result := by
  constructor
  · intro hmin
    have hpieces : List.Forall₂ (Extremum (· ≤ ·)) pieces results :=
      h.imp fun piece m hm => minimum_eq_iff.mp (hm.1 hmin)
    exact minimum_eq_iff.mpr ((minimum_eq_iff.mp (hresult.1 hmin)).flatten hpieces)
  · intro hmax
    have hpieces : List.Forall₂ (Extremum (· ≥ ·)) pieces results :=
      h.imp fun piece m hm => maximum_eq_iff.mp (hm.2 hmax)
    exact maximum_eq_iff.mpr ((maximum_eq_iff.mp (hresult.2 hmax)).flatten hpieces)

/-- The runs of the input, one for each task. -/
def pieceRuns (numbers : List ℤ) (size : ℕ) : List (List ℤ) :=
  (List.range size).map fun i =>
    (numbers.drop (i * (numbers.length / size))).take (numbers.length / size)

theorem flatten_pieceRuns : (pieceRuns numbers size).flatten = answered numbers size :=
  flatten_runs ..

/-- Each task opens its run, and returns a result of it. -/
theorem TaskResults.opened (h : TaskResults operation numbers size results)
    (hnames : size ≤ 10 ^ 6) (hint : numbers.length < 2 ^ 31) :
    ∃ inOrder : List ℤ, results.Perm inOrder ∧
      List.Forall₂ (fun i piece => openedPiece numbers size i = some piece) (List.range size)
        (pieceRuns numbers size) ∧
      List.Forall₂ (IsResult operation) (pieceRuns numbers size) inOrder := by
  obtain ⟨inOrder, hperm, htasks⟩ := h
  have hopened (i : ℕ) (hi : i < size) : ∃ piece result, openedPiece numbers size i = some piece ∧
      piece = (numbers.drop (i * (numbers.length / size))).take (numbers.length / size) ∧
      inOrder[i]? = some result ∧ IsResult operation piece result := by
    have hk : i < (List.range size).length := by rwa [List.length_range]
    have hk' : i < inOrder.length := htasks.length_eq ▸ hk
    obtain ⟨piece, hpiece, hresult⟩ := htasks.get hk hk'
    have hith : (List.range size).get ⟨i, hk⟩ = i := List.getElem_range hk
    rw [hith] at hpiece
    exact ⟨piece, _, hpiece, openedPiece_eq_run hint (hi.trans_le hnames) hpiece,
      List.getElem?_eq_getElem hk', hresult⟩
  refine ⟨inOrder, hperm, ?_, ?_⟩
  · rw [pieceRuns, List.forall₂_map_right_iff, List.forall₂_same]
    intro i hi
    obtain ⟨piece, -, hpiece, rfl, -⟩ := hopened i (List.mem_range.mp hi)
    exact hpiece
  · rw [pieceRuns, List.forall₂_map_left_iff, List.forall₂_iff_get]
    refine ⟨htasks.length_eq, fun k hk hk' => ?_⟩
    have hkth : (List.range size).get ⟨k, hk⟩ = k := List.getElem_range hk
    rw [List.length_range] at hk
    obtain ⟨piece, result, -, rfl, hkth', hresult⟩ := hopened k hk
    rw [hkth]
    obtain rfl := Option.some.inj ((List.getElem?_eq_getElem hk').symm.trans hkth')
    exact hresult

/-- The lines that are answered are those of the pieces that the tasks open. -/
theorem TaskResults.answered_eq (h : TaskResults operation numbers size results)
    (hnames : size ≤ 10 ^ 6) (hint : numbers.length < 2 ^ 31) :
    ∃ pieces, List.Forall₂ (fun i piece => openedPiece numbers size i = some piece)
      (List.range size) pieces ∧ answered numbers size = pieces.flatten := by
  obtain ⟨-, -, hopened, -⟩ := h.opened hnames hint
  exact ⟨_, hopened, flatten_pieceRuns.symm⟩

/-- A result of the results of the tasks is one of the lines in their pieces. -/
theorem TaskResults.isResult (h : TaskResults operation numbers size results)
    (hnames : size ≤ 10 ^ 6) (hint : numbers.length < 2 ^ 31)
    (hresult : IsResult operation results result) :
    IsResult operation (answered numbers size) result := by
  obtain ⟨inOrder, hperm, -, hpieces⟩ := h.opened hnames hint
  have hsorted : IsResult operation inOrder result :=
    ⟨fun hmin => hperm.minimum_eq ▸ hresult.1 hmin, fun hmax => hperm.maximum_eq ▸ hresult.2 hmax⟩
  rw [← flatten_pieceRuns]
  exact isResult_flatten hpieces hsorted

/-! ### The threads come to an end -/

/-- How many calls a thread makes at most from here on. -/
def Pc.remaining : Pc → ℕ
  | .append => 8
  | .freeClient => 7
  | .count => 6
  | .decide _ => 5
  | .getGroup => 4
  | .freeGroup _ => 3
  | .evaluate => 2
  | .complete _ => 1
  | .finished => 0

/-- How many calls the threads make at most. -/
def Threads.remaining (s : Threads) : ℕ := (s.handlers.map fun t => t.pc.remaining).sum

theorem Next.remaining_lt {server server' : Server} (h : Next lib t server server' pc) :
    pc.remaining < t.pc.remaining := by
  cases h with
  | decide numberOfResults time hpc htime =>
    rw [hpc]
    cases time with
    | false => exact Nat.zero_lt_succ _
    | true => exact Nat.lt_succ_self _
  | append hpc | freeClient hpc | count hpc | getGroup _ hpc | freeGroup _ hpc | evaluate _ hpc
  | complete _ hpc =>
    rw [hpc]
    exact Nat.lt_succ_self _

theorem remaining_step_lt (h : Completion.step lib j (.handler k) s = some s') :
    s'.remaining < s.remaining := by
  obtain ⟨t, hk, hrest⟩ := Option.bind_eq_some_iff.mp h
  obtain ⟨⟨server, pc⟩, hnext, rfl⟩ := Option.map_eq_some_iff.mp hrest
  obtain ⟨front, back, hsplit, hset⟩ := Threads.exists_set hk
  have hless := (next_cases hnext).remaining_lt
  change ((s.handlers.set k _).map fun t => t.pc.remaining).sum < _
  rw [hset, Threads.remaining, hsplit]
  simp only [List.map_append, List.map_cons, List.sum_append, List.sum_cons]
  omega

/-- The threads can go on until those of the job are finished. -/
theorem exists_run_finished (hlib : lib.Correct) (h : Inv j operation results s)
    (hoperation : operation = jobMin ∨ operation = jobMax) :
    ∃ bs s', (∀ b ∈ bs, ∃ k, b = .handler k) ∧ run (Completion.step lib j) bs s = some s' ∧
      Inv j operation results s' ∧ ∀ t ∈ s'.handlers, t.jobId = j → t.pc = .finished := by
  have hI (a : Action) (u u' : Threads) (hu : Inv j operation results u)
      (hstep : Completion.step lib j a u = some u') : Inv j operation results u' :=
    hu.step hlib hstep
  have hless (a : Action) (u u' : Threads) (_ : Inv j operation results u)
      (ha : ∃ k, a = .handler k) (hstep : Completion.step lib j a u = some u') :
      u'.remaining < u.remaining := by
    obtain ⟨k, rfl⟩ := ha
    exact remaining_step_lt hstep
  obtain ⟨bs, s', hown, hrun, hrest⟩ := exists_run_to_rest _ hI hless h
  have h' := run_invariant hI hrun h
  refine ⟨bs, s', hown, hrun, h', fun t ht hid => ?_⟩
  -- a thread of the job that is not finished could go on
  by_contra hpc
  obtain ⟨k, hk⟩ := List.mem_iff_getElem?.mp ht
  obtain ⟨s₁, hstep⟩ : ∃ s₁, Completion.step lib j (.handler k) s' = some s₁ :=
    h'.exists_step hoperation hk hid hpc
  exact absurd (hstep.symm.trans (hrest _ ⟨k, rfl⟩)) (Option.some_ne_none _)

/-! ### The answer -/

/-- When all threads of the job are finished, it is complete. -/
theorem Inv.exists_completed (h : Inv j operation results s)
    (hfinished : ∀ t ∈ s.handlers, t.jobId = j → t.pc = .finished) :
    ∃ job, jobWithId s.jobList j = some job ∧
      Completed operation results (s.resultFiles j) job := by
  obtain ⟨job, hjob, -, -, hdone | ⟨-, t, ht, hcompletes⟩⟩ := h.job
  · exact ⟨job, hjob, hdone⟩
  · -- a thread that is going to complete the job is not finished
    obtain ⟨hmem, hid⟩ := List.mem_filter.mp ht
    rw [hfinished t hmem (of_decide_eq_true hid)] at hcompletes
    exact hcompletes.elim

theorem Inv.completed_of_status (h : Inv j operation results s) {job : Job}
    (hjob : jobWithId s.jobList j = some job) (hstatus : job.status = .complete) :
    Completed operation results (s.resultFiles j) job := by
  obtain ⟨job', hjob', -, -, hdone | ⟨hprogress, -⟩⟩ := h.job
  · exact Option.some.inj (hjob'.symm.trans hjob) ▸ hdone
  · obtain rfl := Option.some.inj (hjob.symm.trans hjob')
    rw [hstatus] at hprogress
    cases hprogress

/-- The job is complete only with a result of the lines that were sent. -/
theorem Awaiting.isResult_of_run (hlib : lib.Correct) (h₀ : Awaiting j operation results s₀)
    (hresults : TaskResults operation numbers size results) (hnames : size ≤ 10 ^ 6)
    (hint : numbers.length < 2 ^ 31) (hrun : run (Completion.step lib j) as s₀ = some s)
    {job : Job} (hjob : jobWithId s.jobList j = some job) (hstatus : job.status = .complete) :
    IsResult operation (answered numbers size) job.result := by
  have h : Inv j operation results s :=
    run_invariant (fun _ _ _ hI hstep => hI.step hlib hstep) hrun h₀.inv
  exact hresults.isResult hnames hint (h.completed_of_status hjob hstatus).result

/-- From every state that is reached the threads can complete it. -/
theorem Awaiting.exists_run_completed (hlib : lib.Correct) (h₀ : Awaiting j operation results s₀)
    (hresults : TaskResults operation numbers size results) (hnames : size ≤ 10 ^ 6)
    (hint : numbers.length < 2 ^ 31) (hrun : run (Completion.step lib j) as s₀ = some s) :
    ∃ bs s', (∀ b ∈ bs, ∃ k, b = .handler k) ∧ run (Completion.step lib j) bs s = some s' ∧
      ∃ job, jobWithId s'.jobList j = some job ∧ job.status = .complete ∧
        IsResult operation (answered numbers size) job.result := by
  have h : Inv j operation results s :=
    run_invariant (fun _ _ _ hI hstep => hI.step hlib hstep) hrun h₀.inv
  obtain ⟨bs, s', hown, hrun', h', hfinished⟩ := exists_run_finished hlib h h₀.operation
  obtain ⟨job, hjob, hdone⟩ := h'.exists_completed hfinished
  exact ⟨bs, s', hown, hrun', job, hjob, hdone.status,
    hresults.isResult hnames hint hdone.result⟩

/-- **The answer of a job.** However the threads interleave, the job is complete only with the
minimum or the maximum of the lines in the pieces that the tasks opened, which are all lines if
the division is exact; and from every state that is reached the threads can go on until it is
complete. -/
theorem answer_of_run (hlib : lib.Correct) (h₀ : Awaiting j operation results s₀)
    (hresults : TaskResults operation numbers size results) (hnames : size ≤ 10 ^ 6)
    (hint : numbers.length < 2 ^ 31) (hrun : run (Completion.step lib j) as s₀ = some s) :
    (∃ pieces, List.Forall₂ (fun i piece => openedPiece numbers size i = some piece)
      (List.range size) pieces ∧ answered numbers size = pieces.flatten) ∧
    (size ∣ numbers.length → answered numbers size = numbers) ∧
    (∀ job, jobWithId s.jobList j = some job → job.status = .complete →
      IsResult operation (answered numbers size) job.result) ∧
    ∃ bs s', (∀ b ∈ bs, ∃ k, b = .handler k) ∧ run (Completion.step lib j) bs s = some s' ∧
      ∃ job, jobWithId s'.jobList j = some job ∧ job.status = .complete ∧
        IsResult operation (answered numbers size) job.result :=
  ⟨hresults.answered_eq hnames hint, answered_of_dvd,
    fun _ hjob hstatus => h₀.isResult_of_run hlib hresults hnames hint hrun hjob hstatus,
    h₀.exists_run_completed hlib hresults hnames hint hrun⟩

/-- Job 1 has two clients and four lines. -/
theorem answer_of_run_awaitingTwo :
    (∃ pieces, List.Forall₂ (fun i piece => openedPiece [9, 7, 4, 8] 2 i = some piece)
      (List.range 2) pieces ∧ answered [9, 7, 4, 8] 2 = pieces.flatten) ∧
    (2 ∣ [9, 7, 4, 8].length → answered [9, 7, 4, 8] 2 = [9, 7, 4, 8]) ∧
    (∀ job, jobWithId awaitingTwo.jobList 1 = some job → job.status = .complete →
      IsResult jobMin (answered [9, 7, 4, 8] 2) job.result) ∧
    ∃ bs s', (∀ b ∈ bs, ∃ k, b = .handler k) ∧
      run (Completion.step listMinMax 1) bs awaitingTwo = some s' ∧
      ∃ job, jobWithId s'.jobList 1 = some job ∧ job.status = .complete ∧
        IsResult jobMin (answered [9, 7, 4, 8] 2) job.result := by
  have hresults : TaskResults jobMin [9, 7, 4, 8] 2 [7, 4] := by
    refine ⟨[7, 4], .refl _, .cons ⟨[9, 7], by decide, ?_⟩ (.cons ⟨[4, 8], by decide, ?_⟩ .nil)⟩
    · exact ⟨fun _ => by decide, fun h => absurd h (by decide)⟩
    · exact ⟨fun _ => by decide, fun h => absurd h (by decide)⟩
  exact answer_of_run listMinMax_correct awaiting_awaitingTwo hresults (by decide) (by decide)
    (show run (Completion.step listMinMax 1) [] awaitingTwo = some awaitingTwo from rfl)

end Multicast.Completion
