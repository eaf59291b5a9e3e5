import Multicast.Lib.StepRun
import Multicast.Lib.Tally
import Multicast.Server.State

/-!
# Whose results complete a job

A job is complete when its result file has as many lines as clients were assigned to it.
The lines do not say who sent them, so that one client that sends its result twice stands
for another that sent none.

As long as the count has not been reached nothing can go wrong, and when it is reached
only the results that were counted matter: everybody has sent a result exactly if no two
of them came from one client and all of them came from assigned ones. A file that has too
many lines already when the job gets its clients never has the right number.

## Main definitions

* `Multicast.Results.Message`, `step` — results arrive
* `InProgress` — a job in progress and its clients
* `EverybodySent` — a complete job has a result of each of its clients
* `FirstFromEach` — the condition on the messages

## Main results

* `Inv.step` — when the job is complete, said by the number of results
* `everybodySent_along_iff` — the runs along which complete jobs have all results
* `not_everybodySent_twice` — a run along which one has not
-/

set_option autoImplicit false

namespace Multicast.Results

open StepRun

/-! ### Runs -/

/-- A `RESULT`, with the descriptor that it comes from. -/
structure Message where
  clientSocketFd : ℤ
  value : ℤ
  jobId : ℤ

/-- The server, and the results that were handled so far: who sent them, for which job. -/
structure Inbox extends Server where
  sent : List (ℤ × ℤ)

/-- One step: a result for a job of the list is handled. -/
def step (lib : MinMax) (m : Message) (s : Inbox) : Option Inbox :=
  if (jobWithId s.jobList m.jobId).isSome then
    (s.handleResult lib m.clientSocketFd m.value m.jobId).map fun server =>
      { toServer := server, sent := s.sent ++ [(m.clientSocketFd, m.jobId)] }
  else none

/-! ### The property and the condition -/

/-- The descriptors from which results for a job came, in their order. -/
def sendersOf (j : ℤ) (sent : List (ℤ × ℤ)) : List ℤ :=
  (sent.filter fun result => result.2 = j).map Prod.fst

/-- What a message adds to the results that were handled. -/
def Message.entry (m : Message) : ℤ × ℤ := (m.clientSocketFd, m.jobId)

/-- A job is in progress with different clients. Its file has a line for each result that
was sent before, be it before the job got its clients. -/
structure InProgress (j : ℤ) (assigned : List ℤ) (s : Inbox) : Prop where
  job : ∃ job, jobWithId s.jobList j = some job ∧ job.status = .inProgress ∧
    job.numberOfClients = assigned.length
  nodup : assigned.Nodup
  file : (s.resultFiles j).length = (sendersOf j s.sent).length

/-- If the job is complete, every client that was assigned to it has sent a result. -/
def EverybodySent (j : ℤ) (assigned : List ℤ) (s : Inbox) : Prop :=
  (∃ job, jobWithId s.jobList j = some job ∧ job.status = .complete) →
    ∀ fd ∈ assigned, fd ∈ sendersOf j s.sent

/-- The condition on the messages. Of the results for the job, those that came before and
those that come now, the first ones, as many as clients are assigned, come from different
clients, all of them assigned; unless there are fewer, or too many came before. -/
def FirstFromEach (j : ℤ) (assigned : List ℤ) (before : List (ℤ × ℤ)) (as : List Message) :
    Prop :=
  let senders := sendersOf j (before ++ as.map Message.entry)
  assigned.length ≤ (sendersOf j before).length ∨ senders.length < assigned.length ∨
    (senders.take assigned.length).Nodup ∧ ∀ fd ∈ senders.take assigned.length, fd ∈ assigned

instance (j : ℤ) (assigned : List ℤ) (before : List (ℤ × ℤ)) (as : List Message) :
    Decidable (FirstFromEach j assigned before as) :=
  inferInstanceAs (Decidable (_ ∨ _ ∨ _ ∧ _))

/-- The invariant, for a job with `n` clients of which `k` results came before it got them.
The job is complete exactly if these were not enough, and there are enough now. -/
structure Inv (j : ℤ) (n k : ℕ) (s : Inbox) : Prop where
  job : ∃ job, jobWithId s.jobList j = some job ∧ job.numberOfClients = n ∧
    (job.status = .complete ↔ k < n ∧ n ≤ (sendersOf j s.sent).length)
  file : (s.resultFiles j).length = (sendersOf j s.sent).length
  before : k ≤ (sendersOf j s.sent).length

variable {lib : MinMax} {j : ℤ} {assigned : List ℤ} {s s' : Inbox} {as : List Message}
variable {n k : ℕ} {m : Message}

/-! ### One result -/

theorem sendersOf_append (sent sent' : List (ℤ × ℤ)) :
    sendersOf j (sent ++ sent') = sendersOf j sent ++ sendersOf j sent' := by
  rw [sendersOf, List.filter_append, List.map_append]
  rfl

theorem sendersOf_entry_of_eq (h : m.jobId = j) :
    sendersOf j [m.entry] = [m.clientSocketFd] := by
  simp [sendersOf, Message.entry, h]

theorem sendersOf_entry_of_ne (h : m.jobId ≠ j) : sendersOf j [m.entry] = [] := by
  simp [sendersOf, Message.entry, h]

/-- What handling a result for a listed job does to files and jobs. -/
theorem eq_of_step (hstep : step lib m s = some s') :
    ∃ found result, jobWithId s.jobList m.jobId = some found ∧
      s'.sent = s.sent ++ [m.entry] ∧
      s'.resultFiles = Function.update s.resultFiles m.jobId
        (s.resultFiles m.jobId ++ [m.value]) ∧
      s'.jobList =
        if found.numberOfClients = (s.resultFiles m.jobId).length + 1 then
          assignFields (Job.completed result) m.jobId s.jobList
        else s.jobList := by
  rw [step] at hstep
  split at hstep
  next hlisted =>
    obtain ⟨found, hfound⟩ := Option.isSome_iff_exists.mp hlisted
    obtain ⟨server, hresult, rfl⟩ := Option.map_eq_some_iff.mp hstep
    obtain ⟨time, htime, hcases⟩ := Server.eq_of_handleResult hresult
    rw [timeToComputeFinalResult, lookupJob_eq_some hfound, Option.some.injEq] at htime
    -- the list of the jobs is written only when the last result came
    rcases hcases with ⟨rfl, rfl⟩ | ⟨rfl, groupId, result, rfl⟩
    · refine ⟨found, 0, hfound, rfl, rfl, ?_⟩
      rw [if_neg (of_decide_eq_false htime)]
      rfl
    · refine ⟨found, result, hfound, rfl, rfl, ?_⟩
      rw [if_pos (of_decide_eq_true htime)]
  next => cases hstep

/-- A result keeps the invariant. -/
theorem Inv.step (h : Inv j n k s) (hstep : step lib m s = some s') : Inv j n k s' := by
  obtain ⟨found, result, hfound, hsent, hfiles, hjobs⟩ := eq_of_step hstep
  obtain ⟨job, hjob, hclients, hcomplete⟩ := h.job
  have hfile := h.file
  have hbefore := h.before
  have hsenders : sendersOf j s'.sent = sendersOf j s.sent ++ sendersOf j [m.entry] := by
    rw [hsent, sendersOf_append]
  by_cases hj : m.jobId = j
  · -- the file gets a line, and the job may be complete now
    rw [sendersOf_entry_of_eq hj] at hsenders
    rw [hj, hjob, Option.some.injEq] at hfound
    subst hfound
    have hlength := congrArg List.length hsenders
    rw [List.length_append, List.length_singleton] at hlength
    refine ⟨?_, ?_, by omega⟩
    · rw [hjobs, hj]
      split
      next hcount =>
        refine ⟨job.completed result, ?_, hclients, iff_of_true rfl ?_⟩
        · rw [jobWithId_completed, if_pos rfl, hjob, Option.map_some]
        · omega
      next hcount =>
        refine ⟨job, hjob, hclients, hcomplete.trans ?_⟩
        omega
    · rw [hfiles, hj, Function.update_self, List.length_append, List.length_singleton]
      omega
  · -- the result is for another job
    rw [sendersOf_entry_of_ne hj, List.append_nil] at hsenders
    refine ⟨⟨job, ?_, hclients, hsenders ▸ hcomplete⟩, ?_, hsenders ▸ hbefore⟩
    · rw [hjobs]
      split
      · rw [jobWithId_completed, if_neg (Ne.symm hj), hjob]
      · exact hjob
    · rw [hfiles, Function.update_of_ne (Ne.symm hj), hsenders, hfile]

/-! ### Runs -/

theorem InProgress.inv (h : InProgress j assigned s) :
    Inv j assigned.length (sendersOf j s.sent).length s := by
  obtain ⟨job, hjob, hstatus, hclients⟩ := h.job
  refine ⟨⟨job, hjob, hclients, iff_of_false ?_ (by omega)⟩, h.file, Nat.le_refl _⟩
  rw [hstatus]
  exact JobStatus.noConfusion

theorem sent_of_run (hrun : run (step lib) as s = some s') :
    s'.sent = s.sent ++ as.map Message.entry := by
  induction as generalizing s with
  | nil =>
    obtain rfl := Option.some.inj hrun
    simp
  | cons m as ih =>
    obtain ⟨s₁, hstep, hrest⟩ := run_cons_eq_some.mp hrun
    obtain ⟨-, -, -, hsent, -⟩ := eq_of_step hstep
    rw [ih hrest, hsent, List.map_cons, List.append_assoc, List.singleton_append]

/-- Whether everybody has sent a result matters when the job is complete. -/
theorem Inv.everybodySent_iff (h : Inv j n k s) : EverybodySent j assigned s ↔
    (k < n → n ≤ (sendersOf j s.sent).length → ∀ fd ∈ assigned, fd ∈ sendersOf j s.sent) := by
  obtain ⟨job, hjob, -, hcomplete⟩ := h.job
  rw [EverybodySent, hjob]
  simp only [Option.some.injEq, exists_eq_left', hcomplete, and_imp]

/-- The results come one by one, so that there is a moment at which there are `n` of them. -/
theorem exists_front_length_sendersOf {before : List (ℤ × ℤ)}
    (hbefore : (sendersOf j before).length ≤ n)
    (hn : n ≤ (sendersOf j (before ++ as.map Message.entry)).length) :
    ∃ front back, as = front ++ back ∧
      (sendersOf j (before ++ front.map Message.entry)).length = n := by
  have hlength (as : List Message) : (sendersOf j (before ++ as.map Message.entry)).length =
      (sendersOf j before).length + (as.filter fun m => m.jobId = j).length := by
    rw [sendersOf_append, List.length_append, sendersOf, sendersOf, List.filter_map,
      List.length_map, List.length_map, List.length_map]
    rfl
  rw [hlength] at hn
  obtain ⟨front, back, rfl, hfront⟩ :=
    Tally.exists_prefix_length_filter (n := n - (sendersOf j before).length)
      (fun m : Message => m.jobId = j) as (by omega)
  exact ⟨front, back, rfl, by rw [hlength, hfront]; omega⟩

/-- The results up to some message are the first ones of all. -/
theorem take_sendersOf_append {before : List (ℤ × ℤ)} {front back : List Message}
    (hn : n ≤ (sendersOf j (before ++ front.map Message.entry)).length) :
    (sendersOf j (before ++ (front ++ back).map Message.entry)).take n =
      (sendersOf j (before ++ front.map Message.entry)).take n := by
  rw [List.map_append, ← List.append_assoc, sendersOf_append,
    List.take_append_of_le_length hn]

/-- Complete jobs have all results along a run if and only if the first results for the job,
as many as it has clients, come one from each of them, or there are fewer, or too many came
before. -/
theorem everybodySent_along_iff (lib : MinMax) (j : ℤ) (assigned : List ℤ) (s s' : Inbox)
    (as : List Message) (h : InProgress j assigned s)
    (hrun : run (step lib) as s = some s') :
    Along (step lib) (EverybodySent j assigned) as s ↔ FirstFromEach j assigned s.sent as := by
  refine along_iff_forall_prefix.trans ?_
  rw [FirstFromEach]
  constructor
  · intro hall
    by_cases hk : assigned.length ≤ (sendersOf j s.sent).length
    · exact .inl hk
    by_cases hn : assigned.length ≤ (sendersOf j (s.sent ++ as.map Message.entry)).length
    swap
    · exact .inr (.inl (by omega))
    -- the job is complete in the state after the results that were counted
    obtain ⟨front, back, rfl, hcount⟩ := exists_front_length_sendersOf (by omega) hn
    rw [run_append] at hrun
    obtain ⟨s₁, hfront, -⟩ := Option.bind_eq_some_iff.mp hrun
    have hsent := hall front back s₁ rfl hfront
    rw [(run_invariant (fun _ _ _ => Inv.step) hfront h.inv).everybodySent_iff,
      sent_of_run hfront] at hsent
    have hcovers := hsent (by omega) (by omega)
    refine .inr (.inr ?_)
    rw [take_sendersOf_append (Nat.le_of_eq hcount.symm), ← hcount, List.take_length]
    exact (Tally.covers_iff_of_length_eq h.nodup hcount).mp hcovers
  · rintro hfirst front back s₁ rfl hfront
    rw [(run_invariant (fun _ _ _ => Inv.step) hfront h.inv).everybodySent_iff, sent_of_run hfront]
    intro hk hn fd hfd
    rcases hfirst with hmany | hfew | hfirst
    · omega
    · rw [List.map_append, ← List.append_assoc, sendersOf_append, List.length_append] at hfew
      omega
    · -- the results that were counted are among those that were sent
      rw [take_sendersOf_append hn] at hfirst
      have hlength : ((sendersOf j (s.sent ++ front.map Message.entry)).take
          assigned.length).length = assigned.length := List.length_take_of_le hn
      exact List.mem_of_mem_take
        ((Tally.covers_iff_of_length_eq h.nodup hlength).mpr hfirst fd hfd)

/-- Two clients of group 3, found free by the handler of the first job. -/
def twoClients : Inbox :=
  let s := (initialServer.handleGroupIdRegs 0 5 [3]).handleGroupIdRegs 0 6 [3]
  { toServer := ((s.jobAddition jobMin).2.groupHandler 3).getD s, sent := [] }

theorem inProgress_twoClients : InProgress 1 [6, 5] twoClients where
  job := ⟨⟨1, jobMin, 3, 2, .inProgress, -1⟩, by decide +kernel, rfl, rfl⟩
  nodup := by decide
  file := by decide +kernel

/-- Both clients send their results. -/
theorem everybodySent_along_twoClients :
    Along (step listMinMax) (EverybodySent 1 [6, 5]) [⟨5, 7, 1⟩, ⟨6, 9, 1⟩] twoClients := by
  have hrun : (run (step listMinMax) [⟨5, 7, 1⟩, ⟨6, 9, 1⟩] twoClients).isSome := by
    decide +kernel
  obtain ⟨s', hs'⟩ := Option.isSome_iff_exists.mp hrun
  exact (everybodySent_along_iff listMinMax 1 [6, 5] twoClients s' _ inProgress_twoClients
    hs').mpr (by decide +kernel)

/-- One client sends its result twice, and the job is complete without the other. -/
theorem not_everybodySent_twice :
    ∃ s, run (step listMinMax) [⟨5, 7, 1⟩, ⟨5, 7, 1⟩] twoClients = some s ∧
      ¬ EverybodySent 1 [6, 5] s := by
  have hrun : (run (step listMinMax) [⟨5, 7, 1⟩, ⟨5, 7, 1⟩] twoClients).map
      (fun s => ((jobWithId s.jobList 1).map Job.status, sendersOf 1 s.sent)) =
        some (some .complete, [5, 5]) := by decide +kernel
  obtain ⟨s, hs, heq⟩ := Option.map_eq_some_iff.mp hrun
  obtain ⟨hstatus, hsenders⟩ := Prod.mk.inj heq
  obtain ⟨job, hjob, hcomplete⟩ := Option.map_eq_some_iff.mp hstatus
  refine ⟨s, hs, fun h => ?_⟩
  have hsent := h ⟨job, hjob, hcomplete⟩ 6 List.mem_cons_self
  rw [hsenders] at hsent
  exact absurd hsent (by decide)

end Multicast.Results
