import Multicast.Pool.Wait

/-!
# Jobs that return, jobs that end their threads, and jobs that hang

What a pool does depends on what becomes of its jobs. A call that waits for the pool can
return exactly if all jobs do. A job that neither returns nor ends its thread keeps the
thread, so that a pool of `n` threads can execute `n` of these, and starts no other job
after the last of them.

## Main definitions

* `Multicast.Pool.Ends` — which jobs may return, and which may end their threads
* `Outcomes` — what has become of the jobs

## Main results

* `returns_iff_of_obeys` — the call returns exactly if all jobs do
* `hanging_jobs_block` — jobs that hang block the pool
-/

set_option autoImplicit false

namespace Multicast.Pool

open StepRun

variable {τ : Type*} {n : ℕ} {pool pool' : ThreadPool τ n} {a : Action τ n}
variable {as : List (Action τ n)} {k : Fin n} {returns : τ → Bool}
variable {s s' : Waiting τ n} {b : Action τ n ⊕ Bool} {bs : List (Action τ n ⊕ Bool)}

/-! ### What becomes of a job -/

/-- A job that returns is one that may, and so is a job that ends its thread. -/
def Ends (mayReturn mayExit : τ → Prop) : Action τ n → ThreadPool τ n → Prop
  | .jobReturns k, pool => ∀ job, pool.threads k = .running job → mayReturn job
  | .jobExits k, pool => ∀ job, pool.threads k = .running job → mayExit job
  | _, _ => True

/-- A job that ended the thread is one that may. -/
def Thread.LostTo (mayExit : τ → Prop) (t : Thread τ) : Prop := ∀ job, t = .lost job → mayExit job

/-- The jobs that have returned are jobs that may, and so are those that ended threads. -/
structure Outcomes (mayReturn mayExit : τ → Prop) (pool : ThreadPool τ n) : Prop where
  returned : ∀ job ∈ pool.returned, mayReturn job
  lost : ∀ k, (pool.threads k).LostTo mayExit

variable {mayReturn mayExit : τ → Prop}

theorem outcomes_thpoolInit : Outcomes mayReturn mayExit (thpoolInit τ n) where
  returned _ h := absurd h List.not_mem_nil
  lost _ _ h := nomatch h

theorem Outcomes.step (h : Outcomes mayReturn mayExit pool) (ha : Ends mayReturn mayExit a pool)
    (hstep : step a pool = some pool') : Outcomes mayReturn mayExit pool' := by
  have hwake {woken : Finset (Fin n)} : ∀ k, (wake woken pool.threads k).LostTo mayExit :=
    forall_wake (Thread.LostTo mayExit) h.lost fun _ => nofun
  have hgoto {k : Fin n} {t : Thread τ} (ht : t.LostTo mayExit) :
      ∀ j, ((pool.goto k t).threads j).LostTo mayExit :=
    Crew.forall_update (Thread.LostTo mayExit) h.lost ht
  cases stepped_of_step hstep with
  | addWork => exact ⟨h.returned, hwake⟩
  | postAll => exact ⟨h.returned, hwake⟩
  | keepalive => exact ⟨h.returned, h.lost⟩
  | pull => exact ⟨h.returned, Crew.forall_update (Thread.LostTo mayExit) hwake fun _ => nofun⟩
  | jobReturns hk =>
    refine ⟨fun job hjob => ?_, hgoto fun _ => nofun⟩
    rcases List.mem_append.mp hjob with hjob | hjob
    · exact h.returned job hjob
    · obtain rfl := List.mem_singleton.mp hjob
      exact ha job hk
  | jobExits hk =>
    refine ⟨h.returned, hgoto fun job hjob => ?_⟩
    obtain rfl := Thread.lost.inj hjob
    exact ha _ hk
  | _ => exact ⟨h.returned, hgoto fun _ => nofun⟩

/-! ### Jobs that return -/

/-- The jobs that return are those that do so, and the others end their threads. -/
def Obeys (returns : τ → Bool) : Action τ n → ThreadPool τ n → Prop :=
  Ends (returns · = true) (returns · = false)

/-- The same, of the pool and a call that waits for it. -/
def WaitObeys (returns : τ → Bool) : Action τ n ⊕ Bool → Waiting τ n → Prop
  | .inl a, s => Obeys returns a s.pool
  | .inr _, _ => True

theorem Outcomes.waitStep (h : Outcomes (returns · = true) (returns · = false) s.pool)
    (hb : WaitObeys returns b s) (hstep : Multicast.Pool.waitStep b s = some s') :
    Outcomes (returns · = true) (returns · = false) s'.pool := by
  rcases waitStep_cases hstep with ⟨a, pool', rfl, hpool, rfl⟩ | ⟨expired, w', rfl, -, rfl⟩
  · exact h.step hb hpool
  · exact h

/-- A job that a thread has was added. -/
theorem Inv.mem_started {job : τ} (h : Inv pool) (hjob : job ∈ (pool.threads k).jobs) :
    job ∈ pool.started := by
  have hmem : job ∈ (pool.started : Multiset τ) := by
    rw [h.jobs]
    exact Multiset.mem_add.mpr (.inr (Multiset.mem_sum.mpr ⟨k, Finset.mem_univ k, hjob⟩))
  exact Multiset.mem_coe.mp hmem

theorem Action.added_of_isOwn (h : a.isOwn = true) : a.added = [] := by
  cases a with
  | addWork => exact absurd h Bool.false_ne_true
  | _ => rfl

theorem addedBy_of_quiet (h : Quiet b) : addedBy b = [] := by
  rcases b with a | expired
  · exact a.added_of_isOwn h.1
  · rfl

/-- As long as all jobs return, a step in which no thread is ended is what it should be. -/
theorem waitObeys_of_quiet (hinv : Inv s.pool) (hb : Quiet b)
    (hall : ∀ job ∈ s.pool.started ++ s.pool.jobqueue, returns job = true) :
    WaitObeys returns b s := by
  rcases b with a | expired
  · cases a with
    | jobReturns k =>
      intro job hk
      have hjob : job ∈ s.pool.started :=
        hinv.mem_started (k := k) (hk ▸ Multiset.mem_singleton_self job)
      exact hall job (List.mem_append_left _ hjob)
    | jobExits k => exact absurd rfl (hb.2 k)
    | _ => trivial
  · trivial

/-- A call of `thpool_wait` can return exactly if all jobs do. -/
theorem returns_iff_of_obeys (hn : 0 < n) (h : run step as (thpoolInit τ n) = some pool)
    (hkeep : ∀ a ∈ as, a.clears = false) (hobeys : Meets step (Obeys returns) as (thpoolInit τ n)) :
    (∃ bs pool', (∀ b ∈ bs, addedBy b = []) ∧
        Meets waitStep (WaitObeys returns) bs ⟨pool, .testTime⟩ ∧
          run waitStep bs ⟨pool, .testTime⟩ = some ⟨pool', .returned⟩) ↔
      ∀ job ∈ as.flatMap Action.added, returns job = true := by
  have hinv := inv_thpoolInit.run h
  have houtcomes : Outcomes (returns · = true) (returns · = false) pool :=
    hobeys.run_invariant (fun _ _ _ h ha hstep => h.step ha hstep) h outcomes_thpoolInit
  rw [← started_append_of_run h]
  constructor
  · rintro ⟨bs, pool', hadds, hmeets, hwait⟩ job hjob
    have hend : Outcomes (returns · = true) (returns · = false) pool' :=
      hmeets.run_invariant (I := fun s => Outcomes (returns · = true) (returns · = false) s.pool)
        (fun _ _ _ h hb hstep => h.waitStep hb hstep) hwait houtcomes
    exact hend.returned job ((perm_returned_of_wait hinv hadds hwait).mem_iff.mp hjob)
  · intro hall
    -- no job has ended a thread
    have hnone (k : Fin n) : (pool.threads k).isLost = false := by
      cases hk : pool.threads k with
      | lost job =>
        have hjob : job ∈ pool.started := hinv.mem_started (k := k) (by simp [hk, Thread.jobs])
        have hfalse : returns job = false := houtcomes.lost k job hk
        rw [hall job (List.mem_append_left _ hjob)] at hfalse
        exact absurd hfalse.symm Bool.false_ne_true
      | _ => rfl
    obtain ⟨bs, pool', hquiet, hwait⟩ := exists_wait_returned hn hinv (awake_of_run h hkeep) hnone
    refine ⟨bs, pool', fun b hb => addedBy_of_quiet (hquiet b hb), ?_, hwait⟩
    refine Meets.of_invariant (I := fun s => Inv s.pool ∧
      ∀ job ∈ s.pool.started ++ s.pool.jobqueue, returns job = true) (fun b s s' hI hb hstep => ?_)
      (fun b s hI hb => waitObeys_of_quiet hI.1 hb hI.2) hquiet ⟨hinv, hall⟩
    rw [log_waitStep hstep, addedBy_of_quiet hb, List.append_nil]
    rcases waitStep_cases hstep with ⟨a, pool', rfl, hpool, rfl⟩ | ⟨expired, w', rfl, -, rfl⟩
    · exact ⟨hI.1.step hpool, hI.2⟩
    · exact hI

/-! ### Jobs that hang -/

/-- The jobs that hang neither return nor end their threads. -/
def Stays (hangs : τ → Bool) : Action τ n → ThreadPool τ n → Prop :=
  Ends (hangs · = false) (hangs · = false)

/-- Each thread has a job that hangs. -/
def Blocked (hangs : τ → Bool) (pool : ThreadPool τ n) : Prop :=
  ∀ k, ∃ job, pool.threads k = .running job ∧ hangs job = true

variable {hangs : τ → Bool}

/-- How many jobs that hang a thread has. -/
def Thread.hanging (hangs : τ → Bool) (t : Thread τ) : ℕ := t.jobs.countP (hangs · = true)

theorem Thread.hanging_le_one (hangs : τ → Bool) (t : Thread τ) : t.hanging hangs ≤ 1 := by
  refine (Multiset.countP_le_card _ _).trans ?_
  cases t <;> simp [Thread.jobs]

/-- The jobs that hang and were started are with the threads. -/
theorem countP_started (h : Outcomes (hangs · = false) mayExit pool) (hinv : Inv pool) :
    pool.started.countP hangs = ∑ k, (pool.threads k).hanging hangs := by
  have hcount := congrArg (Multiset.countP (hangs · = true)) hinv.jobs
  have hreturned : Multiset.countP (hangs · = true) (pool.returned : Multiset τ) = 0 := by
    refine Multiset.countP_eq_zero.mpr fun job hjob htrue => ?_
    have hfalse : hangs job = false := h.returned job (Multiset.mem_coe.mp hjob)
    exact Bool.false_ne_true (hfalse.symm.trans htrue)
  rw [Multiset.countP_add, hreturned, zero_add, Multiset.coe_countP] at hcount
  simp only [Bool.decide_eq_true] at hcount
  rw [hcount]
  exact map_sum (Multiset.countPAddMonoidHom (hangs · = true)) ..

/-- With as many jobs that hang as threads, each thread has one. -/
theorem blocked_of_countP_eq (h : Outcomes (hangs · = false) (hangs · = false) pool)
    (hinv : Inv pool) (hcount : pool.started.countP hangs = n) : Blocked hangs pool := by
  have hsum : ∑ k, (pool.threads k).hanging hangs = ∑ _k : Fin n, 1 := by
    rw [← countP_started h hinv, hcount]
    simp
  have hall := (Finset.sum_eq_sum_iff_of_le fun k _ =>
    Thread.hanging_le_one hangs (pool.threads k)).mp hsum
  intro k
  have hone := hall k (Finset.mem_univ k)
  obtain ⟨job, hjob, htrue⟩ := Multiset.countP_pos.mp (hone ▸ Nat.zero_lt_one)
  cases hk : pool.threads k with
  | running job' =>
    obtain rfl := Multiset.mem_singleton.mp (hk ▸ hjob)
    exact ⟨job, rfl, htrue⟩
  | lost job' =>
    obtain rfl := Multiset.mem_singleton.mp (hk ▸ hjob)
    have hfalse : hangs job = false := h.lost k job hk
    exact absurd (hfalse.symm.trans htrue) Bool.false_ne_true
  | _ => simp [hk, Thread.jobs] at hjob

/-- A pool whose threads are all blocked starts no job. -/
theorem Blocked.step (h : Blocked hangs pool) (ha : Stays hangs a pool)
    (hstep : step a pool = some pool') : Blocked hangs pool' ∧ pool'.started = pool.started := by
  have hnone {k : Fin n} {t : Thread τ} (hk : pool.threads k = t) (ht : t.jobs = 0) : False := by
    obtain ⟨job, hjob, -⟩ := h k
    rw [← hk, hjob] at ht
    exact Multiset.singleton_ne_zero job ht
  have hwake {woken : Finset (Fin n)} (hwoken : CanWake woken pool.threads) (k : Fin n) :
      ∃ job, wake woken pool.threads k = .running job ∧ hangs job = true := by
    rw [wake, Finset.piecewise_eq_of_notMem _ _ _ fun hmem => hnone (hwoken.asleep k hmem) rfl]
    exact h k
  cases stepped_of_step hstep with
  | addWork hwoken => exact ⟨hwake hwoken, rfl⟩
  | postAll => exact ⟨hwake (canWake_filter pool.threads), rfl⟩
  | keepalive => exact ⟨h, rfl⟩
  | @jobReturns k job hk =>
    obtain ⟨job', hjob, htrue⟩ := h k
    have hfalse : hangs job' = false := ha job' hjob
    exact absurd (hfalse.symm.trans htrue) Bool.false_ne_true
  | @jobExits k job hk =>
    obtain ⟨job', hjob, htrue⟩ := h k
    have hfalse : hangs job' = false := ha job' hjob
    exact absurd (hfalse.symm.trans htrue) Bool.false_ne_true
  | _ => exact (hnone ‹_› rfl).elim

/-- **Jobs that hang block the pool.** At most as many of them as there are threads are
started, and after the last of them no job is started any more. -/
theorem hanging_jobs_block (h : run step as (thpoolInit τ n) = some pool)
    (hstays : Meets step (Stays hangs) as (thpoolInit τ n)) :
    pool.started.countP hangs ≤ n ∧ (pool.started.countP hangs = n →
      ∀ bs pool', Meets step (Stays hangs) bs pool → run step bs pool = some pool' →
        pool'.started = pool.started) := by
  have hinv := inv_thpoolInit.run h
  have houtcomes : Outcomes (hangs · = false) (hangs · = false) pool :=
    hstays.run_invariant (fun _ _ _ h ha hstep => h.step ha hstep) h outcomes_thpoolInit
  constructor
  · rw [countP_started houtcomes hinv]
    calc ∑ k, (pool.threads k).hanging hangs
        ≤ ∑ _k : Fin n, 1 := Finset.sum_le_sum fun k _ => Thread.hanging_le_one hangs _
      _ = n := by simp
  · intro hcount bs pool' hmeets hrun
    have hblocked : Blocked hangs pool' ∧ pool'.started = pool.started :=
      hmeets.run_invariant (I := fun s => Blocked hangs s ∧ s.started = pool.started)
        (fun a s s' h ha hstep => ⟨(h.1.step ha hstep).1, (h.1.step ha hstep).2.trans h.2⟩) hrun
        ⟨blocked_of_countP_eq houtcomes hinv hcount, rfl⟩
    exact hblocked.2

/-- The job that the only thread of a pool has taken hangs. -/
theorem hanging_jobs_block_oneJob : ∃ pool, run step (oneJob.take 8) (thpoolInit ℕ 1) = some pool ∧
    pool.started.countP (fun _ => true) ≤ 1 ∧ (pool.started.countP (fun _ => true) = 1 →
      ∀ bs pool', Meets step (Stays fun _ => true) bs pool → run step bs pool = some pool' →
        pool'.started = pool.started) :=
  ⟨_, rfl, @hanging_jobs_block _ _ _ (oneJob.take 8) _ rfl fun _ _ => ⟨trivial, fun _ _ =>
    ⟨trivial, fun _ _ => ⟨trivial, fun _ _ => ⟨trivial, fun _ _ => ⟨trivial, fun _ _ =>
      ⟨trivial, fun _ _ => ⟨trivial, fun _ _ => ⟨trivial, trivial⟩⟩⟩⟩⟩⟩⟩⟩⟩

end Multicast.Pool
