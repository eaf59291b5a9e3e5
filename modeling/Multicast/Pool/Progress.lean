import Mathlib.Algebra.BigOperators.Ring.Finset
import Multicast.Pool.ThreadPool

/-!
# Progress of the thread pool

As long as there is a job in the queue, and the flag that keeps the threads in their loops is
not cleared, the semaphore is set or some thread is on its way to the queue; and as long as
the semaphore is set while a thread sleeps, some thread is about to test it. So no wakeup is
lost: a job waits only for threads that are executing others, or were ended by them.

The pool does not spin. A job that is added makes it take at most `2 * n + 19` steps, and
then it rests until more is asked of it.

## Main definitions

* `Multicast.Pool.ThreadPool.potential` — how many steps the pool can take
* `Awake` — the invariant that rules out a lost wakeup

## Main results

* `own_steps_le` — the steps of a run are bounded by what was asked of the pool
* `idle_or_busy_of_run` — when no thread can go on, the queue is empty or each thread has a job
* `returned_of_rest` — at rest every job has returned, or each thread was ended by a job
* `exists_run_atRest` — the pool can always come to rest
-/

set_option autoImplicit false

namespace Multicast.Pool

open StepRun

variable {τ : Type*} {n : ℕ} {pool pool' : ThreadPool τ n} {a : Action τ n}
variable {as : List (Action τ n)} {k : Fin n} {t t' : Thread τ} {woken : Finset (Fin n)}

/-! ### The steps of a pool -/

/-- How many steps a thread takes at most until it sleeps or has ended, when the semaphore
is not set again meanwhile. -/
def Thread.weight : Thread τ → ℕ
  | .asleep | .ended | .lost _ => 0
  | .waiting | .leaving => 1
  | .loop => 2
  | .done | .created => 3
  | .running _ => 4
  | .pulling => 5
  | .counting => 6
  | .passed => 7

/-- How many steps the pool can take. A set semaphore lets a thread pass, and a job can set
it and wake all threads. -/
def ThreadPool.potential (pool : ThreadPool τ n) : ℕ :=
  (n + 10) * pool.jobqueue.length + (if pool.hasJobs then 9 else 0) +
    ∑ k, (pool.threads k).weight

/-- Is it a step of a thread, or the end of a job? -/
def Action.isOwn : Action τ n → Bool
  | .thread _ _ | .jobReturns _ | .jobExits _ => true
  | .addWork _ _ | .wakeup _ | .postAll | .keepalive _ => false

/-- How many steps an action makes the pool take at most. -/
def Action.demand : Action τ n → ℕ
  | .addWork _ _ => 2 * n + 19
  | .postAll => n + 9
  | .wakeup _ => 1
  | .thread _ _ | .jobReturns _ | .jobExits _ | .keepalive _ => 0

theorem sum_weight_goto (t' : Thread τ) (hk : pool.threads k = t) :
    ∑ j, ((pool.goto k t').threads j).weight + t.weight =
      ∑ j, (pool.threads j).weight + t'.weight :=
  Crew.sum_update_add Thread.weight hk

/-- A thread goes on, and the queue and the semaphore stay as they are. -/
theorem potential_goto (hk : pool.threads k = t)
    (hthreads : pool'.threads = (pool.goto k t').threads) (hqueue : pool'.jobqueue = pool.jobqueue)
    (hjobs : pool'.hasJobs = pool.hasJobs) :
    pool'.potential + t.weight = pool.potential + t'.weight := by
  have hsum := sum_weight_goto t' hk
  unfold ThreadPool.potential
  rw [hqueue, hjobs, hthreads]
  omega

/-- A thread goes on with less to do. -/
theorem potential_goto_lt (hk : pool.threads k = t)
    (hthreads : pool'.threads = (pool.goto k t').threads)
    (hqueue : pool'.jobqueue = pool.jobqueue) (hjobs : pool'.hasJobs = pool.hasJobs)
    (hweight : t'.weight < t.weight) : 1 + pool'.potential ≤ pool.potential := by
  have hgoto := potential_goto hk hthreads hqueue hjobs
  omega

/-- Each thread that is woken tests the semaphore. -/
theorem sum_weight_wake_le {threads : Fin n → Thread τ}
    (hwoken : ∀ j ∈ woken, threads j = .asleep) :
    ∑ j, (wake woken threads j).weight ≤ ∑ j, (threads j).weight + n := by
  have hsum : ∑ j, (wake woken threads j).weight + woken.card • 0 =
      ∑ j, (threads j).weight + woken.card • 1 :=
    Crew.sum_piecewise_add Thread.weight hwoken
  have hcard : woken.card ≤ n := (Finset.card_le_univ woken).trans (Fintype.card_fin n).le
  rw [nsmul_zero, add_zero, nsmul_one, Nat.cast_id] at hsum
  omega

/-- A signal can wake all threads that sleep. -/
theorem canWake_filter (threads : Fin n → Thread τ) :
    CanWake (Finset.univ.filter fun k => (threads k).isAsleep) threads := by
  refine ⟨fun k hk => (Finset.mem_filter.mp hk).2, fun hnone k hk => ?_⟩
  have hmem : k ∈ Finset.univ.filter fun k => (threads k).isAsleep :=
    Finset.mem_filter.mpr ⟨Finset.mem_univ k, hk⟩
  rw [hnone] at hmem
  exact Finset.notMem_empty k hmem

/-- A step of the pool uses up some of its potential, and another action adds a bounded
amount to it. -/
theorem potential_le (h : step a pool = some pool') :
    a.isOwn.toNat + pool'.potential ≤ pool.potential + a.demand := by
  cases stepped_of_step h with
  | start hk => exact potential_goto_lt hk rfl rfl rfl (by simp [Thread.weight])
  | stay hk => exact potential_goto_lt hk rfl rfl rfl (by simp [Thread.weight])
  | leave hk => exact potential_goto_lt hk rfl rfl rfl (by simp [Thread.weight])
  | sleep hk => exact potential_goto_lt hk rfl rfl rfl (by simp [Thread.weight])
  | enter hk => exact potential_goto_lt hk rfl rfl rfl (by simp [Thread.weight])
  | skip hk => exact potential_goto_lt hk rfl rfl rfl (by simp [Thread.weight])
  | count hk => exact potential_goto_lt hk rfl rfl rfl (by simp [Thread.weight])
  | pullNone hk => exact potential_goto_lt hk rfl rfl rfl (by simp [Thread.weight])
  | uncount hk => exact potential_goto_lt hk rfl rfl rfl (by simp [Thread.weight])
  | finish hk => exact potential_goto_lt hk rfl rfl rfl (by simp [Thread.weight])
  | jobReturns hk => exact potential_goto_lt hk rfl rfl rfl (by simp [Thread.weight])
  | jobExits hk => exact potential_goto_lt hk rfl rfl rfl (by simp [Thread.weight])
  | wakeup hk => exact (Nat.zero_add _).trans_le (potential_goto hk rfl rfl rfl).le
  | keepalive => exact (Nat.zero_add _).le
  | addWork hwoken =>
    have hwake := sum_weight_wake_le hwoken.asleep
    simp only [ThreadPool.potential, Action.isOwn, Action.demand, Bool.toNat_false,
      List.length_append, List.length_singleton, mul_add, mul_one, if_true]
    omega
  | postAll =>
    have hwake := sum_weight_wake_le (canWake_filter pool.threads).asleep
    simp only [ThreadPool.potential, bsemPostAll, Action.isOwn, Action.demand, Bool.toNat_false,
      if_true]
    omega
  | @pass k _ hk hjobs =>
    -- the thread takes more steps than one that waits, and the semaphore pays for them
    have hsum : ∑ j, ((pool.goto k .passed).threads j).weight + 1 =
        ∑ j, (pool.threads j).weight + 7 := sum_weight_goto .passed hk
    change 1 + ((n + 10) * pool.jobqueue.length + 0 +
      ∑ j, ((pool.goto k .passed).threads j).weight) ≤ pool.potential + 0
    rw [ThreadPool.potential, if_pos hjobs]
    omega
  | @pullLast k _ job hk hqueue =>
    have hsum : ∑ j, ((pool.goto k (.running job)).threads j).weight + 5 =
        ∑ j, (pool.threads j).weight + 4 := sum_weight_goto (.running job) hk
    change 1 + ((n + 10) * 0 + (if pool.hasJobs then 9 else 0) +
      ∑ j, ((pool.goto k (.running job)).threads j).weight) ≤ pool.potential + 0
    rw [ThreadPool.potential]
    omega
  | @pull k woken job jobs hk hqueue _ hwoken =>
    -- the job that is taken pays for setting the semaphore, and for all threads it wakes
    have hwake := sum_weight_wake_le hwoken.asleep
    have hsum : ∑ j, (Function.update (wake woken pool.threads) k (.running job) j).weight + 5 =
        ∑ j, (wake woken pool.threads j).weight + 4 :=
      Crew.sum_update_add Thread.weight
        ((Finset.piecewise_eq_of_notMem _ _ _ (hwoken.not_mem hk rfl)).trans hk)
    change 1 + ((n + 10) * jobs.length + 9 +
      ∑ j, (Function.update (wake woken pool.threads) k (.running job) j).weight) ≤
        pool.potential + 0
    rw [ThreadPool.potential, hqueue, List.length_cons, mul_add, mul_one]
    omega

theorem sum_toNat {α : Type*} (p : α → Bool) (as : List α) :
    (as.map fun a => (p a).toNat).sum = as.countP p := by
  induction as with
  | nil => rfl
  | cons a as ih =>
    rw [List.map_cons, List.sum_cons, ih, List.countP_cons, add_comm]
    cases p a <;> rfl

/-- **The pool takes a bounded number of steps for what is asked of it.** -/
theorem own_steps_le (h : run step as (thpoolInit τ n) = some pool) :
    as.countP Action.isOwn ≤ 3 * n + (as.map Action.demand).sum := by
  have hrun : (as.map fun a => a.isOwn.toNat).sum + pool.potential ≤
      (thpoolInit τ n).potential + (as.map Action.demand).sum :=
    run_amortized (I := fun _ => True) (fun _ _ _ _ _ => trivial)
      (fun _ _ _ _ hstep => potential_le hstep) h trivial
  have hnew : (thpoolInit τ n).potential = 3 * n := by
    simp [ThreadPool.potential, thpoolInit, Thread.weight, mul_comm]
  rw [hnew, sum_toNat] at hrun
  exact (Nat.le_add_right ..).trans hrun

theorem own_steps_le_oneJob :
    oneJob.countP Action.isOwn ≤ 3 * 1 + (oneJob.map Action.demand).sum :=
  own_steps_le run_oneJob

/-! ### No wakeup is lost -/

/-- Has the thread passed the semaphore, so that it is going to take a job? -/
def Thread.isComing : Thread τ → Bool
  | .passed | .counting | .pulling => true
  | _ => false

/-- Is the thread out of its loop? -/
def Thread.isGone : Thread τ → Bool
  | .leaving | .ended => true
  | _ => false

/-- The action clears the flag. -/
def Action.clears : Action τ n → Bool
  | .keepalive flag => !flag
  | _ => false

theorem Action.clears_of_isOwn (h : a.isOwn = true) : a.clears = false := by
  cases a with
  | keepalive => exact absurd h Bool.false_ne_true
  | _ => rfl

/-- No wakeup is lost, as long as the flag is not cleared. -/
structure Awake (pool : ThreadPool τ n) : Prop where
  flag : pool.threadsKeepalive = true
  stays : ∀ k, (pool.threads k).isGone = false
  supplied : pool.jobqueue ≠ [] → pool.hasJobs = true ∨ ∃ k, (pool.threads k).isComing = true
  signalled : pool.hasJobs = true → (∃ k, (pool.threads k).isAsleep = true) →
    ∃ k, (pool.threads k).isWaiting = true

/-- No thread leaves its loop. -/
theorem Awake.ne_leaving (h : Awake pool) (k : Fin n) : pool.threads k ≠ .leaving := by
  intro hk
  have hstays := h.stays k
  rw [hk] at hstays
  exact Bool.false_ne_true hstays.symm

theorem Awake.ne_ended (h : Awake pool) (k : Fin n) : pool.threads k ≠ .ended := by
  intro hk
  have hstays := h.stays k
  rw [hk] at hstays
  exact Bool.false_ne_true hstays.symm

theorem awake_thpoolInit : Awake (thpoolInit τ n) where
  flag := rfl
  stays _ := rfl
  supplied h := absurd rfl h
  signalled h := absurd h Bool.false_ne_true

/-- A signal wakes some thread, if some thread sleeps. -/
theorem CanWake.exists_isWaiting {threads : Fin n → Thread τ} (h : CanWake woken threads)
    (hasleep : ∃ k, (wake woken threads k).isAsleep = true) :
    ∃ k, (wake woken threads k).isWaiting = true := by
  rcases woken.eq_empty_or_nonempty with rfl | ⟨k, hk⟩
  · obtain ⟨k, hk⟩ := hasleep
    rw [wake_empty] at hk
    exact absurd hk (h.2 rfl k)
  · refine ⟨k, ?_⟩
    rw [wake, Finset.piecewise_eq_of_mem _ _ _ hk]
    rfl

/-- The step of one thread that leaves the semaphore as it is. -/
theorem Awake.goto (h : Awake pool) (hk : pool.threads k = t)
    (hthreads : pool'.threads = (pool.goto k t').threads)
    (hflag : pool'.threadsKeepalive = pool.threadsKeepalive)
    (hjobs : pool'.hasJobs = pool.hasJobs) (hstays : t'.isGone = false)
    (hsupplied : pool'.jobqueue ≠ [] →
      pool.jobqueue ≠ [] ∧ (t.isComing = false ∨ t'.isComing = true))
    (hsignalled : pool.hasJobs = true → t.isWaiting = false ∧ t'.isAsleep = false) :
    Awake pool' where
  flag := hflag.trans h.flag
  stays := by
    rw [hthreads]
    exact Crew.forall_update (Thread.isGone · = false) h.stays hstays
  supplied hqueue := by
    obtain ⟨hqueue, hcoming⟩ := hsupplied hqueue
    rw [hjobs, hthreads]
    refine (h.supplied hqueue).imp_right fun hexists => ?_
    refine Crew.exists_update (Thread.isComing · = true) hexists fun hcomes => ?_
    rw [hk] at hcomes
    exact hcoming.resolve_left (hcomes ▸ Bool.false_ne_true.symm)
  signalled hset hasleep := by
    rw [hjobs] at hset
    obtain ⟨hwaiting, hasleep'⟩ := hsignalled hset
    rw [hthreads] at hasleep ⊢
    -- the thread that is going to test the semaphore is another one
    refine Crew.exists_update (Thread.isWaiting · = true) (h.signalled hset ?_) fun hwaits => ?_
    · refine Crew.exists_of_update (Thread.isAsleep · = true) hasleep fun hsleeps => ?_
      exact Bool.false_ne_true (hasleep'.symm.trans hsleeps)
    · rw [hk, hwaiting] at hwaits
      exact absurd hwaits Bool.false_ne_true

theorem Awake.step (h : Awake pool) (hkeep : a.clears = false)
    (hstep : Multicast.Pool.step a pool = some pool') : Awake pool' := by
  cases stepped_of_step hstep with
  | addWork hwoken =>
    exact ⟨h.flag, forall_wake (Thread.isGone · = false) h.stays rfl, fun _ => .inl rfl,
      fun _ => hwoken.exists_isWaiting⟩
  | start hk =>
    exact h.goto hk rfl rfl rfl rfl (fun hq => ⟨hq, .inl rfl⟩) fun _ => ⟨rfl, rfl⟩
  | stay hk =>
    exact h.goto hk rfl rfl rfl rfl (fun hq => ⟨hq, .inl rfl⟩) fun _ => ⟨rfl, rfl⟩
  | leave hk hflag => exact absurd (hflag.symm.trans h.flag) Bool.false_ne_true
  | @pass k _ hk =>
    refine ⟨h.flag, ?_, fun _ => .inr ⟨k, ?_⟩,
      fun hset => absurd hset Bool.false_ne_true⟩
    · exact Crew.forall_update (Thread.isGone · = false) h.stays rfl
    · have hpassed : (pool.goto k .passed).threads k = .passed := Function.update_self ..
      exact congrArg Thread.isComing hpassed
  | sleep hk hjobs =>
    exact h.goto hk rfl rfl rfl rfl (fun hq => ⟨hq, .inl rfl⟩) fun hset =>
      absurd (hjobs.symm.trans hset) Bool.false_ne_true
  | enter hk =>
    exact h.goto hk rfl rfl rfl rfl (fun hq => ⟨hq, .inr rfl⟩) fun _ => ⟨rfl, rfl⟩
  | skip hk hflag => exact absurd (hflag.symm.trans h.flag) Bool.false_ne_true
  | count hk =>
    exact h.goto hk rfl rfl rfl rfl (fun hq => ⟨hq, .inr rfl⟩) fun _ => ⟨rfl, rfl⟩
  | pullNone hk hqueue =>
    exact h.goto hk rfl rfl rfl rfl (fun hq => absurd hqueue hq) fun _ => ⟨rfl, rfl⟩
  | pullLast hk hqueue =>
    exact h.goto hk rfl rfl rfl rfl (fun hq => absurd rfl hq) fun _ => ⟨rfl, rfl⟩
  | pull hk hqueue hmore hwoken =>
    refine ⟨h.flag, ?_, fun _ => .inl rfl, fun _ hasleep => ?_⟩
    · exact Crew.forall_update (Thread.isGone · = false)
        (forall_wake (Thread.isGone · = false) h.stays rfl) rfl
    · -- the thread that takes the job is neither woken nor about to sleep
      refine Crew.exists_update (Thread.isWaiting · = true) (hwoken.exists_isWaiting
        (Crew.exists_of_update (Thread.isAsleep · = true) hasleep Bool.false_ne_true))
        fun hwaits => ?_
      rw [wake, Finset.piecewise_eq_of_notMem _ _ _ (hwoken.not_mem hk rfl), hk] at hwaits
      exact absurd hwaits Bool.false_ne_true
  | uncount hk =>
    exact h.goto hk rfl rfl rfl rfl (fun hq => ⟨hq, .inl rfl⟩) fun _ => ⟨rfl, rfl⟩
  | finish hk => exact absurd hk (h.ne_leaving _)
  | jobReturns hk =>
    exact h.goto hk rfl rfl rfl rfl (fun hq => ⟨hq, .inl rfl⟩) fun _ => ⟨rfl, rfl⟩
  | jobExits hk =>
    exact h.goto hk rfl rfl rfl rfl (fun hq => ⟨hq, .inl rfl⟩) fun _ => ⟨rfl, rfl⟩
  | wakeup hk =>
    exact h.goto hk rfl rfl rfl rfl (fun hq => ⟨hq, .inl rfl⟩) fun _ => ⟨rfl, rfl⟩
  | postAll =>
    exact ⟨h.flag, forall_wake (Thread.isGone · = false) h.stays rfl, fun _ => .inl rfl,
      fun _ => (canWake_filter pool.threads).exists_isWaiting⟩
  | keepalive flag =>
    cases flag with
    | true => exact ⟨rfl, h.stays, h.supplied, h.signalled⟩
    | false => cases hkeep

theorem awake_of_run (h : run step as (thpoolInit τ n) = some pool)
    (hkeep : ∀ a ∈ as, a.clears = false) : Awake pool :=
  run_invariant_of_mem (fun _ _ _ h hkeep hstep => h.step hkeep hstep) hkeep h awake_thpoolInit

/-! ### The pool at rest -/

/-- A thread that cannot go on sleeps, has ended, or has a job. -/
theorem of_threadDo_eq_none (h : ∀ woken, pool.threadDo k woken = none) :
    pool.threads k = .asleep ∨ pool.threads k = .ended ∨ (pool.threads k).jobs ≠ 0 := by
  cases hk : pool.threads k with
  | asleep => exact .inl rfl
  | ended => exact .inr (.inl rfl)
  | running job => exact .inr (.inr (Multiset.singleton_ne_zero job))
  | lost job => exact .inr (.inr (Multiset.singleton_ne_zero job))
  | pulling =>
    -- a job is taken with a signal that wakes all threads, if there is one to be taken
    have hwoken := canWake_filter pool.threads
    have hnone := h (Finset.univ.filter fun k => (pool.threads k).isAsleep)
    rcases hqueue : pool.jobqueue with _ | ⟨job, _ | ⟨job', jobs⟩⟩ <;>
      simp [ThreadPool.threadDo, hk, jobqueuePull, bsemPost, hqueue, hwoken] at hnone
  | waiting =>
    have hnone := h ∅
    rw [ThreadPool.threadDo, hk] at hnone
    dsimp only at hnone
    split at hnone <;> cases hnone
  | _ => simp [ThreadPool.threadDo, hk] at h

/-- A job waits only for threads that have others. -/
theorem Awake.idle_or_busy (h : Awake pool) (hrest : ∀ k woken, pool.threadDo k woken = none) :
    pool.jobqueue = [] ∨ ∀ k, (pool.threads k).jobs ≠ 0 := by
  by_cases hqueue : pool.jobqueue = []
  · exact .inl hqueue
  refine .inr fun k => ?_
  rcases of_threadDo_eq_none (hrest k) with hasleep | hended | hjob
  · exfalso
    rcases h.supplied hqueue with hset | ⟨j, hj⟩
    · -- the semaphore is set, so that a thread is going to test it
      obtain ⟨j, hj⟩ := h.signalled hset ⟨k, Thread.isAsleep_iff.mpr hasleep⟩
      rcases of_threadDo_eq_none (hrest j) with hwhere | hwhere | hwhere
      · simp [hwhere, Thread.isWaiting] at hj
      · simp [hwhere, Thread.isWaiting] at hj
      · cases hjt : pool.threads j <;> simp [hjt, Thread.isWaiting, Thread.jobs] at hj hwhere
    · rcases of_threadDo_eq_none (hrest j) with hwhere | hwhere | hwhere
      · simp [hwhere, Thread.isComing] at hj
      · simp [hwhere, Thread.isComing] at hj
      · cases hjt : pool.threads j <;> simp [hjt, Thread.isComing, Thread.jobs] at hj hwhere
  · exact absurd hended (h.ne_ended k)
  · exact hjob

/-- **No wakeup is lost.** When no thread can go on, each thread has a job, or no job is in
the queue. -/
theorem idle_or_busy_of_run (h : run step as (thpoolInit τ n) = some pool)
    (hkeep : ∀ a ∈ as, a.clears = false) (hrest : ∀ k woken, pool.threadDo k woken = none) :
    pool.jobqueue = [] ∨ ∀ k, (pool.threads k).jobs ≠ 0 :=
  (awake_of_run h hkeep).idle_or_busy hrest

theorem idle_or_busy_oneJob :
    (afterJob false).jobqueue = [] ∨ ∀ k, ((afterJob false).threads k).jobs ≠ 0 :=
  idle_or_busy_of_run run_oneJob (by decide) fun _ _ => rfl

/-- No thread can go on, and no job is being executed. -/
structure ThreadPool.AtRest (pool : ThreadPool τ n) : Prop where
  threads : ∀ k woken, pool.threadDo k woken = none
  jobs : ∀ k job, pool.threads k ≠ .running job

/-- At rest a thread sleeps, has ended, or was ended by a job. -/
theorem ThreadPool.AtRest.thread (h : pool.AtRest) (k : Fin n) :
    pool.threads k = .asleep ∨ pool.threads k = .ended ∨ ∃ job, pool.threads k = .lost job := by
  refine (of_threadDo_eq_none (h.threads k)).imp_right (Or.imp_right fun hjob => ?_)
  cases hk : pool.threads k with
  | running job => exact absurd hk (h.jobs k job)
  | lost job => exact ⟨job, rfl⟩
  | _ => simp [hk, Thread.jobs] at hjob

/-- The only jobs that threads have at rest are those that ended them. -/
theorem ThreadPool.AtRest.sum_jobs (h : pool.AtRest) :
    ∑ k, (pool.threads k).jobs = ∑ k, (pool.threads k).lostJobs := by
  refine Finset.sum_congr rfl fun k _ => ?_
  rcases h.thread k with hk | hk | ⟨job, hk⟩ <;> rw [hk] <;> rfl

/-- What is counted as working at rest are the jobs that did not return. -/
theorem ThreadPool.AtRest.working (h : pool.AtRest) (hinv : Inv pool) :
    pool.numThreadsWorking = (∑ k, (pool.threads k).jobs).card := by
  rw [hinv.working, Multiset.card_sum, Nat.cast_sum]
  refine Finset.sum_congr rfl fun k _ => ?_
  rcases h.thread k with hk | hk | ⟨job, hk⟩ <;> rw [hk] <;> rfl

/-- At rest a thread that is left has no job, so that no job waits. -/
theorem ThreadPool.AtRest.jobqueue_eq_nil (h : pool.AtRest) (hawake : Awake pool)
    (hleft : ∃ k, ∀ job, pool.threads k ≠ .lost job) : pool.jobqueue = [] := by
  obtain ⟨k, hk⟩ := hleft
  refine (hawake.idle_or_busy h.threads).resolve_right fun hall => ?_
  rcases h.thread k with hwhere | hwhere | ⟨job, hwhere⟩
  · exact hall k (hwhere ▸ rfl)
  · exact hall k (hwhere ▸ rfl)
  · exact hk job hwhere

/-- At rest no job is left exactly when all threads sleep. -/
theorem ThreadPool.AtRest.sum_jobs_eq_zero_iff (h : pool.AtRest) (hawake : Awake pool) :
    ∑ k, (pool.threads k).jobs = 0 ↔ ∀ k, pool.threads k = .asleep := by
  rw [Finset.sum_eq_zero_iff]
  constructor
  · intro hnone k
    rcases h.thread k with hk | hk | ⟨job, hk⟩
    · exact hk
    · exact absurd hk (hawake.ne_ended k)
    · have hjobs := hnone k (Finset.mem_univ k)
      rw [hk] at hjobs
      exact absurd hjobs (Multiset.singleton_ne_zero job)
  · intro hall k _
    rw [hall k]
    rfl

/-- **Every job returns, unless it ends its thread.** At rest, if a thread is left, the jobs
that were added are those that returned and those that ended their threads, and the pool counts
the latter as working. -/
theorem returned_of_rest (h : run step as (thpoolInit τ n) = some pool)
    (hkeep : ∀ a ∈ as, a.clears = false) (hrest : pool.AtRest)
    (hleft : ∃ k, ∀ job, pool.threads k ≠ .lost job) :
    pool.jobqueue = [] ∧
      (as.flatMap Action.added : Multiset τ) = pool.returned + ∑ k, (pool.threads k).lostJobs ∧
      pool.numThreadsWorking = (∑ k, (pool.threads k).lostJobs).card ∧
      (pool.numThreadsWorking = 0 ↔ ∀ k, pool.threads k = .asleep) := by
  have hawake := awake_of_run h hkeep
  have hinv := inv_thpoolInit.run h
  have hqueue := hrest.jobqueue_eq_nil hawake hleft
  have hlog := started_append_of_run h
  rw [hqueue, List.append_nil] at hlog
  have hidle := hrest.sum_jobs_eq_zero_iff hawake
  rw [← Multiset.card_eq_zero, ← Nat.cast_eq_zero (R := ℤ), ← hrest.working hinv] at hidle
  refine ⟨hqueue, ?_, ?_, hidle⟩
  · rw [← hrest.sum_jobs, ← hlog]
    exact hinv.jobs
  · rw [← hrest.sum_jobs]
    exact hrest.working hinv

theorem returned_of_rest_oneJob : (afterJob false).jobqueue = [] ∧
    (([7] : List ℕ) : Multiset ℕ) =
      (afterJob false).returned + ∑ k, ((afterJob false).threads k).lostJobs ∧
    (afterJob false).numThreadsWorking = (∑ k, ((afterJob false).threads k).lostJobs).card ∧
    ((afterJob false).numThreadsWorking = 0 ↔ ∀ k, (afterJob false).threads k = .asleep) :=
  returned_of_rest run_oneJob (by decide) ⟨fun _ _ => rfl, fun _ _ => nofun⟩ ⟨0, fun _ => nofun⟩

/-- **The pool comes to rest.** It does so without ending a thread. -/
theorem exists_run_atRest (pool : ThreadPool τ n) :
    ∃ as pool', (∀ a ∈ as, a.isOwn ∧ ∀ k, a ≠ .jobExits k) ∧ run step as pool = some pool' ∧
      pool'.AtRest := by
  have hless (a : Action τ n) (pool pool' : ThreadPool τ n) (ha : a.isOwn)
      (hstep : step a pool = some pool') : pool'.potential < pool.potential := by
    have hle := potential_le hstep
    cases a with
    | addWork | wakeup | postAll | keepalive => cases ha
    | _ => exact Nat.lt_of_lt_of_le (Nat.lt_one_add_iff.mpr le_rfl) hle
  obtain ⟨as, pool', hown, hrun, hrest⟩ := exists_run_to_rest (I := fun _ => True)
    (fun a : Action τ n => a.isOwn ∧ ∀ k, a ≠ .jobExits k) (fun _ _ _ _ _ => trivial)
    (fun a pool pool' _ ha => hless a pool pool' ha.1) (s := pool) trivial
  refine ⟨as, pool', hown, hrun, fun k woken => ?_, fun k job hk => ?_⟩
  · exact hrest (.thread k woken) ⟨rfl, fun _ => nofun⟩
  · have hnone := hrest (.jobReturns k) ⟨rfl, fun _ => nofun⟩
    rw [step, hk] at hnone
    cases hnone

end Multicast.Pool
