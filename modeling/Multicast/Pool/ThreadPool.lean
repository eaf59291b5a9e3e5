import Mathlib.Algebra.Order.BigOperators.Group.Finset
import Mathlib.Tactic.Abel
import Multicast.Lib.Crew
import Multicast.Lib.Potential

/-!
# The thread pool

A pool has `n` threads, which take jobs from a queue. What a thread does while it holds a
mutex is one step, with the calls that it makes meanwhile; a thread that has to wait for
the semaphore sleeps until a signal, or for no reason, wakes it. A signal wakes at least
one of the threads that sleep, if there is one.

A job that is executed may return, or end its thread: then the thread is lost, and it stays
counted as alive and as working. The flag that keeps the threads in their loops is one for
all pools of the program, so that other pools set it.

## Main definitions

* `Multicast.Pool.Thread` — where a thread is in `thread_do`
* `ThreadPool`, `thpoolInit` — a pool, and a new one
* `bsemPost`, `bsemPostAll`, `jobqueuePush`, `jobqueuePull` — the calls under a mutex
* `ThreadPool.threadDo` — what a thread does next
* `Action`, `step` — what can happen to a pool

## Main results

* `Inv.step` — what the pool counts, and which jobs were started, in every step
* `fifo_of_run` — each job is started once, in the order in which the jobs were added
* `card_jobs_le` — no more jobs than threads are in progress
-/

set_option autoImplicit false

namespace Multicast.Pool

open StepRun

variable {τ : Type*} {n : ℕ}

/-! ### Threads -/

/-- Where a thread is in `thread_do`, by what it does next. -/
inductive Thread (τ : Type*) where
  /-- counts itself as alive -/
  | created
  /-- tests `threads_keepalive` at the head of its loop -/
  | loop
  /-- locks the semaphore in `bsem_wait`, and tests it -/
  | waiting
  /-- waits for a signal, the semaphore unlocked -/
  | asleep
  /-- tests `threads_keepalive` again, after `bsem_wait` -/
  | passed
  /-- counts itself as working -/
  | counting
  /-- takes a job from the queue -/
  | pulling
  /-- executes a job -/
  | running (job : τ)
  /-- counts itself as not working any more -/
  | done
  /-- counts itself as not alive any more -/
  | leaving
  /-- nothing, after its loop -/
  | ended
  /-- nothing, since the job that it executed ended it -/
  | lost (job : τ)

/-- Does the thread wait for a signal? -/
def Thread.isAsleep : Thread τ → Bool
  | .asleep => true
  | _ => false

/-- Is the thread about to test the semaphore? -/
def Thread.isWaiting : Thread τ → Bool
  | .waiting => true
  | _ => false

/-- Has a job ended the thread? -/
def Thread.isLost : Thread τ → Bool
  | .lost _ => true
  | _ => false

/-- The job that a thread has, executing it or ended by it. -/
def Thread.jobs : Thread τ → Multiset τ
  | .running job | .lost job => {job}
  | _ => 0

/-- The job that ended the thread. -/
def Thread.lostJobs : Thread τ → Multiset τ
  | .lost job => {job}
  | _ => 0

/-- What the thread adds to `num_threads_alive`. -/
def Thread.alive : Thread τ → ℤ
  | .created | .ended => 0
  | _ => 1

/-- What the thread adds to `num_threads_working`. -/
def Thread.working : Thread τ → ℤ
  | .pulling | .running _ | .done | .lost _ => 1
  | _ => 0

/-! ### The pool -/

/-- A pool. Nothing reads `started` and `returned`; they keep the jobs in the order in which
they were taken from the queue, and in which they returned. -/
structure ThreadPool (τ : Type*) (n : ℕ) where
  threads : Fin n → Thread τ
  numThreadsAlive : ℤ
  numThreadsWorking : ℤ
  jobqueue : List τ
  hasJobs : Bool
  threadsKeepalive : Bool
  started : List τ
  returned : List τ

/-- The pool that `thpool_init` makes, when the threads have been created. -/
def thpoolInit (τ : Type*) (n : ℕ) : ThreadPool τ n where
  threads _ := .created
  numThreadsAlive := 0
  numThreadsWorking := 0
  jobqueue := []
  hasJobs := false
  threadsKeepalive := true
  started := []
  returned := []

/-- The threads in `woken` are woken, and are going to lock the semaphore. -/
def wake (woken : Finset (Fin n)) (threads : Fin n → Thread τ) : Fin n → Thread τ :=
  woken.piecewise (fun _ => .waiting) threads

/-- `pthread_cond_signal` can wake these threads. -/
def CanWake (woken : Finset (Fin n)) (threads : Fin n → Thread τ) : Prop :=
  (∀ k ∈ woken, (threads k).isAsleep) ∧ (woken = ∅ → ∀ k, ¬ (threads k).isAsleep)

instance (woken : Finset (Fin n)) (threads : Fin n → Thread τ) :
    Decidable (CanWake woken threads) :=
  inferInstanceAs (Decidable (_ ∧ _))

/-- The semaphore is set, and the threads in `woken` are woken. -/
def bsemPost (pool : ThreadPool τ n) (woken : Finset (Fin n)) : Option (ThreadPool τ n) :=
  if CanWake woken pool.threads then
    some { pool with hasJobs := true, threads := wake woken pool.threads }
  else none

/-- The semaphore is set, and all threads that sleep are woken. -/
def bsemPostAll (pool : ThreadPool τ n) : ThreadPool τ n :=
  { pool with
    hasJobs := true
    threads := wake (Finset.univ.filter fun k => (pool.threads k).isAsleep) pool.threads }

/-- A job is put at the rear of the queue. -/
def jobqueuePush (pool : ThreadPool τ n) (newjob : τ) (woken : Finset (Fin n)) :
    Option (ThreadPool τ n) :=
  bsemPost { pool with jobqueue := pool.jobqueue ++ [newjob] } woken

/-- The job at the front is taken from the queue, if there is one; if it was not the only
one, then the semaphore is set. -/
def jobqueuePull (pool : ThreadPool τ n) (woken : Finset (Fin n)) :
    Option (Option τ × ThreadPool τ n) :=
  match pool.jobqueue with
  | [] => some (none, pool)
  | [job] => some (some job, { pool with jobqueue := [] })
  | job :: jobs => (bsemPost { pool with jobqueue := jobs } woken).map (some job, ·)

/-- The thread `k` goes on to `t`. -/
def ThreadPool.goto (pool : ThreadPool τ n) (k : Fin n) (t : Thread τ) : ThreadPool τ n :=
  { pool with threads := Function.update pool.threads k t }

/-- The next step of the thread `k` in `thread_do`. If it posts the semaphore, then it wakes
the threads in `woken`. -/
def ThreadPool.threadDo (pool : ThreadPool τ n) (k : Fin n) (woken : Finset (Fin n)) :
    Option (ThreadPool τ n) :=
  match pool.threads k with
  | .created => some { pool.goto k .loop with numThreadsAlive := pool.numThreadsAlive + 1 }
  | .loop => some (pool.goto k (if pool.threadsKeepalive then .waiting else .leaving))
  | .waiting =>
    if pool.hasJobs then some { pool.goto k .passed with hasJobs := false }
    else some (pool.goto k .asleep)
  | .passed => some (pool.goto k (if pool.threadsKeepalive then .counting else .loop))
  | .counting =>
    some { pool.goto k .pulling with numThreadsWorking := pool.numThreadsWorking + 1 }
  | .pulling => (jobqueuePull pool woken).map fun
    | (none, pool) => pool.goto k .done
    | (some job, pool) => { pool.goto k (.running job) with started := pool.started ++ [job] }
  | .done => some { pool.goto k .loop with numThreadsWorking := pool.numThreadsWorking - 1 }
  | .leaving => some { pool.goto k .ended with numThreadsAlive := pool.numThreadsAlive - 1 }
  | .asleep | .running _ | .ended | .lost _ => none

/-- What can happen: `thpool_add_work`, a step of a thread, the end of a job, which returns
or ends its thread, a wakeup without a signal, `bsem_post_all`, and a change of the flag. -/
inductive Action (τ : Type*) (n : ℕ) where
  | addWork (job : τ) (woken : Finset (Fin n))
  | thread (k : Fin n) (woken : Finset (Fin n))
  | jobReturns (k : Fin n)
  | jobExits (k : Fin n)
  | wakeup (k : Fin n)
  | postAll
  | keepalive (flag : Bool)

/-- One step. -/
def step : Action τ n → ThreadPool τ n → Option (ThreadPool τ n)
  | .addWork job woken, pool => jobqueuePush pool job woken
  | .thread k woken, pool => pool.threadDo k woken
  | .jobReturns k, pool =>
    match pool.threads k with
    | .running job => some { pool.goto k .done with returned := pool.returned ++ [job] }
    | _ => none
  | .jobExits k, pool =>
    match pool.threads k with
    | .running job => some (pool.goto k (.lost job))
    | _ => none
  | .wakeup k, pool => if (pool.threads k).isAsleep then some (pool.goto k .waiting) else none
  | .postAll, pool => some (bsemPostAll pool)
  | .keepalive flag, pool => some { pool with threadsKeepalive := flag }

/-- The jobs that an action adds. -/
def Action.added : Action τ n → List τ
  | .addWork job _ => [job]
  | _ => []

/-! ### What a step does -/

/-- The steps, each with the states in which it happens. -/
inductive Stepped (pool : ThreadPool τ n) : Action τ n → ThreadPool τ n → Prop where
  | addWork {job woken} (hwoken : CanWake woken pool.threads) :
    Stepped pool (.addWork job woken)
      { pool with
        jobqueue := pool.jobqueue ++ [job], hasJobs := true, threads := wake woken pool.threads }
  | start {k woken} (hk : pool.threads k = .created) :
    Stepped pool (.thread k woken)
      { pool.goto k .loop with numThreadsAlive := pool.numThreadsAlive + 1 }
  | stay {k woken} (hk : pool.threads k = .loop) (hflag : pool.threadsKeepalive = true) :
    Stepped pool (.thread k woken) (pool.goto k .waiting)
  | leave {k woken} (hk : pool.threads k = .loop) (hflag : pool.threadsKeepalive = false) :
    Stepped pool (.thread k woken) (pool.goto k .leaving)
  | pass {k woken} (hk : pool.threads k = .waiting) (hjobs : pool.hasJobs = true) :
    Stepped pool (.thread k woken) { pool.goto k .passed with hasJobs := false }
  | sleep {k woken} (hk : pool.threads k = .waiting) (hjobs : pool.hasJobs = false) :
    Stepped pool (.thread k woken) (pool.goto k .asleep)
  | enter {k woken} (hk : pool.threads k = .passed) (hflag : pool.threadsKeepalive = true) :
    Stepped pool (.thread k woken) (pool.goto k .counting)
  | skip {k woken} (hk : pool.threads k = .passed) (hflag : pool.threadsKeepalive = false) :
    Stepped pool (.thread k woken) (pool.goto k .loop)
  | count {k woken} (hk : pool.threads k = .counting) :
    Stepped pool (.thread k woken)
      { pool.goto k .pulling with numThreadsWorking := pool.numThreadsWorking + 1 }
  | pullNone {k woken} (hk : pool.threads k = .pulling) (hqueue : pool.jobqueue = []) :
    Stepped pool (.thread k woken) (pool.goto k .done)
  | pullLast {k woken job} (hk : pool.threads k = .pulling) (hqueue : pool.jobqueue = [job]) :
    Stepped pool (.thread k woken)
      { pool.goto k (.running job) with jobqueue := [], started := pool.started ++ [job] }
  | pull {k woken job jobs} (hk : pool.threads k = .pulling)
    (hqueue : pool.jobqueue = job :: jobs) (hmore : jobs ≠ [])
    (hwoken : CanWake woken pool.threads) :
    Stepped pool (.thread k woken)
      { pool with
        jobqueue := jobs
        hasJobs := true
        threads := Function.update (wake woken pool.threads) k (.running job)
        started := pool.started ++ [job] }
  | uncount {k woken} (hk : pool.threads k = .done) :
    Stepped pool (.thread k woken)
      { pool.goto k .loop with numThreadsWorking := pool.numThreadsWorking - 1 }
  | finish {k woken} (hk : pool.threads k = .leaving) :
    Stepped pool (.thread k woken)
      { pool.goto k .ended with numThreadsAlive := pool.numThreadsAlive - 1 }
  | jobReturns {k job} (hk : pool.threads k = .running job) :
    Stepped pool (.jobReturns k) { pool.goto k .done with returned := pool.returned ++ [job] }
  | jobExits {k job} (hk : pool.threads k = .running job) :
    Stepped pool (.jobExits k) (pool.goto k (.lost job))
  | wakeup {k} (hk : pool.threads k = .asleep) : Stepped pool (.wakeup k) (pool.goto k .waiting)
  | postAll : Stepped pool .postAll (bsemPostAll pool)
  | keepalive (flag : Bool) :
    Stepped pool (.keepalive flag) { pool with threadsKeepalive := flag }

variable {pool pool' : ThreadPool τ n} {a : Action τ n} {as : List (Action τ n)}
variable {k : Fin n} {t t' : Thread τ} {job : τ} {jobs : List τ} {woken : Finset (Fin n)}

theorem bsemPost_eq_some_iff : bsemPost pool woken = some pool' ↔
    CanWake woken pool.threads ∧
      { pool with hasJobs := true, threads := wake woken pool.threads } = pool' := by
  rw [bsemPost]
  split <;> simp_all

theorem Thread.isAsleep_iff : t.isAsleep ↔ t = .asleep := by
  cases t <;> simp [Thread.isAsleep]

/-- What a thread can do. -/
theorem stepped_of_threadDo (h : pool.threadDo k woken = some pool') :
    Stepped pool (.thread k woken) pool' := by
  rw [ThreadPool.threadDo] at h
  cases hk : pool.threads k with
  | created =>
    obtain rfl := by simpa [hk] using h
    exact .start hk
  | loop =>
    obtain rfl := by simpa [hk] using h
    cases hflag : pool.threadsKeepalive with
    | true => exact .stay hk hflag
    | false => exact .leave hk hflag
  | waiting =>
    cases hjobs : pool.hasJobs with
    | true =>
      obtain rfl := by simpa [hk, hjobs] using h
      exact .pass hk hjobs
    | false =>
      obtain rfl := by simpa [hk, hjobs] using h
      exact .sleep hk hjobs
  | passed =>
    obtain rfl := by simpa [hk] using h
    cases hflag : pool.threadsKeepalive with
    | true => exact .enter hk hflag
    | false => exact .skip hk hflag
  | counting =>
    obtain rfl := by simpa [hk] using h
    exact .count hk
  | pulling =>
    -- the queue has no job, one job, or more
    rcases hqueue : pool.jobqueue with _ | ⟨job, _ | ⟨job', jobs⟩⟩
    · obtain rfl := by simpa [hk, jobqueuePull, hqueue] using h
      exact .pullNone hk hqueue
    · obtain rfl := by simpa [hk, jobqueuePull, hqueue] using h
      exact .pullLast hk hqueue
    · simp only [hk, jobqueuePull, hqueue, Option.map_map, Option.map_eq_some_iff] at h
      obtain ⟨_, hpost, rfl⟩ := h
      obtain ⟨hwoken, rfl⟩ := bsemPost_eq_some_iff.mp hpost
      exact .pull hk hqueue (List.cons_ne_nil _ _) hwoken
  | done =>
    obtain rfl := by simpa [hk] using h
    exact .uncount hk
  | leaving =>
    obtain rfl := by simpa [hk] using h
    exact .finish hk
  | asleep | ended | running | lost => simp [hk] at h

/-- What can happen. -/
theorem stepped_of_step (h : step a pool = some pool') : Stepped pool a pool' := by
  cases a with
  | addWork job woken =>
    obtain ⟨hwoken, rfl⟩ := bsemPost_eq_some_iff.mp h
    exact .addWork hwoken
  | thread k woken => exact stepped_of_threadDo h
  | jobReturns k =>
    cases hk : pool.threads k with
    | running job =>
      obtain rfl := by simpa [step, hk] using h
      exact .jobReturns hk
    | _ => simp [step, hk] at h
  | jobExits k =>
    cases hk : pool.threads k with
    | running job =>
      obtain rfl := by simpa [step, hk] using h
      exact .jobExits hk
    | _ => simp [step, hk] at h
  | wakeup k =>
    rw [step] at h
    split_ifs at h with hasleep
    obtain rfl := Option.some.inj h
    exact .wakeup (Thread.isAsleep_iff.mp hasleep)
  | postAll =>
    obtain rfl := Option.some.inj h
    exact .postAll
  | keepalive flag =>
    obtain rfl := Option.some.inj h
    exact .keepalive flag

/-! ### What is counted -/

/-- One thread goes on from `t` to `t'`, after threads that sleep were woken, and what is
counted changes by what that thread adds to it. It is not a thread that a job has ended. -/
structure Moves (pool pool' : ThreadPool τ n) (k : Fin n) (woken : Finset (Fin n))
    (t t' : Thread τ) : Prop where
  source : pool.threads k = t
  live : t.isLost = false
  not_mem : k ∉ woken
  asleep : ∀ j ∈ woken, pool.threads j = .asleep
  threads : pool'.threads = Function.update (wake woken pool.threads) k t'
  alive : pool'.numThreadsAlive + t.alive = pool.numThreadsAlive + t'.alive
  working : pool'.numThreadsWorking + t.working = pool.numThreadsWorking + t'.working
  jobs : (pool'.started + pool.returned + t.jobs : Multiset τ) =
    pool.started + pool'.returned + t'.jobs

/-- Threads that sleep were woken, and nothing that is counted changes. -/
structure Wakes (pool pool' : ThreadPool τ n) (woken : Finset (Fin n)) : Prop where
  asleep : ∀ j ∈ woken, pool.threads j = .asleep
  threads : pool'.threads = wake woken pool.threads
  alive : pool'.numThreadsAlive = pool.numThreadsAlive
  working : pool'.numThreadsWorking = pool.numThreadsWorking
  started : pool'.started = pool.started
  returned : pool'.returned = pool.returned

@[simp] theorem wake_empty (threads : Fin n → Thread τ) : wake ∅ threads = threads :=
  Finset.piecewise_empty ..

/-- What holds of all threads still does when some are woken. -/
theorem forall_wake (p : Thread τ → Prop) {threads : Fin n → Thread τ} (h : ∀ k, p (threads k))
    (hp : p .waiting) (k : Fin n) : p (wake woken threads k) := by
  by_cases hk : k ∈ woken
  · rwa [wake, Finset.piecewise_eq_of_mem _ _ _ hk]
  · rw [wake, Finset.piecewise_eq_of_notMem _ _ _ hk]
    exact h k

theorem CanWake.asleep (h : CanWake woken pool.threads) (j : Fin n) (hj : j ∈ woken) :
    pool.threads j = .asleep :=
  Thread.isAsleep_iff.mp (h.1 j hj)

theorem CanWake.not_mem (h : CanWake woken pool.threads) (hk : pool.threads k = t)
    (ht : t.isAsleep = false) : k ∉ woken := by
  intro hmem
  have hasleep := h.1 k hmem
  rw [hk, ht] at hasleep
  exact Bool.false_ne_true hasleep

/-- A thread that goes on and wakes no other. -/
theorem Moves.goto (hk : pool.threads k = t) (hlive : t.isLost = false)
    (hthreads : pool'.threads = (pool.goto k t').threads)
    (halive : pool'.numThreadsAlive + t.alive = pool.numThreadsAlive + t'.alive)
    (hworking : pool'.numThreadsWorking + t.working = pool.numThreadsWorking + t'.working)
    (hjobs : (pool'.started + pool.returned + t.jobs : Multiset τ) =
      pool.started + pool'.returned + t'.jobs) : Moves pool pool' k ∅ t t' where
  source := hk
  live := hlive
  not_mem := Finset.notMem_empty k
  asleep _ hj := absurd hj (Finset.notMem_empty _)
  threads := by rw [hthreads, wake_empty, ThreadPool.goto]
  alive := halive
  working := hworking
  jobs := hjobs

theorem coe_started (started returned : List τ) (job : τ) :
    ((started ++ [job] : List τ) : Multiset τ) + returned + 0 = started + returned + {job} := by
  rw [← Multiset.coe_add, Multiset.coe_singleton, add_zero]
  exact add_right_comm ..

theorem coe_returned (started returned : List τ) (job : τ) :
    (started : Multiset τ) + returned + {job} = started + (returned ++ [job] : List τ) + 0 := by
  rw [← Multiset.coe_add, Multiset.coe_singleton, add_zero]
  exact add_assoc ..

/-- In each step at most one thread goes on. -/
theorem Stepped.moves (h : Stepped pool a pool') :
    (∃ woken, Wakes pool pool' woken) ∨ ∃ k woken t t', Moves pool pool' k woken t t' := by
  cases h with
  | addWork hwoken => exact .inl ⟨_, hwoken.asleep, rfl, rfl, rfl, rfl, rfl⟩
  | start hk => exact .inr ⟨_, _, _, _, .goto hk rfl rfl (add_assoc ..) rfl rfl⟩
  | stay hk => exact .inr ⟨_, _, _, _, .goto hk rfl rfl rfl rfl rfl⟩
  | leave hk => exact .inr ⟨_, _, _, _, .goto hk rfl rfl rfl rfl rfl⟩
  | pass hk => exact .inr ⟨_, _, _, _, .goto hk rfl rfl rfl rfl rfl⟩
  | sleep hk => exact .inr ⟨_, _, _, _, .goto hk rfl rfl rfl rfl rfl⟩
  | enter hk => exact .inr ⟨_, _, _, _, .goto hk rfl rfl rfl rfl rfl⟩
  | skip hk => exact .inr ⟨_, _, _, _, .goto hk rfl rfl rfl rfl rfl⟩
  | count hk => exact .inr ⟨_, _, _, _, .goto hk rfl rfl rfl (add_assoc ..) rfl⟩
  | pullNone hk => exact .inr ⟨_, _, _, _, .goto hk rfl rfl rfl rfl rfl⟩
  | pullLast hk => exact .inr ⟨_, _, _, _, .goto hk rfl rfl rfl rfl (coe_started ..)⟩
  | pull hk _ _ hwoken =>
    exact .inr ⟨_, _, _, _, hk, rfl, hwoken.not_mem hk rfl, hwoken.asleep, rfl, rfl, rfl,
      coe_started ..⟩
  | uncount hk => exact .inr ⟨_, _, _, _, .goto hk rfl rfl rfl (by simp [Thread.working]) rfl⟩
  | finish hk => exact .inr ⟨_, _, _, _, .goto hk rfl rfl (by simp [Thread.alive]) rfl rfl⟩
  | jobReturns hk => exact .inr ⟨_, _, _, _, .goto hk rfl rfl rfl rfl (coe_returned ..)⟩
  | jobExits hk => exact .inr ⟨_, _, _, _, .goto hk rfl rfl rfl rfl rfl⟩
  | wakeup hk => exact .inr ⟨_, _, _, _, .goto hk rfl rfl rfl rfl rfl⟩
  | postAll =>
    refine .inl ⟨_, fun j hj => ?_, rfl, rfl, rfl, rfl, rfl⟩
    exact Thread.isAsleep_iff.mp (Finset.mem_filter.mp hj).2
  | keepalive flag => exact .inl ⟨∅, by simp, (wake_empty _).symm, rfl, rfl, rfl, rfl⟩

variable {M : Type*} [AddCommMonoid M]

/-- A thread that is woken is counted as it was. -/
theorem Wakes.sum_eq (h : Wakes pool pool' woken) (f : Thread τ → M)
    (hf : f .waiting = f .asleep) : ∑ j, f (pool'.threads j) = ∑ j, f (pool.threads j) := by
  refine Finset.sum_congr rfl fun j _ => ?_
  rw [h.threads, wake]
  by_cases hj : j ∈ woken
  · rw [Finset.piecewise_eq_of_mem _ _ _ hj, h.asleep j hj, hf]
  · rw [Finset.piecewise_eq_of_notMem _ _ _ hj]

theorem Moves.sum_add (h : Moves pool pool' k woken t t') (f : Thread τ → M)
    (hf : f .waiting = f .asleep) :
    ∑ j, f (pool'.threads j) + f t = ∑ j, f (pool.threads j) + f t' := by
  -- first the threads are woken, and then the thread goes on
  have hwakes : Wakes pool { pool with threads := wake woken pool.threads } woken :=
    ⟨h.asleep, rfl, rfl, rfl, rfl, rfl⟩
  have hhere : wake woken pool.threads k = t :=
    (Finset.piecewise_eq_of_notMem _ _ _ h.not_mem).trans h.source
  rw [← hwakes.sum_eq f hf, h.threads]
  exact Crew.sum_update_add f hhere

/-- A thread that a job has ended takes no step any more. -/
theorem Stepped.lost (h : Stepped pool a pool') (hk : pool.threads k = .lost job) :
    pool'.threads k = .lost job := by
  -- a thread that is woken is asleep
  have hwake {woken : Finset (Fin n)} (hasleep : ∀ j ∈ woken, pool.threads j = .asleep) :
      wake woken pool.threads k = .lost job := by
    refine (Finset.piecewise_eq_of_notMem _ _ _ fun hmem => ?_).trans hk
    cases hk.symm.trans (hasleep k hmem)
  rcases h.moves with ⟨woken, hwakes⟩ | ⟨j, woken, t, t', hmoves⟩
  · rw [hwakes.threads, hwake hwakes.asleep]
  · have hkj : k ≠ j := by
      rintro rfl
      have hlive := hmoves.live
      rw [← hmoves.source, hk] at hlive
      exact Bool.false_ne_true hlive.symm
    rw [hmoves.threads, Function.update_of_ne hkj, hwake hmoves.asleep]

/-- A job ends its thread in a step of its own. -/
theorem Stepped.forall_isLost (h : Stepped pool a pool') (ha : ∀ k, a ≠ .jobExits k)
    (hnone : ∀ k, (pool.threads k).isLost = false) : ∀ k, (pool'.threads k).isLost = false := by
  have hwake {woken : Finset (Fin n)} (k : Fin n) :
      (wake woken pool.threads k).isLost = false :=
    forall_wake (Thread.isLost · = false) hnone rfl k
  cases h with
  | addWork => exact hwake
  | postAll => exact hwake
  | keepalive => exact hnone
  | pull => exact Crew.forall_update (Thread.isLost · = false) hwake rfl
  | jobExits => exact absurd rfl (ha _)
  | _ => exact Crew.forall_update (Thread.isLost · = false) hnone rfl

/-- The counters count the threads, and the jobs that were started have returned, except
for those that a thread has. -/
structure Inv (pool : ThreadPool τ n) : Prop where
  alive : pool.numThreadsAlive = ∑ k, (pool.threads k).alive
  working : pool.numThreadsWorking = ∑ k, (pool.threads k).working
  jobs : (pool.started : Multiset τ) = pool.returned + ∑ k, (pool.threads k).jobs

theorem inv_thpoolInit : Inv (thpoolInit τ n) := by
  constructor <;> simp [thpoolInit, Thread.alive, Thread.working, Thread.jobs]

theorem Inv.step (h : Inv pool) (hstep : step a pool = some pool') : Inv pool' := by
  rcases (stepped_of_step hstep).moves with ⟨woken, hwakes⟩ | ⟨k, woken, t, t', hmoves⟩
  · constructor
    case alive => rw [hwakes.alive, h.alive, hwakes.sum_eq _ rfl]
    case working => rw [hwakes.working, h.working, hwakes.sum_eq _ rfl]
    case jobs => rw [hwakes.started, hwakes.returned, h.jobs, hwakes.sum_eq _ rfl]
  · constructor
    case alive =>
      have hsum := hmoves.sum_add Thread.alive rfl
      have hcount := hmoves.alive
      rw [h.alive] at hcount
      exact add_right_cancel (hcount.trans hsum.symm)
    case working =>
      have hsum := hmoves.sum_add Thread.working rfl
      have hcount := hmoves.working
      rw [h.working] at hcount
      exact add_right_cancel (hcount.trans hsum.symm)
    case jobs =>
      have hsum := hmoves.sum_add Thread.jobs rfl
      have hcount := hmoves.jobs
      rw [h.jobs] at hcount
      -- what was returned before, and what the thread had, is on both sides
      refine add_right_cancel (b := pool.returned + t.jobs) ?_
      calc (pool'.started : Multiset τ) + (pool.returned + t.jobs)
          = pool.returned + ∑ j, (pool.threads j).jobs + pool'.returned + t'.jobs := by
            rw [← add_assoc, hcount]
        _ = pool'.returned + (∑ j, (pool'.threads j).jobs + t.jobs) + pool.returned := by
            rw [hsum]
            abel
        _ = pool'.returned + ∑ j, (pool'.threads j).jobs + (pool.returned + t.jobs) := by
            abel

/-- Jobs leave the queue at the front, when they are started. -/
theorem started_append_jobqueue (h : Multicast.Pool.step a pool = some pool') :
    pool'.started ++ pool'.jobqueue = pool.started ++ pool.jobqueue ++ a.added := by
  cases stepped_of_step h with
  | addWork => exact (List.append_assoc ..).symm
  | pullNone hk hqueue => exact (List.append_nil _).symm
  | pullLast hk hqueue =>
    rw [hqueue]
    simp [Action.added]
  | pull hk hqueue =>
    rw [hqueue]
    simp [Action.added]
  | _ => exact (List.append_nil _).symm

/-! ### Runs -/

theorem Inv.run (h : Inv pool) (hrun : StepRun.run Multicast.Pool.step as pool = some pool') :
    Inv pool' :=
  run_invariant (fun _ _ _ h => h.step) hrun h

/-- The jobs that were started, and then those in the queue, are those that were added. -/
theorem started_append_of_run (h : run step as (thpoolInit τ n) = some pool) :
    pool.started ++ pool.jobqueue = as.flatMap Action.added :=
  run_log_eq (fun _ _ _ => started_append_jobqueue) h

/-- A pool that counts no thread as working has none that works. -/
theorem Inv.working_eq_zero (h : Inv pool) (hworking : pool.numThreadsWorking = 0) (k : Fin n) :
    (pool.threads k).working = 0 := by
  have hpos (t : Thread τ) : 0 ≤ t.working := by
    cases t <;> simp [Thread.working]
  have hsum := h.working.symm.trans hworking
  exact (Finset.sum_eq_zero_iff_of_nonneg fun k _ => hpos (pool.threads k)).mp hsum k
    (Finset.mem_univ k)

/-- Each thread has at most one job. -/
theorem card_jobs_le (threads : Fin n → Thread τ) : (∑ k, (threads k).jobs).card ≤ n := by
  have hone (k : Fin n) : (threads k).jobs.card ≤ 1 := by
    cases threads k <;> simp [Thread.jobs]
  rw [Multiset.card_sum]
  calc ∑ k, (threads k).jobs.card
      ≤ ∑ _k : Fin n, 1 := Finset.sum_le_sum fun k _ => hone k
    _ = n := by simp

/-- **Every job is started at most once, in the order of the queue, and at most `n` of the
jobs that were started are in progress.** -/
theorem fifo_of_run (h : run step as (thpoolInit τ n) = some pool) :
    pool.started ++ pool.jobqueue = as.flatMap Action.added ∧
      ∃ jobs : Multiset τ, (pool.started : Multiset τ) = pool.returned + jobs ∧ jobs.card ≤ n :=
  ⟨started_append_of_run h,
    ∑ k, (pool.threads k).jobs, (inv_thpoolInit.run h).jobs, card_jobs_le pool.threads⟩

/-- The only thread of a pool sleeps, is woken to execute a job, and sleeps again. -/
def oneJob : List (Action ℕ 1) :=
  [.thread 0 ∅, .thread 0 ∅, .thread 0 ∅, .addWork 7 {0}, .thread 0 ∅, .thread 0 ∅, .thread 0 ∅,
    .thread 0 ∅, .jobReturns 0, .thread 0 ∅, .thread 0 ∅, .thread 0 ∅]

/-- The pool after it has executed that job, or after the job has ended the thread. -/
def afterJob (ends : Bool) : ThreadPool ℕ 1 where
  threads _ := if ends then .lost 7 else .asleep
  numThreadsAlive := 1
  numThreadsWorking := if ends then 1 else 0
  jobqueue := []
  hasJobs := false
  threadsKeepalive := true
  started := [7]
  returned := if ends then [] else [7]

theorem run_oneJob : run step oneJob (thpoolInit ℕ 1) = some (afterJob false) := by
  refine congrArg some (ThreadPool.mk.injEq .. |>.mpr ⟨funext fun k => ?_, ?_⟩)
  · obtain rfl := Subsingleton.elim k 0
    rfl
  · exact ⟨rfl, rfl, rfl, rfl, rfl, rfl, rfl⟩

theorem fifo_of_run_oneJob : (afterJob false).started ++ (afterJob false).jobqueue = [7] ∧
    ∃ jobs : Multiset ℕ, ((afterJob false).started : Multiset ℕ) =
      (afterJob false).returned + jobs ∧ jobs.card ≤ 1 :=
  fifo_of_run run_oneJob

end Multicast.Pool
