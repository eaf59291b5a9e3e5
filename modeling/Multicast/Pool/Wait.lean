import Multicast.Pool.Progress

/-!
# Waiting for the thread pool

A call of `thpool_wait` reads the length of the queue and the number of the threads that
are counted as working, one after the other and without a lock, while the pool goes on. It
polls for a second, then with growing pauses, and then with long ones; when it leaves one
loop is a matter of time, which is left open here. It returns when the last loop has read
zero twice.

The order of the two reads is what makes this right. A thread is counted before it takes a
job, so that an empty queue and then no thread at work means that no job is left.

## Main definitions

* `Multicast.Pool.Waiter`, `Waiter.next` — the call of `thpool_wait`
* `Waiting`, `waitStep` — the pool and the call together

## Main results

* `returned_of_wait` — when the call returns, each job that was added has returned
* `Stuck.step` — it does not return after a job has ended its thread
* `exists_wait_returned_iff` — otherwise it can still return
-/

set_option autoImplicit false

namespace Multicast.Pool

open StepRun

variable {τ : Type*} {n : ℕ} {pool pool' : ThreadPool τ n} {a : Action τ n}
variable {as : List (Action τ n)} {k : Fin n} {t t' : Thread τ}

/-! ### The call -/

/-- The loops of `thpool_wait`, by what they do between two tests. -/
inductive PollLoop where
  | poll
  | nanosleep
  | sleep
deriving DecidableEq

/-- Where a call of `thpool_wait` is. -/
inductive Waiter where
  /-- tests the time that has passed, in the first loop -/
  | testTime
  /-- reads `len` -/
  | readLen (loop : PollLoop)
  /-- reads `num_threads_working` -/
  | readWorking (loop : PollLoop)
  /-- nothing, the call has returned -/
  | returned
deriving DecidableEq

/-- The loop goes on. After a pause the second loop is left, when the pauses have become
long. -/
def PollLoop.again (expired : Bool) : PollLoop → Waiter
  | .poll => .testTime
  | .nanosleep => .readLen (if expired then .sleep else .nanosleep)
  | .sleep => .readLen .sleep

/-- The loop ends. -/
def PollLoop.leave : PollLoop → Waiter
  | .poll => .readLen .nanosleep
  | .nanosleep => .readLen .sleep
  | .sleep => .returned

/-- The next step of the call; the loop that it is in may have run for long enough. -/
def Waiter.next (pool : ThreadPool τ n) (expired : Bool) : Waiter → Option Waiter
  | .testTime => some (.readLen (if expired then .nanosleep else .poll))
  | .readLen loop =>
    some (if pool.jobqueue.length ≠ 0 then loop.again expired else .readWorking loop)
  | .readWorking loop =>
    some (if pool.numThreadsWorking ≠ 0 then loop.again expired else loop.leave)
  | .returned => none

/-- A pool, and a call that waits for it. -/
structure Waiting (τ : Type*) (n : ℕ) where
  pool : ThreadPool τ n
  waiter : Waiter

/-- One step of the pool, or of the call. -/
def waitStep : Action τ n ⊕ Bool → Waiting τ n → Option (Waiting τ n)
  | .inl a, s => (step a s.pool).map fun pool => { s with pool := pool }
  | .inr expired, s => (s.waiter.next s.pool expired).map fun w => { s with waiter := w }

variable {s s' : Waiting τ n} {bs : List (Action τ n ⊕ Bool)} {b : Action τ n ⊕ Bool}
variable {expired : Bool} {w w' : Waiter} {loop : PollLoop}

/-- What can happen: the pool takes a step, or the call does. -/
theorem waitStep_cases (h : waitStep b s = some s') :
    (∃ a pool', b = .inl a ∧ step a s.pool = some pool' ∧ s' = { s with pool := pool' }) ∨
      ∃ expired w', b = .inr expired ∧ s.waiter.next s.pool expired = some w' ∧
        s' = { s with waiter := w' } := by
  cases b with
  | inl a =>
    obtain ⟨pool', hstep, rfl⟩ := Option.map_eq_some_iff.mp h
    exact .inl ⟨a, pool', rfl, hstep, rfl⟩
  | inr expired =>
    obtain ⟨w', hnext, rfl⟩ := Option.map_eq_some_iff.mp h
    exact .inr ⟨expired, w', rfl, hnext, rfl⟩

/-! ### When the call returns -/

/-- No job is in the queue, and none that was started is left. -/
structure ThreadPool.Finished (pool : ThreadPool τ n) : Prop where
  queue : pool.jobqueue = []
  length : pool.started.length = pool.returned.length

theorem length_started_le (h : step a pool = some pool') :
    pool.started.length ≤ pool'.started.length ∧ pool.returned.length ≤ pool'.returned.length := by
  cases stepped_of_step h <;> simp [ThreadPool.goto, bsemPostAll]

/-- Without new jobs, the queue stays empty. -/
theorem jobqueue_eq_nil (h : step a pool = some pool') (ha : a.added = [])
    (hqueue : pool.jobqueue = []) : pool'.jobqueue = [] := by
  have hlog := congrArg List.length (started_append_jobqueue h)
  have hle := (length_started_le h).1
  rw [hqueue, ha] at hlog
  simp only [List.length_append, List.length_nil] at hlog
  exact List.eq_nil_of_length_eq_zero (by omega)

/-- A thread that is not counted as working has no job. -/
theorem finished_of_working (h : Inv pool) (hqueue : pool.jobqueue = [])
    (hworking : pool.numThreadsWorking = 0) : pool.Finished where
  queue := hqueue
  length := by
    have hjobs : ∑ k, (pool.threads k).jobs = 0 :=
      Finset.sum_eq_zero fun k _ => by
        have hk := h.working_eq_zero hworking k
        cases ht : pool.threads k <;> simp_all [Thread.working, Thread.jobs]
    have hcount := congrArg Multiset.card h.jobs
    rw [hjobs, add_zero] at hcount
    exact hcount

/-- Without new jobs, a pool that has finished stays so. -/
theorem ThreadPool.Finished.step (h : pool.Finished) (hinv : Inv pool) (ha : a.added = [])
    (hstep : Multicast.Pool.step a pool = some pool') : pool'.Finished where
  queue := jobqueue_eq_nil hstep ha h.queue
  length := by
    have hlog := congrArg List.length (started_append_jobqueue hstep)
    have hle := length_started_le hstep
    have hcount := congrArg Multiset.card (hinv.step hstep).jobs
    rw [h.queue, jobqueue_eq_nil hstep ha h.queue, ha] at hlog
    simp only [List.length_append, List.length_nil, Multiset.card_add, Multiset.coe_card]
      at hlog hcount
    have hlength := h.length
    omega

/-- What the call knows. -/
structure WaitInv (s : Waiting τ n) : Prop where
  inv : Inv s.pool
  reads : ∀ loop, s.waiter = .readWorking loop → s.pool.jobqueue = []
  returned : s.waiter = .returned → s.pool.Finished

/-- The call returns only from the last loop. -/
theorem again_ne_returned (expired : Bool) (loop : PollLoop) :
    loop.again expired ≠ .returned ∧ ∀ loop', loop.again expired ≠ .readWorking loop' := by
  cases loop <;> simp [PollLoop.again]

theorem WaitInv.next (h : WaitInv s) (hnext : s.waiter.next s.pool expired = some w') :
    WaitInv { s with waiter := w' } := by
  rcases s with ⟨pool, _ | loop | loop | _⟩
  · obtain rfl := Option.some.inj hnext
    exact ⟨h.inv, nofun, nofun⟩
  · obtain rfl := Option.some.inj hnext
    by_cases hlen : pool.jobqueue.length = 0
    · rw [if_neg (not_not_intro hlen)]
      exact ⟨h.inv, fun _ _ => List.eq_nil_of_length_eq_zero hlen, nofun⟩
    · rw [if_pos hlen]
      obtain ⟨hreturned, hreads⟩ := again_ne_returned expired loop
      exact ⟨h.inv, fun loop' hw => absurd hw (hreads loop'), fun hw => absurd hw hreturned⟩
  · obtain rfl := Option.some.inj hnext
    by_cases hworking : pool.numThreadsWorking = 0
    · -- the queue was empty, so that no job is left
      have hfinished := finished_of_working h.inv (h.reads loop rfl) hworking
      rw [if_neg (not_not_intro hworking)]
      refine ⟨h.inv, fun loop' hw => ?_, fun _ => hfinished⟩
      cases loop <;> cases hw
    · rw [if_pos hworking]
      obtain ⟨hreturned, hreads⟩ := again_ne_returned expired loop
      exact ⟨h.inv, fun loop' hw => absurd hw (hreads loop'), fun hw => absurd hw hreturned⟩
  · cases hnext

/-- What an action of the pool or of the call adds. -/
def addedBy : Action τ n ⊕ Bool → List τ
  | .inl a => a.added
  | .inr _ => []

theorem log_waitStep (h : waitStep b s = some s') :
    s'.pool.started ++ s'.pool.jobqueue = s.pool.started ++ s.pool.jobqueue ++ addedBy b := by
  rcases waitStep_cases h with ⟨a, pool', rfl, hpool, rfl⟩ | ⟨expired, w', rfl, -, rfl⟩
  · exact started_append_jobqueue hpool
  · exact (List.append_nil _).symm

theorem WaitInv.step (h : WaitInv s) (hadds : addedBy b = []) (hstep : waitStep b s = some s') :
    WaitInv s' := by
  rcases waitStep_cases hstep with ⟨a, pool', rfl, hpool, rfl⟩ | ⟨expired, w', rfl, hnext, rfl⟩
  · refine ⟨h.inv.step hpool, fun loop hw => ?_, fun hw => ?_⟩
    · exact jobqueue_eq_nil hpool hadds (h.reads loop hw)
    · exact (h.returned hw).step h.inv hadds hpool
  · exact h.next hnext

/-- When nothing is left, the jobs have returned. -/
theorem ThreadPool.Finished.perm_returned (h : pool.Finished) (hinv : Inv pool) :
    (pool.started ++ pool.jobqueue).Perm pool.returned := by
  have hjobs := hinv.jobs
  have hcount := congrArg Multiset.card hjobs
  simp only [Multiset.card_add, Multiset.coe_card, h.length] at hcount
  have hnone : ∑ k, (pool.threads k).jobs = 0 := Multiset.card_eq_zero.mp (by omega)
  rw [hnone, add_zero] at hjobs
  rw [h.queue, List.append_nil]
  exact Multiset.coe_eq_coe.mp hjobs

/-- A call that has returned was made for jobs that have returned. -/
theorem perm_returned_of_wait (hinv : Inv pool) (hadds : ∀ b ∈ bs, addedBy b = [])
    (hwait : run waitStep bs ⟨pool, .testTime⟩ = some ⟨pool', .returned⟩) :
    (pool.started ++ pool.jobqueue).Perm pool'.returned := by
  have hinv' : WaitInv ⟨pool', .returned⟩ :=
    run_invariant_of_mem (fun _ _ _ h hadds hstep => h.step hadds hstep) hadds hwait
      ⟨hinv, nofun, nofun⟩
  -- no job was added during the call
  have hlog : pool'.started ++ pool'.jobqueue =
      pool.started ++ pool.jobqueue ++ bs.flatMap addedBy :=
    run_log_eq (fun _ _ _ => log_waitStep) hwait
  rw [List.flatMap_eq_nil_iff.mpr hadds, List.append_nil] at hlog
  exact hlog ▸ (hinv'.returned rfl).perm_returned hinv'.inv

/-- **When `thpool_wait` returns, every job that was added has returned.** -/
theorem returned_of_wait (h : run step as (thpoolInit τ n) = some pool)
    (hadds : ∀ b ∈ bs, addedBy b = [])
    (hwait : run waitStep bs ⟨pool, .testTime⟩ = some ⟨pool', .returned⟩) :
    (as.flatMap Action.added).Perm pool'.returned :=
  started_append_of_run h ▸ perm_returned_of_wait (inv_thpoolInit.run h) hadds hwait

theorem returned_of_wait_oneJob : [7].Perm (afterJob false).returned :=
  returned_of_wait run_oneJob (fun _ hb => List.eq_of_mem_replicate hb ▸ rfl)
    (show run waitStep (List.replicate 7 (.inr false)) ⟨afterJob false, .testTime⟩ = _ from rfl)

/-! ### When the call does not return -/

/-- A job has ended its thread, and the call has not returned. -/
structure Stuck (s : Waiting τ n) : Prop where
  inv : Inv s.pool
  lost : ∃ k job, s.pool.threads k = .lost job
  waiter : s.waiter ≠ .returned

/-- A thread that a job has ended stays counted as working. -/
theorem Stuck.working (h : Stuck s) : s.pool.numThreadsWorking ≠ 0 := by
  obtain ⟨k, job, hk⟩ := h.lost
  intro hzero
  have hnone := h.inv.working_eq_zero hzero k
  rw [hk] at hnone
  cases hnone

theorem Stuck.step (h : Stuck s) (hstep : waitStep b s = some s') : Stuck s' := by
  rcases waitStep_cases hstep with ⟨a, pool', rfl, hpool, rfl⟩ | ⟨expired, w', rfl, hnext, rfl⟩
  · obtain ⟨k, job, hk⟩ := h.lost
    exact ⟨h.inv.step hpool, ⟨k, job, (stepped_of_step hpool).lost hk⟩, h.waiter⟩
  · refine ⟨h.inv, h.lost, ?_⟩
    have hworking := h.working
    rcases s with ⟨pool, _ | loop | loop | _⟩
    · obtain rfl := Option.some.inj hnext
      exact nofun
    · obtain rfl := Option.some.inj hnext
      split
      · exact (again_ne_returned expired loop).1
      · exact nofun
    · obtain rfl := Option.some.inj hnext
      rw [if_pos hworking]
      exact (again_ne_returned expired loop).1
    · cases hnext

theorem Stuck.run (h : Stuck s) (hrun : StepRun.run waitStep bs s = some s') : Stuck s' :=
  run_invariant (fun _ _ _ h => h.step) hrun h

/-! ### When it does -/

/-- How many steps a call takes at most when it reads zero each time. -/
def Waiter.rank : Waiter → ℕ
  | .testTime => 7
  | .readLen .poll => 6
  | .readWorking .poll => 5
  | .readLen .nanosleep => 4
  | .readWorking .nanosleep => 3
  | .readLen .sleep => 2
  | .readWorking .sleep => 1
  | .returned => 0

/-- A call that reads zero goes on. -/
theorem exists_next (hqueue : pool.jobqueue = []) (hworking : pool.numThreadsWorking = 0)
    (expired : Bool) (hw : w ≠ .returned) :
    ∃ w', w.next pool expired = some w' ∧ w'.rank < w.rank := by
  rcases w with _ | loop | loop | _
  · refine ⟨_, rfl, ?_⟩
    cases expired <;> simp [Waiter.rank]
  · refine ⟨.readWorking loop, ?_, ?_⟩
    · simp [Waiter.next, hqueue]
    · cases loop <;> simp [Waiter.rank]
  · refine ⟨loop.leave, ?_, ?_⟩
    · simp [Waiter.next, hworking]
    · cases loop <;> simp [PollLoop.leave, Waiter.rank]
  · exact absurd rfl hw

/-- Whatever the time is, a call that reads zero returns. -/
theorem exists_run_returned (hqueue : pool.jobqueue = []) (hworking : pool.numThreadsWorking = 0)
    (expired : Bool) (w : Waiter) :
    ∃ m ≤ w.rank, run waitStep (List.replicate m (.inr expired)) ⟨pool, w⟩ =
      some ⟨pool, .returned⟩ := by
  induction hrank : w.rank using Nat.strong_induction_on generalizing w with
  | _ r ih =>
    by_cases hw : w = .returned
    · exact ⟨0, Nat.zero_le _, by rw [hw]; rfl⟩
    obtain ⟨w', hnext, hlt⟩ := exists_next hqueue hworking expired hw
    obtain ⟨m, hm, hrun⟩ := ih w'.rank (hrank ▸ hlt) w' rfl
    refine ⟨m + 1, by omega, ?_⟩
    rw [List.replicate_succ]
    exact run_cons_eq_some.mpr ⟨⟨pool, w'⟩, Option.map_eq_some_iff.mpr ⟨w', hnext, rfl⟩, hrun⟩

/-- The pool goes on while the call does nothing. -/
theorem run_map_inl (h : run step as pool = some pool') (w : Waiter) :
    run waitStep (as.map .inl) ⟨pool, w⟩ = some ⟨pool', w⟩ := by
  induction as generalizing pool with
  | nil =>
    obtain rfl := Option.some.inj h
    rfl
  | cons a as ih =>
    obtain ⟨pool₁, hstep, hrun⟩ := run_cons_eq_some.mp h
    exact run_cons_eq_some.mpr ⟨⟨pool₁, w⟩, Option.map_eq_some_iff.mpr ⟨pool₁, hstep, rfl⟩, ih hrun⟩

/-- A step of the pool itself in which no thread is ended, or of the call. -/
def Quiet : Action τ n ⊕ Bool → Prop
  | .inl a => a.isOwn = true ∧ ∀ k, a ≠ .jobExits k
  | .inr _ => True

/-- A call for a pool in which no job has ended its thread can still return. -/
theorem exists_wait_returned (hn : 0 < n) (hinv : Inv pool) (hawake : Awake pool)
    (hnone : ∀ k, (pool.threads k).isLost = false) :
    ∃ bs pool', (∀ b ∈ bs, Quiet b) ∧
      run waitStep bs ⟨pool, .testTime⟩ = some ⟨pool', .returned⟩ := by
  -- the pool comes to rest, and then the call reads zero
  obtain ⟨as', pool', hown, hrun, hrest⟩ := exists_run_atRest pool
  have hawake' : Awake pool' :=
    run_invariant_of_mem (fun _ _ _ h hkeep hstep => h.step hkeep hstep)
      (fun a ha => Action.clears_of_isOwn (hown a ha).1) hrun hawake
  have hnone' : ∀ k, (pool'.threads k).isLost = false :=
    run_invariant_of_mem (I := fun pool => ∀ k, (pool.threads k).isLost = false)
      (fun _ _ _ h hexits hstep => (stepped_of_step hstep).forall_isLost hexits h)
      (fun a ha => (hown a ha).2) hrun hnone
  have hasleep (k : Fin n) : pool'.threads k = .asleep := by
    rcases hrest.thread k with hk | hk | ⟨job, hk⟩
    · exact hk
    · exact absurd hk (hawake'.ne_ended k)
    · have hlost := hnone' k
      rw [hk] at hlost
      exact absurd hlost.symm Bool.false_ne_true
  have hworking := hrest.working (hinv.run hrun)
  rw [(hrest.sum_jobs_eq_zero_iff hawake').mpr hasleep] at hworking
  have hqueue := hrest.jobqueue_eq_nil hawake' ⟨⟨0, hn⟩, fun job hk => by
    cases (hasleep _).symm.trans hk⟩
  obtain ⟨m, -, hwait⟩ := exists_run_returned hqueue hworking false .testTime
  refine ⟨as'.map .inl ++ List.replicate m (.inr false), pool', fun b hb => ?_, ?_⟩
  · rcases List.mem_append.mp hb with hb | hb
    · obtain ⟨a, ha, rfl⟩ := List.mem_map.mp hb
      exact hown a ha
    · obtain rfl := List.eq_of_mem_replicate hb
      trivial
  · rw [run_append, run_map_inl hrun]
    exact hwait

/-- **`thpool_wait` can return exactly if no job has ended its thread.** In each state of the
pool, if no job has done so then the call can still return, and otherwise it never does,
whatever happens. -/
theorem exists_wait_returned_iff (hn : 0 < n) (h : run step as (thpoolInit τ n) = some pool)
    (hkeep : ∀ a ∈ as, a.clears = false) :
    (∃ bs pool', run waitStep bs ⟨pool, .testTime⟩ = some ⟨pool', .returned⟩) ↔
      ∀ k, (pool.threads k).isLost = false := by
  have hinv := inv_thpoolInit.run h
  constructor
  · rintro ⟨bs, pool', hwait⟩ k
    by_contra hlost
    cases hk : pool.threads k with
    | lost job =>
      have hstart : Stuck (⟨pool, .testTime⟩ : Waiting τ n) := ⟨hinv, ⟨k, job, hk⟩, nofun⟩
      exact (hstart.run hwait).waiter rfl
    | _ => exact hlost (hk ▸ rfl)
  · intro hnone
    obtain ⟨bs, pool', -, hwait⟩ := exists_wait_returned hn hinv (awake_of_run h hkeep) hnone
    exact ⟨bs, pool', hwait⟩

theorem exists_wait_returned_iff_oneJob :
    (∃ bs pool', run waitStep bs ⟨afterJob false, .testTime⟩ = some ⟨pool', .returned⟩) ↔
      ∀ k, ((afterJob false).threads k).isLost = false :=
  exists_wait_returned_iff Nat.zero_lt_one run_oneJob (by decide)

end Multicast.Pool
