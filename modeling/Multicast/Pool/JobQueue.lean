import Mathlib.Data.Int.Notation
import Mathlib.Data.List.InsertIdx
import Mathlib.Data.List.Nodup
import Multicast.Lib.LinkedList
import Multicast.Pool.ThreadPool

/-!
# The queue of the thread pool in memory

Each job in the queue is a node with a function and its argument, and with a pointer to the
job that was added after it. The queue has pointers to the first and to the last node and
counts its nodes; which of the pointers are written is decided by that count. A thread that
takes a job has the pointer to its node, and frees the node when the job has returned.

## Main definitions

* `Multicast.JobQueue.Queue` — the nodes, the pointers and the count
* `jobqueuePush`, `jobqueuePull`, `thpoolAddWork` — the calls
* `Memory`, `step` — the queue and the threads that have taken a job
* `Jobs`, `jobsStep` — the jobs in the queue, and those that were taken
* `Represents` — the nodes are those of the jobs

## Main results

* `Represents.push`, `Represents.pull` — the calls follow the operations on lists
* `represents_run_jobs` — so does every run, and it follows no pointer that is null or freed
-/

set_option autoImplicit false

namespace Multicast.JobQueue

open LinkedList StepRun

variable {τ : Type*}

/-! ### The calls -/

/-- `struct jobqueue`, and the nodes `struct job`: the value of a node is what a thread
executes, and its pointer is `prev`. -/
structure Queue (τ : Type*) where
  jobs : Heap τ
  front : Option ℕ
  rear : Option ℕ
  len : ℤ

/-- `jobqueue_init`. -/
def jobqueueInit (τ : Type*) : Queue τ where
  jobs _ := none
  front := none
  rear := none
  len := 0

/-- `jobqueue_push`. -/
def jobqueuePush (q : Queue τ) (newjob : ℕ) : Option (Queue τ) :=
  (setNext q.jobs newjob none).bind fun jobs =>
    if q.len = 0 then some ⟨jobs, some newjob, some newjob, q.len + 1⟩
    else q.rear.bind fun rear => (setNext jobs rear (some newjob)).map fun jobs =>
      ⟨jobs, q.front, some newjob, q.len + 1⟩

/-- `jobqueue_pull`: the pointer that is returned, and whether the semaphore is set. -/
def jobqueuePull (q : Queue τ) : Option (Option ℕ × Bool × Queue τ) :=
  if q.len = 0 then some (q.front, false, q)
  else if q.len = 1 then some (q.front, false, { q with front := none, rear := none, len := 0 })
  else q.front.bind fun job => (q.jobs job).map fun node =>
    (q.front, true, { q with front := node.next, len := q.len - 1 })

/-- `thpool_add_work`, with what it returns. The call of `malloc` finds an address, or has
none; what stands in the pointer of the new node is `prev`, until it is written. -/
def thpoolAddWork (malloc : Option ℕ) (prev : Option ℕ) (job : τ) (q : Queue τ) :
    Option (ℤ × Queue τ) :=
  match malloc with
  | none => some (-1, q)
  | some newjob =>
    (jobqueuePush { q with jobs := Function.update q.jobs newjob (some ⟨job, prev⟩) } newjob).map
      fun q => (0, q)

/-- The queue, and the pointers of the threads to the jobs that they have taken. -/
structure Memory (τ : Type*) extends Queue τ where
  taken : List ℕ

/-- What can happen: a job is added, a thread takes a job, and a job that was taken returns. -/
inductive Action (τ : Type*) where
  | addWork (malloc prev : Option ℕ) (job : τ)
  | pull
  | finish (i : ℕ)

/-- One step. A thread reads the node that it takes, and frees it in the end. -/
def step : Action τ → Memory τ → Option (Memory τ)
  | .addWork malloc prev job, m =>
    (thpoolAddWork malloc prev job m.toQueue).map fun out => { m with toQueue := out.2 }
  | .pull, m =>
    (jobqueuePull m.toQueue).bind fun
      | (none, _, q) => some { m with toQueue := q }
      | (some job, _, q) => (q.jobs job).map fun _ => ⟨q, m.taken ++ [job]⟩
  | .finish i, m =>
    m.taken[i]?.bind fun job => (free m.jobs job).map fun jobs =>
      { m with jobs := jobs, taken := m.taken.eraseIdx i }

/-- What is promised of an action: a new node is not one that is allocated, and a job that
returns is one that was taken. -/
def Allowed : Action τ → Memory τ → Prop
  | .addWork malloc _ _, m => ∀ newjob ∈ malloc, m.jobs newjob = none
  | .pull, _ => True
  | .finish i, m => i < m.taken.length

/-! ### The jobs -/

/-- The jobs in the queue, and those that threads have taken. -/
structure Jobs (τ : Type*) where
  queue : List τ
  taken : List τ

/-- One step, on lists. -/
def jobsStep (s : Jobs τ) : Action τ → Jobs τ
  | .addWork none _ _ => s
  | .addWork (some _) _ job => { s with queue := s.queue ++ [job] }
  | .pull =>
    match s.queue with
    | [] => s
    | job :: queue => ⟨queue, s.taken ++ [job]⟩
  | .finish i => { s with taken := s.taken.eraseIdx i }

/-- The nodes of the queue. -/
structure RepresentsQueue (q : Queue τ) (cells : List (ℕ × τ)) : Prop where
  chain : Chain q.jobs q.front cells
  nodup : (addresses cells).Nodup
  rear : q.rear = cells.getLast?.map Prod.fst
  len : q.len = cells.length

/-- The nodes are those of the jobs in the queue and of those that were taken, apart from
each other, and there are no others. -/
def Represents (s : Jobs τ) (m : Memory τ) : Prop :=
  ∃ cells held, RepresentsQueue m.toQueue cells ∧ s.queue = cells.map Prod.snd ∧
    m.taken = addresses held ∧ s.taken = held.map Prod.snd ∧
      (addresses cells ++ addresses held).Nodup ∧
        (∀ p, m.jobs p ≠ none → p ∈ addresses cells ++ addresses held) ∧
          ∀ p job, (p, job) ∈ held → ∃ prev, m.jobs p = some ⟨job, prev⟩

variable {q q' : Queue τ} {m m' : Memory τ} {s : Jobs τ} {cells held : List (ℕ × τ)}
variable {p newjob rear : ℕ} {job last : τ} {prev : Option ℕ} {as : List (Action τ)}

theorem represents_jobqueueInit : Represents ⟨[], []⟩ (⟨jobqueueInit τ, []⟩ : Memory τ) :=
  ⟨[], [], ⟨rfl, List.nodup_nil, rfl, rfl⟩, rfl, rfl, rfl, List.nodup_nil,
    fun _ h => absurd rfl h, nofun⟩

/-! ### A job is added -/

/-- The new node points nowhere. -/
theorem setNext_newjob (jobs : Heap τ) :
    setNext (Function.update jobs newjob (some ⟨job, prev⟩)) newjob none =
      some (Function.update jobs newjob (some ⟨job, none⟩)) := by
  rw [setNext_eq_some (Function.update_self ..), Function.update_idem]

/-- What `jobqueue_push` does with a new node. -/
structure Pushes (q q' : Queue τ) (cells : List (ℕ × τ)) (newjob : ℕ) (job : τ) : Prop where
  represents : RepresentsQueue q' (cells ++ [(newjob, job)])
  frame : ∀ p, p ∉ addresses cells → p ≠ newjob → q'.jobs p = q.jobs p

/-- The first job. -/
theorem RepresentsQueue.push_nil (h : RepresentsQueue q []) :
    ∃ q', jobqueuePush { q with jobs := Function.update q.jobs newjob (some ⟨job, prev⟩) } newjob =
      some q' ∧ Pushes q q' [] newjob job := by
  have hlen : q.len = 0 := h.len
  refine ⟨⟨Function.update q.jobs newjob (some ⟨job, none⟩), some newjob, some newjob,
    q.len + 1⟩, ?_, ⟨?_, List.nodup_singleton _, rfl, ?_⟩, fun p _ hp => ?_⟩
  · rw [jobqueuePush, setNext_newjob, Option.bind_some, if_pos hlen]
  · exact ⟨rfl, none, Function.update_self .., rfl⟩
  · exact congrArg (· + 1) hlen
  · exact Function.update_of_ne hp ..

/-- A job that is not the first one: the last node is linked to the new one. -/
theorem RepresentsQueue.push_concat (h : RepresentsQueue q (cells ++ [(rear, last)]))
    (hnew : q.jobs newjob = none) :
    ∃ q', jobqueuePush { q with jobs := Function.update q.jobs newjob (some ⟨job, prev⟩) } newjob =
      some q' ∧ Pushes q q' (cells ++ [(rear, last)]) newjob job := by
  have hfresh : newjob ∉ addresses (cells ++ [(rear, last)]) :=
    fun hmem => h.chain.ne_none hmem hnew
  have hlen : q.len ≠ 0 := by
    rw [h.len, List.length_append, List.length_singleton]
    omega
  have hrear : q.rear = some rear := by
    rw [h.rear, List.getLast?_concat, Option.map_some]
  have hmem : (rear, last) ∈ cells ++ [(rear, last)] :=
    List.mem_append_right _ (List.mem_singleton_self _)
  have hne : rear ≠ newjob := by
    rintro rfl
    exact hfresh (List.mem_map_of_mem hmem)
  have hnodup := h.nodup
  rw [addresses_append] at hnodup
  obtain ⟨next, hnode⟩ := h.chain.exists_node hmem
  have hlink : setNext (Function.update q.jobs newjob (some ⟨job, none⟩)) rear (some newjob) =
      some (Function.update (Function.update q.jobs newjob (some ⟨job, none⟩)) rear
        (some ⟨last, some newjob⟩)) :=
    setNext_eq_some ((Function.update_of_ne hne ..).trans hnode)
  have hnewjob : Chain (Function.update q.jobs newjob (some ⟨job, none⟩)) q.front
      (cells ++ [(rear, last)]) := h.chain.update hfresh
  have hchain := hnewjob.link_last
    (List.disjoint_singleton.mp (List.disjoint_of_nodup_append hnodup)) (Function.update_self ..)
    hne.symm
  refine ⟨⟨Function.update (Function.update q.jobs newjob (some ⟨job, none⟩)) rear
    (some ⟨last, some newjob⟩), q.front, some newjob, q.len + 1⟩, ?_, ⟨?_, ?_, ?_, ?_⟩,
    fun p hp hpnew => ?_⟩
  · rw [jobqueuePush, setNext_newjob, Option.bind_some, if_neg hlen, hrear, Option.bind_some,
      hlink, Option.map_some]
  · rw [List.append_assoc]
    exact hchain
  · rw [addresses_append]
    exact List.nodup_append'.mpr
      ⟨h.nodup, List.nodup_singleton _, List.disjoint_singleton.mpr hfresh⟩
  · rw [List.getLast?_concat, Option.map_some]
  · rw [List.length_append, List.length_singleton]
    exact congrArg (· + 1) h.len
  · have hprear : p ≠ rear := by
      rintro rfl
      exact hp (List.mem_map_of_mem hmem)
    exact (Function.update_of_ne hprear ..).trans (Function.update_of_ne hpnew ..)

theorem RepresentsQueue.push (h : RepresentsQueue q cells) (hnew : q.jobs newjob = none) :
    ∃ q', jobqueuePush { q with jobs := Function.update q.jobs newjob (some ⟨job, prev⟩) } newjob =
      some q' ∧ Pushes q q' cells newjob job := by
  rcases cells.eq_nil_or_concat' with rfl | ⟨cells, ⟨rear, last⟩, rfl⟩
  · exact h.push_nil
  · exact h.push_concat hnew

/-! ### A job is taken -/

theorem RepresentsQueue.pull_nil (h : RepresentsQueue q []) :
    jobqueuePull q = some (none, false, q) := by
  rw [jobqueuePull, if_pos (show q.len = 0 from h.len), show q.front = none from h.chain]

/-- The first node is taken, and the semaphore is set if it was not the only one. -/
theorem RepresentsQueue.pull_cons (h : RepresentsQueue q ((p, job) :: cells)) :
    ∃ q', jobqueuePull q = some (some p, !cells.isEmpty, q') ∧ RepresentsQueue q' cells ∧
      q'.jobs = q.jobs := by
  obtain ⟨hfront, next, hnode, hrest⟩ := h.chain
  have hlen : q.len ≠ 0 := by
    rw [h.len, List.length_cons]
    omega
  cases cells with
  | nil =>
    refine ⟨{ q with front := none, rear := none, len := 0 }, ?_, ⟨rfl, List.nodup_nil, rfl, rfl⟩,
      rfl⟩
    rw [jobqueuePull, if_neg hlen, if_pos (show q.len = 1 from h.len), hfront]
    rfl
  | cons cell cells =>
    have hmore : q.len ≠ 1 := by
      rw [h.len, List.length_cons, List.length_cons]
      omega
    refine ⟨{ q with front := next, len := q.len - 1 }, ?_, ⟨hrest, h.nodup.of_cons, ?_, ?_⟩, rfl⟩
    · rw [jobqueuePull, if_neg hlen, if_neg hmore, hfront, Option.bind_some, hnode, Option.map_some]
      rfl
    · exact h.rear.trans (by rw [List.getLast?_cons_cons])
    · change q.len - 1 = _
      rw [h.len, List.length_cons]
      omega

/-- The pool takes the jobs from its list in the same way, and sets the semaphore when the
queue in memory does. -/
theorem RepresentsQueue.pull_eq {n : ℕ} {pool : Pool.ThreadPool τ n} (h : RepresentsQueue q cells)
    (hpool : pool.jobqueue = cells.map Prod.snd) :
    ∃ posts q', jobqueuePull q = some (cells.head?.map Prod.fst, posts, q') ∧
      RepresentsQueue q' cells.tail ∧ ∀ woken, Pool.jobqueuePull pool woken =
        (if posts then Pool.bsemPost { pool with jobqueue := cells.tail.map Prod.snd } woken
          else some { pool with jobqueue := cells.tail.map Prod.snd }).map
            (cells.head?.map Prod.snd, ·) := by
  match cells with
  | [] =>
    refine ⟨false, q, h.pull_nil, h, fun woken => ?_⟩
    rw [Pool.jobqueuePull, hpool]
    exact congrArg (fun jobs => some (none, { pool with jobqueue := jobs })) hpool
  | [(p, job)] =>
    obtain ⟨q', hpull, hrest, -⟩ := h.pull_cons
    refine ⟨false, q', hpull, hrest, fun woken => ?_⟩
    rw [Pool.jobqueuePull, hpool]
    rfl
  | (p, job) :: cell :: cells =>
    obtain ⟨q', hpull, hrest, -⟩ := h.pull_cons
    refine ⟨true, q', hpull, hrest, fun woken => ?_⟩
    rw [Pool.jobqueuePull, hpool]
    rfl

/-! ### Runs -/

/-- A node that is allocated is not found again. -/
theorem not_mem_addresses (hchain : Chain q.jobs q.front cells)
    (hheld : ∀ p job, (p, job) ∈ held → ∃ prev, q.jobs p = some ⟨job, prev⟩)
    (hnew : q.jobs newjob = none) : newjob ∉ addresses cells ++ addresses held := by
  intro hmem
  rcases List.mem_append.mp hmem with hmem | hmem
  · exact hchain.ne_none hmem hnew
  · obtain ⟨⟨p, job⟩, hcell, rfl⟩ := List.mem_map.mp hmem
    obtain ⟨prev, hnode⟩ := hheld p job hcell
    cases hnode.symm.trans hnew

theorem Represents.addWork (h : Represents s m) (hnew : m.jobs newjob = none) :
    ∃ m', step (.addWork (some newjob) prev job) m = some m' ∧
      Represents { s with queue := s.queue ++ [job] } m' := by
  obtain ⟨cells, held, hqueue, hjobs, htaken, htaken', hnodup, hall, hheld⟩ := h
  obtain ⟨q', hpush, hpushes⟩ : ∃ q', jobqueuePush
      { m.toQueue with jobs := Function.update m.jobs newjob (some ⟨job, prev⟩) } newjob =
      some q' ∧ Pushes m.toQueue q' cells newjob job := hqueue.push hnew
  have hfresh := not_mem_addresses hqueue.chain hheld hnew
  refine ⟨⟨q', m.taken⟩, ?_, cells ++ [(newjob, job)], held, hpushes.represents, ?_, htaken,
    htaken', ?_, fun p hp => ?_, fun p job' hcell => ?_⟩
  · rw [step, thpoolAddWork, hpush]
    rfl
  · rw [hjobs, List.map_append]
    rfl
  · rw [addresses_append, List.append_assoc]
    exact List.nodup_middle.mpr (List.nodup_cons.mpr ⟨hfresh, hnodup⟩)
  · -- a node is the new one, or was there before
    rw [addresses_append, List.append_assoc]
    refine List.mem_append.mpr ?_
    by_cases hcells : p ∈ addresses cells
    · exact .inl hcells
    by_cases hpnew : p = newjob
    · exact .inr (hpnew ▸ List.mem_cons_self ..)
    · rw [hpushes.frame p hcells hpnew] at hp
      exact .inr (List.mem_cons_of_mem _ ((List.mem_append.mp (hall p hp)).resolve_left hcells))
  · have hmem : p ∈ addresses held := List.mem_map_of_mem hcell
    rw [hpushes.frame p (fun hcells => List.disjoint_of_nodup_append hnodup hcells hmem)]
    · exact hheld p job' hcell
    · rintro rfl
      exact hfresh (List.mem_append_right _ hmem)

theorem Represents.pull (h : Represents s m) :
    ∃ m', step .pull m = some m' ∧ Represents (jobsStep s .pull) m' := by
  obtain ⟨cells, held, hqueue, hjobs, htaken, htaken', hnodup, hall, hheld⟩ := h
  cases cells with
  | nil =>
    refine ⟨m, ?_, [], held, hqueue, ?_, htaken, ?_, hnodup, hall, hheld⟩
    · rw [step, hqueue.pull_nil]
      rfl
    · rw [jobsStep, hjobs]
      exact hjobs
    · rw [jobsStep, hjobs]
      exact htaken'
  | cons cell cells =>
    obtain ⟨p, job⟩ := cell
    obtain ⟨q', hpull, hrest, hsame⟩ := hqueue.pull_cons
    obtain ⟨-, next, hnode, -⟩ := hqueue.chain
    -- the node is among those that were taken now
    have hperm : (addresses ((p, job) :: cells) ++ addresses held).Perm
        (addresses cells ++ addresses (held ++ [(p, job)])) := by
      rw [addresses_append, ← List.append_assoc]
      exact (List.perm_append_singleton ..).symm
    refine ⟨⟨q', m.taken ++ [p]⟩, ?_, cells, held ++ [(p, job)], hrest, ?_, ?_, ?_,
      hperm.nodup_iff.mp hnodup, fun p' hp' => ?_, fun p' job' hcell => ?_⟩
    · rw [step, hpull]
      simp [hsame, hnode]
    · rw [jobsStep, hjobs]
      rfl
    · rw [htaken, addresses_append]
      rfl
    · rw [jobsStep, hjobs, htaken', List.map_append]
      rfl
    · rw [hsame] at hp'
      exact hperm.mem_iff.mp (hall p' hp')
    · rw [hsame]
      rcases List.mem_append.mp hcell with hcell | hcell
      · exact hheld p' job' hcell
      · obtain ⟨rfl, rfl⟩ := Prod.mk.inj (List.mem_singleton.mp hcell)
        exact ⟨next, hnode⟩

theorem exists_eraseIdx {α : Type*} {l : List α} {i : ℕ} (hi : i < l.length) :
    ∃ front x back, l = front ++ x :: back ∧ l[i]? = some x ∧ l.eraseIdx i = front ++ back := by
  refine ⟨l.take i, l[i], l.drop (i + 1), ?_, List.getElem?_eq_getElem hi,
    List.eraseIdx_eq_take_drop_succ ..⟩
  rw [← List.drop_eq_getElem_cons hi, List.take_append_drop]

/-- The node of a job that has returned is freed. -/
theorem Represents.finish {i : ℕ} (h : Represents s m) (hi : i < m.taken.length) :
    ∃ m', step (.finish i) m = some m' ∧ Represents (jobsStep s (.finish i)) m' := by
  obtain ⟨cells, held, hqueue, hjobs, htaken, htaken', hnodup, hall, hheld⟩ := h
  rw [htaken, addresses, List.length_map] at hi
  obtain ⟨front, ⟨p, job⟩, back, rfl, hget, herase⟩ := exists_eraseIdx hi
  obtain ⟨prev, hnode⟩ := hheld p job (by simp)
  have hperm : (addresses cells ++ addresses (front ++ (p, job) :: back)).Perm
      (p :: (addresses cells ++ addresses (front ++ back))) := by
    rw [addresses_append, addresses_append, addresses_cons, ← List.append_assoc,
      ← List.append_assoc]
    exact List.perm_middle
  obtain ⟨hp, hnodup'⟩ := List.nodup_cons.mp (hperm.nodup_iff.mp hnodup)
  have hne {p' : ℕ} (hmem : p' ∈ addresses cells ++ addresses (front ++ back)) : p' ≠ p :=
    fun heq => hp (heq ▸ hmem)
  refine ⟨{ m with
    jobs := Function.update m.jobs p none
    taken := m.taken.eraseIdx i }, ?_, cells, front ++ back, ?_, hjobs, ?_, ?_, hnodup', ?_, ?_⟩
  · rw [step, htaken, addresses, List.getElem?_map, hget]
    simp [free, hnode]
  · refine ⟨hqueue.chain.update fun hmem => hp (List.mem_append_left _ hmem), hqueue.nodup,
      hqueue.rear, hqueue.len⟩
  · exact (congrArg (List.eraseIdx · i) htaken).trans
      ((List.eraseIdx_map ..).trans (congrArg addresses herase))
  · exact (congrArg (List.eraseIdx · i) htaken').trans
      ((List.eraseIdx_map ..).trans (congrArg (List.map Prod.snd) herase))
  · intro p' (hp' : Function.update m.jobs p none p' ≠ none)
    have hp'p : p' ≠ p := by
      rintro rfl
      exact hp' (Function.update_self ..)
    rw [Function.update_of_ne hp'p] at hp'
    exact (List.mem_cons.mp (hperm.mem_iff.mp (hall p' hp'))).resolve_left hp'p
  · intro p' job' hcell
    have hmem : p' ∈ addresses (front ++ back) := List.mem_map_of_mem hcell
    change ∃ prev, Function.update m.jobs p none p' = some ⟨job', prev⟩
    rw [Function.update_of_ne (hne (List.mem_append_right _ hmem))]
    refine hheld p' job' ?_
    rcases List.mem_append.mp hcell with hcell | hcell
    · exact List.mem_append_left _ hcell
    · exact List.mem_append_right _ (List.mem_cons_of_mem _ hcell)

/-- Each action that is allowed is possible, and follows the one on lists. -/
theorem Represents.step {a : Action τ} (h : Represents s m) (ha : Allowed a m) :
    ∃ m', JobQueue.step a m = some m' ∧ Represents (jobsStep s a) m' := by
  cases a with
  | addWork malloc prev job =>
    cases malloc with
    | none => exact ⟨m, rfl, h⟩
    | some newjob => exact h.addWork (ha newjob rfl)
  | pull => exact h.pull
  | finish i => exact h.finish ha

/-- **The queue in memory is a queue.** As long as `malloc` finds nodes that are free, and
only jobs that were taken return, no pointer is followed that is null or was freed, and the
jobs are those of the lists. -/
theorem represents_run_jobs (h : Checks step Allowed as (⟨jobqueueInit τ, []⟩ : Memory τ)) :
    ∃ m, run step as ⟨jobqueueInit τ, []⟩ = some m ∧
      Represents (as.foldl jobsStep ⟨[], []⟩) m :=
  h.exists_run (fun _ _ _ hR ha => hR.step ha) represents_jobqueueInit

theorem represents_run_jobs_two :
    ∃ m, run step [.addWork (some 5) (some 9) 70, .addWork (some 6) none 80, .pull, .finish 0]
      ⟨jobqueueInit ℕ, []⟩ = some m ∧ Represents ⟨[80], []⟩ m := by
  refine represents_run_jobs ⟨fun _ _ => rfl, fun m₁ h₁ => ?_⟩
  obtain rfl := Option.some.inj h₁
  refine ⟨fun p hp => ?_, fun m₂ h₂ => ?_⟩
  · obtain rfl := Option.some.inj hp
    rfl
  obtain rfl := Option.some.inj h₂
  refine ⟨trivial, fun m₃ h₃ => ?_⟩
  obtain rfl := Option.some.inj h₃
  exact ⟨Nat.zero_lt_one, fun _ _ => trivial⟩

end Multicast.JobQueue
