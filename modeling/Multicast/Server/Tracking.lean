import Multicast.Lib.StepRun
import Multicast.Server.Sweep

/-!
# The threads of the readers

The event loop stores the id of a reader thread in `client_thread_id` under the number of
clients that were accepted so far. The timer looks for the reader of an expired client under
the slot of the client.

The history of the readers is part of the state: each with its id, its descriptor and the
value of `client_count` when it was created, the last one first.

## Main definitions

* `Multicast.Tracking.Readers` — the server with its reader threads
* `Action`, `step` — the steps of the event loop, the readers and the timer
* `Tracked` — an index is in range, and the entry of an expired client is its last reader
* `CountMatches` — the condition on the steps

## Main results

* `tracked_iff` — one step has the property exactly if it meets the condition
* `tracked_along_iff` — so does a run
* `not_tracked_firstClient` — a run that does not

## Implementation notes

Threads can be created, and the id of a reader is not given to a later one: the readers are
never joined. An entry that was not written holds no id, and the run ends where the timer
cancels it. The descriptors that `epoll` watches
stay open here; a timer that wakes up before the first client does nothing, and that is no
step.
-/

set_option autoImplicit false

namespace Multicast.Tracking

open StepRun

/-- `MAX_NUMBER_OF_CLIENTS`. -/
def maxNumberOfClients : ℤ := 255000

/-- A thread that runs `client_Communication`. -/
structure Reader where
  thread : ℕ
  fd : ℤ
  index : ℕ
deriving DecidableEq

/-- The server with `client_count`, the descriptors that `epoll` watches, the history of the
readers, and the slot that the timer is at, none while it sleeps. -/
structure Readers extends Server where
  clientCount : ℕ
  watched : List ℤ
  spawned : List Reader
  slot : Option ℕ

/-- The state in which the event loop starts. -/
def initialReaders : Readers where
  toServer := initialServer
  clientCount := 0
  watched := []
  spawned := []
  slot := none

inductive Action where
  | accept (acceptRet : ℤ)
  | readable (fd : ℤ)
  | register (now clientSocketFd : ℤ) (groupArray : List ℤ)
  | activity (now clientSd : ℤ)
  | wake
  | timer (now : ℤ)

namespace Readers

/-- The call of `pthread_create` in `add_client_handler`. -/
def createReader (s : Readers) (fd : ℤ) : Readers :=
  let thread := s.spawned.length
  { s with
    toServer := s.storeReader s.clientCount thread
    spawned := ⟨thread, fd, s.clientCount⟩ :: s.spawned }

/-- The slot that the loop of `timer_handler` goes to. -/
def nextSlot (i : ℕ) : Option ℕ := if (i + 1 : ℕ) < Server.totalClients then some (i + 1) else none

/-- The last reader that was created for the descriptor. -/
def lastFor (s : Readers) (fd : ℤ) : Option Reader := s.spawned.find? fun r => r.fd = fd

/-- The last reader that was created while `client_count` had this value. -/
def lastAt (s : Readers) (index : ℕ) : Option Reader := s.spawned.find? fun r => r.index = index

end Readers

/-- One step. A reader handles what it read from its descriptor. -/
def step : Action → Readers → Option Readers
  | .accept acceptRet, s =>
    if 0 ≤ acceptRet then
      some { s with clientCount := s.clientCount + 1, watched := acceptRet :: s.watched }
    else none
  | .readable fd, s => if fd ∈ s.watched then some (s.createReader fd) else none
  | .register now clientSocketFd groupArray, s =>
    if clientSocketFd ∈ s.spawned.map Reader.fd then
      some { s with toServer := s.handleGroupIdRegs now clientSocketFd groupArray }
    else none
  | .activity now clientSd, s =>
    if clientSd ∈ s.spawned.map Reader.fd then
      some { s with toServer := s.recordActivity now clientSd }
    else none
  | .wake, s =>
    if s.slot = none ∧ s.clientCount ≠ 0 then some { s with slot := some 0 } else none
  | .timer now, s =>
    s.slot.bind fun i : ℕ => (s.timerRound now i).map fun server =>
      { s with toServer := server, slot := Readers.nextSlot i }

/-! ### The property and the condition -/

/-- The index of an entry of `client_thread_id`. -/
def InRange (i : ℤ) : Prop := 0 ≤ i ∧ i < maxNumberOfClients

/-- The index that a step uses is in range, and the thread that the timer cancels for an
expired client is the last reader that was created for its descriptor. -/
def Tracked : Action → Readers → Prop
  | .readable fd, s => fd ∈ s.watched → InRange s.clientCount
  | .timer now, s => ∀ i : ℕ, s.slot = some i → Expired now s.clients i →
    InRange i ∧ ∃ r, s.lastFor (s.clients i).clientSocketFd = some r ∧
      s.clientThreadId i = some r.thread
  | .accept _, _ | .register .., _ | .activity .., _ | .wake, _ => True

/-- The condition on a step. A reader is created while fewer than `MAX_NUMBER_OF_CLIENTS`
clients were accepted; and when a client in slot `i` is expired, its last reader was created
while exactly `i` clients were accepted, and no reader was created at this count later. -/
def CountMatches : Action → Readers → Prop
  | .readable fd, s => fd ∈ s.watched → s.clientCount < maxNumberOfClients
  | .timer now, s => ∀ i : ℕ, s.slot = some i → Expired now s.clients i →
    ∃ r, s.lastFor (s.clients i).clientSocketFd = some r ∧ s.lastAt i = some r
  | .accept _, _ | .register .., _ | .activity .., _ | .wake, _ => True

/-- What holds in every state: an entry is the last reader of its index, and the ids of the
readers are different. -/
structure TableKept (s : Readers) : Prop where
  clientThreadId_eq : ∀ i : ℕ, s.clientThreadId i = (s.lastAt i).map Reader.thread
  nodup_thread : (s.spawned.map Reader.thread).Nodup
  thread_lt : ∀ r ∈ s.spawned, r.thread < s.spawned.length
  slot_lt : ∀ i, s.slot = some i → i < Server.totalClients

variable {s s' : Readers} {a : Action} {fd : ℤ} {i : ℕ}

/-! ### Steps -/

theorem mem_spawned_of_lastFor {r : Reader} (h : s.lastFor fd = some r) : r ∈ s.spawned :=
  List.mem_of_find?_eq_some h

theorem mem_spawned_of_lastAt {r : Reader} (h : s.lastAt i = some r) : r ∈ s.spawned :=
  List.mem_of_find?_eq_some h

/-- Readers with the same id are the same. -/
theorem TableKept.eq_of_thread_eq {r r' : Reader} (h : TableKept s) (hr : r ∈ s.spawned)
    (hr' : r' ∈ s.spawned) (hthread : r.thread = r'.thread) : r = r' :=
  List.inj_on_of_nodup_map h.nodup_thread hr hr' hthread

/-- The entry at an index is the last reader of the descriptor exactly if that is the last
reader of the index. -/
theorem TableKept.clientThreadId_eq_some_iff {r : Reader} (h : TableKept s)
    (hlast : s.lastFor fd = some r) :
    s.clientThreadId i = some r.thread ↔ s.lastAt i = some r := by
  rw [h.clientThreadId_eq, Option.map_eq_some_iff]
  constructor
  · rintro ⟨r', hr', hthread⟩
    have hmem' := mem_spawned_of_lastAt hr'
    rw [hr', h.eq_of_thread_eq hmem' (mem_spawned_of_lastFor hlast) hthread]
  · intro hr
    exact ⟨r, hr, rfl⟩

/-- A step has the property exactly if it meets the condition. -/
theorem tracked_iff (h : TableKept s) : Tracked a s ↔ CountMatches a s := by
  cases a with
  | readable fd =>
    refine forall_congr' fun _ => ?_
    exact and_iff_right (Int.natCast_nonneg s.clientCount)
  | timer now =>
    refine forall_congr' fun i => forall_congr' fun hslot => forall_congr' fun _ => ?_
    have hrange : InRange i := ⟨Int.natCast_nonneg i, h.slot_lt i hslot⟩
    rw [and_iff_right hrange]
    exact exists_congr fun r => and_congr_right fun hlast => h.clientThreadId_eq_some_iff hlast
  | accept acceptRet | register now fd groups | activity now fd | wake => exact Iff.rfl

/-- A new reader gets a new id, and the entry of its index. -/
theorem TableKept.createReader (h : TableKept s) (fd : ℤ) : TableKept (s.createReader fd) where
  clientThreadId_eq := by
    intro i
    rw [Readers.lastAt, Readers.createReader, List.find?_cons]
    by_cases hi : s.clientCount = i
    · -- the entry is written, and the last reader of this index is the new one
      simp [hi, Server.storeReader]
    · have hne : (i : ℤ) ≠ s.clientCount := by omega
      simpa [hi, Server.storeReader, Function.update_of_ne hne, Readers.lastAt] using
        h.clientThreadId_eq i
  nodup_thread := by
    refine List.nodup_cons.mpr ⟨fun hmem => ?_, h.nodup_thread⟩
    -- the ids given so far are smaller than the number of the readers
    obtain ⟨r, hr, hthread⟩ := List.mem_map.mp hmem
    exact absurd hthread (Nat.ne_of_lt (h.thread_lt r hr))
  thread_lt := by
    intro r hr
    rw [Readers.createReader, List.length_cons]
    rcases List.mem_cons.mp hr with rfl | hr
    · exact Nat.lt_succ_self _
    · exact Nat.lt_succ_of_lt (h.thread_lt r hr)
  slot_lt := h.slot_lt

theorem nextSlot_lt {j : ℕ} (h : Readers.nextSlot i = some j) : j < Server.totalClients := by
  rw [Readers.nextSlot] at h
  split at h
  next hlt => exact Option.some.inj h ▸ hlt
  next => cases h

theorem TableKept.step (h : TableKept s) (hstep : step a s = some s') : TableKept s' := by
  cases a with
  | accept acceptRet =>
    obtain ⟨-, rfl⟩ := by simpa [Tracking.step] using hstep
    exact ⟨h.clientThreadId_eq, h.nodup_thread, h.thread_lt, h.slot_lt⟩
  | readable fd =>
    obtain ⟨-, rfl⟩ := by simpa [Tracking.step] using hstep
    exact h.createReader fd
  | register now fd groups =>
    obtain ⟨-, rfl⟩ := by simpa [Tracking.step] using hstep
    exact ⟨h.clientThreadId_eq, h.nodup_thread, h.thread_lt, h.slot_lt⟩
  | activity now fd =>
    obtain ⟨-, rfl⟩ := by simpa [Tracking.step] using hstep
    exact ⟨h.clientThreadId_eq, h.nodup_thread, h.thread_lt, h.slot_lt⟩
  | wake =>
    obtain ⟨-, rfl⟩ := by simpa [Tracking.step] using hstep
    refine ⟨h.clientThreadId_eq, h.nodup_thread, h.thread_lt, fun i hi => ?_⟩
    obtain rfl := Option.some.inj hi
    simp [Server.totalClients]
  | timer now =>
    -- the timer cancels threads, and the table keeps their ids
    obtain ⟨i, hi, hround⟩ := Option.bind_eq_some_iff.mp hstep
    obtain ⟨server, hserver, rfl⟩ := Option.map_eq_some_iff.mp hround
    refine ⟨fun j => ?_, h.nodup_thread, h.thread_lt, fun j hj => ?_⟩
    · refine Eq.trans ?_ (h.clientThreadId_eq j)
      rcases Server.timerRound_cases hserver with ⟨-, rfl⟩ | ⟨-, -, rfl⟩ <;> rfl
    · dsimp only at hj
      exact nextSlot_lt hj

/-! ### Runs -/

theorem tableKept_initialReaders : TableKept initialReaders where
  clientThreadId_eq := fun _ => rfl
  nodup_thread := List.nodup_nil
  thread_lt := fun _ hr => absurd hr List.not_mem_nil
  slot_lt := fun _ hi => nomatch hi

/-- The readers are tracked along a run if and only if all its steps meet the condition. -/
theorem tracked_along_iff (as : List Action) :
    Checks step Tracked as initialReaders ↔ Checks step CountMatches as initialReaders :=
  checks_iff_checks (fun _ _ _ h _ hstep => h.step hstep) (fun _ _ h => tracked_iff h)
    tableKept_initialReaders

/-- The first client that is accepted gets the descriptor 5. It registers and is silent. -/
def firstClient : List Action := [.accept 5, .readable 5, .register 0 5 [1], .wake]

/-- The slots before that of the client. -/
def emptySlots : List Action := List.replicate 5 (.timer 121)

/-- Its reader was created while one client was accepted, and no reader has the index 5. -/
theorem not_tracked_firstClient :
    ¬ Checks step Tracked (firstClient ++ emptySlots ++ [.timer 121]) initialReaders := by
  intro h
  have hrun : (run step (firstClient ++ emptySlots) initialReaders).map
      (fun s => (s.slot, s.clientThreadId 5, decide (Expired 121 s.clients 5))) =
        some (some 5, none, true) := by decide +kernel
  obtain ⟨s, hs, heq⟩ := Option.map_eq_some_iff.mp hrun
  simp only [Prod.mk.injEq, decide_eq_true_eq] at heq
  obtain ⟨hslot, hentry, hexpired⟩ := heq
  obtain ⟨-, r, -, hthread⟩ := (h.of_append hs).1 5 hslot hexpired
  exact Option.some_ne_none _ (hthread.symm.trans hentry)

end Multicast.Tracking
