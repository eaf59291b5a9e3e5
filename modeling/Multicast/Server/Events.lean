import Mathlib.Data.Int.Notation
import Mathlib.Data.Nat.Notation
import Multicast.Lib.StepRun

/-!
# The descriptor of an event

The event loop starts a thread for each descriptor with input, and gives it the address of
the descriptor in the array of the events. The thread reads the descriptor through the
address when it begins to run. The loop does not wait for it: the next call of `epoll_wait`
writes the same array.

As with the arguments of a group handler, the property is about the threads that have read
their descriptor and about those that would read it now.

## Main definitions

* `Multicast.Events.EventLoop` — the array of the events, the loop over it, the threads
* `Action`, `step` — the steps of the loop and of the threads
* `EachServed` — every descriptor that was reported is read by the thread of its event
* `SlotsKept` — the condition on the steps

## Main results

* `eachServed_step_iff` — one step keeps the property exactly if it meets the condition
* `eachServed_along_iff` — so does a run
* `not_eachServed_overwritten` — a run that does not

## Implementation notes

Threads can be created, and `epoll_ctl` adds what is accepted. After an `epoll_ctl` that
fails, the loop ends and only threads take steps.
-/

set_option autoImplicit false

namespace Multicast.Events

open StepRun

/-! ### The event loop -/

/-- `MAXEVENTS`. -/
def maxEvents : ℕ := 1000

/-- `struct epoll_event`, with the bits `EPOLLERR`, `EPOLLHUP` and `EPOLLIN`. -/
structure Event where
  err : Bool
  hup : Bool
  input : Bool
  fd : ℤ
deriving DecidableEq

/-- An event that only reports input. -/
def Event.ofInput (fd : ℤ) : Event := ⟨false, false, true, fd⟩

/-- The first condition of the loop. -/
def Event.failed (e : Event) : Bool := e.err || e.hup || !e.input

/-- The event leads to a thread. -/
def Event.forClient (server : ℤ) (e : Event) : Bool := !e.failed && server != e.fd

/-- A thread in `client_Communication`: the place in the array that it was given, and the
descriptor when it has read it. -/
structure Thread where
  slot : ℕ
  clientSd : Option ℤ
deriving DecidableEq

/-- The state of `add_client_handler` and its threads, in the order in which they were
created. The loop is at the event `i` of `n`. The descriptors that were reported and lead
to a thread are remembered for comparison. -/
structure EventLoop where
  newEvents : ℕ → Event
  i : ℕ
  n : ℕ
  watched : List ℤ
  threads : List Thread
  reported : List ℤ

/-- The loop before the first wait. `calloc` clears the array. -/
def initialEventLoop (server : ℤ) : EventLoop where
  newEvents := fun _ => ⟨false, false, false, 0⟩
  i := 0
  n := 0
  watched := [server]
  threads := []
  reported := []

/-- What can happen. -/
inductive Action where
  | wait (events : List Event)
  | dispatch (accepted : List ℤ)
  | start (k : ℕ)

/-- The descriptors for which a list of events leads to threads. -/
def clientInputs (server : ℤ) (events : List Event) : List ℤ :=
  (events.filter (Event.forClient server)).map Event.fd

/-- `epoll_wait` writes the first entries of the array. -/
def storeEvents (events : List Event) (newEvents : ℕ → Event) (slot : ℕ) : Event :=
  events[slot]?.getD (newEvents slot)

/-- The body of the loop, for one event: an error, a connection, or input of a client. -/
def dispatchEvent (server : ℤ) (accepted : List ℤ) (s : EventLoop) : EventLoop :=
  let e := s.newEvents s.i
  if e.failed then { s with i := s.i + 1, watched := s.watched.erase e.fd }
  else if server = e.fd then { s with i := s.i + 1, watched := s.watched ++ accepted }
  else { s with i := s.i + 1, threads := s.threads ++ [⟨s.i, none⟩] }

/-- One step. A wait reports descriptors that are watched. -/
def step (server : ℤ) : Action → EventLoop → Option EventLoop
  | .wait events, s =>
    if s.n ≤ s.i ∧ events.length ≤ maxEvents ∧ ∀ e ∈ events, e.fd ∈ s.watched then
      some { s with
        newEvents := storeEvents events s.newEvents
        i := 0
        n := events.length
        reported := s.reported ++ clientInputs server events }
    else none
  | .dispatch accepted, s => if s.i < s.n then some (dispatchEvent server accepted s) else none
  | .start k, s =>
    s.threads[k]?.bind fun t =>
      match t.clientSd with
      | some _ => none
      | none => some { s with
        threads := s.threads.set k { t with clientSd := some (s.newEvents t.slot).fd } }

/-! ### The property and the condition -/

/-- The descriptor that a thread has read, or would read now. -/
def Thread.serves (newEvents : ℕ → Event) (t : Thread) : ℤ :=
  t.clientSd.getD (newEvents t.slot).fd

/-- The events of the last wait that the loop has not seen. -/
def EventLoop.pending (s : EventLoop) : List Event :=
  (List.range' s.i (s.n - s.i)).map s.newEvents

/-- The threads serve the descriptors that were reported, each its own and in order, and
what is left is pending. -/
def EachServed (server : ℤ) (s : EventLoop) : Prop :=
  s.threads.map (Thread.serves s.newEvents) ++ clientInputs server s.pending = s.reported

/-- The condition on a step. A wait stores no other descriptor in the place of a thread that
has not read its own. -/
def SlotsKept : Action → EventLoop → Prop
  | .wait events, s => ∀ t ∈ s.threads, t.clientSd = none →
    (storeEvents events s.newEvents t.slot).fd = (s.newEvents t.slot).fd
  | .dispatch _, _ | .start _, _ => True

instance : ∀ (a : Action) (s : EventLoop), Decidable (SlotsKept a s)
  | .wait _, _ => inferInstanceAs (Decidable (∀ _ ∈ _, _))
  | .dispatch _, _ | .start _, _ => .isTrue trivial

variable {server : ℤ} {s s' : EventLoop} {a : Action} {events : List Event} {t : Thread}
variable {newEvents newEvents' : ℕ → Event} {k : ℕ} {accepted : List ℤ}

/-! ### The pending events -/

/-- The array holds the events of the wait. -/
theorem map_storeEvents :
    (List.range' 0 events.length).map (storeEvents events newEvents) = events := by
  apply List.ext_getElem
  · rw [List.length_map, List.length_range']
  · intro slot _ hslot
    rw [List.getElem_map, List.getElem_range', storeEvents, Nat.zero_add, Nat.one_mul,
      List.getElem?_eq_getElem hslot, Option.getD_some]

theorem pending_of_le (h : s.n ≤ s.i) : s.pending = [] := by
  rw [EventLoop.pending, Nat.sub_eq_zero_of_le h, List.range'_zero, List.map_nil]

/-- The loop takes the first of the pending events. -/
theorem pending_of_lt (h : s.i < s.n) :
    s.pending = s.newEvents s.i :: (List.range' (s.i + 1) (s.n - (s.i + 1))).map s.newEvents := by
  rw [EventLoop.pending, show s.n - s.i = s.n - (s.i + 1) + 1 by omega, List.range'_succ,
    List.map_cons]

theorem clientInputs_cons {e : Event} :
    clientInputs server (e :: events) =
      if e.forClient server then e.fd :: clientInputs server events
      else clientInputs server events := by
  rw [clientInputs, List.filter_cons]
  split <;> rfl

/-! ### Steps -/

/-- A thread serves the same descriptor from two arrays if it has read it, or if they agree
in its place. -/
theorem serves_eq_serves_iff : t.serves newEvents' = t.serves newEvents ↔
    (t.clientSd = none → (newEvents' t.slot).fd = (newEvents t.slot).fd) := by
  unfold Thread.serves
  cases t.clientSd with
  | none => simp
  | some fd => simp

/-- A wait keeps the property exactly if it meets the condition. -/
theorem eachServed_wait_iff (hserved : EachServed server s)
    (h : step server (.wait events) s = some s') :
    EachServed server s' ↔ SlotsKept (.wait events) s := by
  rw [step] at h
  split at h
  case isFalse => cases h
  case isTrue hwait =>
    cases Option.some.inj h
    rw [EachServed, pending_of_le hwait.1] at hserved
    change _ ++ clientInputs server (List.map _ (List.range' 0 events.length)) =
      s.reported ++ clientInputs server events ↔ _
    rw [map_storeEvents, ← hserved, List.append_cancel_right_eq]
    change _ = s.threads.map (Thread.serves s.newEvents) ++ [] ↔ _
    rw [List.append_nil, List.map_inj_left]
    exact forall₂_congr fun t _ => serves_eq_serves_iff

/-- The body of the loop keeps the property. -/
theorem eachServed_dispatchEvent (hserved : EachServed server s) (hlt : s.i < s.n) :
    EachServed server (dispatchEvent server accepted s) := by
  rw [EachServed, pending_of_lt hlt, clientInputs_cons] at hserved
  unfold dispatchEvent
  dsimp only
  split
  case isTrue hfailed =>
    -- an error: no thread, and none is expected
    have hclient : ¬ (s.newEvents s.i).forClient server := by simp [Event.forClient, hfailed]
    rwa [if_neg hclient] at hserved
  case isFalse hfailed =>
    split
    case isTrue hserver =>
      have hclient : ¬ (s.newEvents s.i).forClient server := by simp [Event.forClient, hserver]
      rwa [if_neg hclient] at hserved
    case isFalse hserver =>
      have hclient : (s.newEvents s.i).forClient server := by
        simp [Event.forClient, hfailed, hserver]
      rw [if_pos hclient] at hserved
      -- the new thread would read the event that is pending no longer
      change List.map _ (s.threads ++ [Thread.mk s.i none]) ++ _ = s.reported
      rw [List.map_append, List.append_assoc]
      exact hserved

/-- A thread that begins to run reads what it would have read. -/
theorem eachServed_start (hserved : EachServed server s) (h : step server (.start k) s = some s') :
    EachServed server s' := by
  obtain ⟨t, ht, hstart⟩ := Option.bind_eq_some_iff.mp h
  split at hstart
  case h_1 => cases hstart
  case h_2 hunread =>
    cases Option.some.inj hstart
    have hsame : Thread.serves s.newEvents { t with clientSd := some (s.newEvents t.slot).fd } =
        t.serves s.newEvents := by
      rw [Thread.serves, Thread.serves, hunread, Option.getD_some, Option.getD_none]
    change (s.threads.set k _).map _ ++ clientInputs server s.pending = s.reported
    obtain ⟨hk, rfl⟩ := List.getElem?_eq_some_iff.mp ht
    rw [List.map_set, hsame, ← List.getElem_map (Thread.serves s.newEvents),
      List.set_getElem_self]
    · exact hserved
    · rwa [List.length_map]

/-- One step keeps the property exactly if it meets the condition. -/
theorem eachServed_step_iff (hserved : EachServed server s) (h : step server a s = some s') :
    EachServed server s' ↔ SlotsKept a s := by
  cases a with
  | wait events => exact eachServed_wait_iff hserved h
  | dispatch accepted =>
    rw [step] at h
    split at h
    case isFalse => cases h
    case isTrue hlt =>
      cases Option.some.inj h
      exact iff_of_true (eachServed_dispatchEvent hserved hlt) trivial
  | start k => exact iff_of_true (eachServed_start hserved h) trivial

/-! ### Runs -/

theorem eachServed_initialEventLoop : EachServed server (initialEventLoop server) := rfl

/-- Every descriptor that was reported is read by the thread of its event along a run, and
would be on every other way from there, exactly if no wait in it stores another descriptor
in the place of a thread that has not read its own. -/
theorem eachServed_along_iff (server : ℤ) (as : List Action) :
    Along (step server) (EachServed server) as (initialEventLoop server) ↔
      Meets (step server) SlotsKept as (initialEventLoop server) :=
  along_iff_meets (I := fun _ => True) (fun _ _ _ _ _ => trivial)
    (fun _ _ _ _ hserved h => eachServed_step_iff hserved h) trivial eachServed_initialEventLoop

/-- A thread that has read a descriptor has read the one of its event. -/
theorem EachServed.reported_eq (hserved : EachServed server s) {fd : ℤ}
    (ht : s.threads[k]? = some t) (hread : t.clientSd = some fd) : s.reported[k]? = some fd := by
  obtain ⟨hk, rfl⟩ := List.getElem?_eq_some_iff.mp ht
  rw [← hserved, List.getElem?_append_left (by rwa [List.length_map]), List.getElem?_map, ht,
    Option.map_some, Thread.serves, hread, Option.getD_some]

/-- Two clients connect and send. The event of the second overwrites that of the first,
whose thread has not begun to run. -/
def overwrittenRun : List Action :=
  [.wait [.ofInput 3], .dispatch [5, 6], .wait [.ofInput 5], .dispatch [], .wait [.ofInput 6],
    .start 0]

/-- The thread of the first client reads from the second. -/
theorem not_eachServed_overwritten :
    (run (step 3) overwrittenRun (initialEventLoop 3)).map (fun s => (s.threads, s.reported)) =
        some ([⟨0, some 6⟩], [5, 6]) ∧
      ¬ Along (step 3) (EachServed 3) overwrittenRun (initialEventLoop 3) := by
  have hread : (run (step 3) overwrittenRun (initialEventLoop 3)).map
      (fun s => (s.threads, s.reported)) = some ([⟨0, some 6⟩], [5, 6]) := by
    decide +kernel
  refine ⟨hread, fun halong => ?_⟩
  obtain ⟨s', hrun, hstate⟩ := Option.map_eq_some_iff.mp hread
  obtain ⟨hthreads, hreported⟩ := Prod.mk.inj hstate
  have hserved := halong.last hrun
  -- the first descriptor is 5, and its thread has read 6
  have hthread : s'.threads[0]? = some ⟨0, some 6⟩ := congrArg (fun ts => ts[0]?) hthreads
  have hfirst := hserved.reported_eq hthread rfl
  rw [hreported] at hfirst
  exact absurd hfirst (by decide)

end Multicast.Events
