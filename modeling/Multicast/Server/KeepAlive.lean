import Mathlib.Algebra.Order.Group.Int
import Multicast.Lib.Watchdog
import Multicast.Server.Membership

/-!
# Who is still there

A client sends something once in a minute, and the server stamps the slot of the client
whenever it has read something. The timer visits each slot from time to time, and empties it
if the stamp is more than 120 seconds old.

The slots are therefore watchdogs, whatever else the server does. A client keeps its slot
exactly as long as each visit finds its stamp young enough: if it is heard at least once in
120 seconds it stays, and if it is silent it is removed at most one period of the visits after
the 120 seconds have passed.

## Main definitions

* `Multicast.KeepAlive.Action`, `step` — what the threads of the server do
* `Action.event` — what an action means for a slot

## Main results

* `slot_step` — one step, seen from a slot
* `stays_iff` — a client keeps its slot exactly if the visits are in time
* `stays_of_heard` — so does a client that is heard often enough
* `removed_of_silent` — a silent client is removed

## Implementation notes

An action reads the clock once. The visits of a slot are in no order with those of the other
slots. A visit that would cancel a reader that was never stored ends the server, and the run with
it: a run here is one in which the server goes on.
-/

set_option autoImplicit false

namespace Multicast.KeepAlive

open StepRun Watchdog

/-! ### Runs -/

/-- A registration, the creation of a reader, the stamp that it leaves, a job that is started, the
bookkeeping of a group handler, a result, and a visit of the timer. -/
inductive Action where
  | register (now clientSocketFd : ℤ) (groups : List ℤ)
  | readable (clientCount : ℤ) (thread : ℕ)
  | activity (now clientSd : ℤ)
  | start (jobNumber : ℤ)
  | groupHandler (mgId : ℤ)
  | result (clientSocketFd value jobId : ℤ)
  | timer (now i : ℤ)

def step (lib : MinMax) : Action → Server → Option Server
  | .register now clientSocketFd groups, s =>
    if 0 ≤ clientSocketFd ∧ ValidGroups groups then
      some (s.handleGroupIdRegs now clientSocketFd groups)
    else none
  | .readable clientCount thread, s => some (s.storeReader clientCount thread)
  | .activity now clientSd, s =>
    if 0 ≤ clientSd then some (s.recordActivity now clientSd) else none
  | .start jobNumber, s => some (s.jobAddition jobNumber).2
  | .groupHandler mgId, s => s.groupHandler mgId
  | .result clientSocketFd value jobId, s => s.handleResult lib clientSocketFd value jobId
  | .timer now i, s =>
    if 0 ≤ i ∧ i < Server.totalClients then s.timerRound now i else none

/-- What an action means for a slot that is taken: the client is heard, or the timer looks. -/
def Action.event (i : ℤ) : Action → Option (Event ℤ)
  | .activity now clientSd => if hashFunc clientSd = i then some (.heard now) else none
  | .timer now j => if j = i then some (.checked now) else none
  | .register .. | .readable .. | .start _ | .groupHandler _ | .result .. => none

/-- The events of a slot during a run. -/
def events (i : ℤ) (as : List Action) : List (Event ℤ) := as.filterMap (Action.event i)

/-- The seconds after which a client is given up. -/
def limit : ℤ := 120

variable {lib : MinMax} {s s' : Server} {a : Action} {as front : List Action}
variable {now i fd mgId value jobId period u : ℤ}

theorem eq_timer_of_event (h : a.event i = some (.checked now)) : a = .timer now i := by
  cases a with
  | timer time j =>
    rw [Action.event] at h
    split at h
    next hj =>
      obtain rfl := Event.checked.inj (Option.some.inj h)
      rw [hj]
    next => cases h
  | activity time fd =>
    rw [Action.event] at h
    split at h <;> cases h
  | register time fd groups | readable count thread | start jobNumber | groupHandler mgId
  | result fd value jobId => cases h

/-- A run is cut at an event of the slot. -/
theorem exists_of_events_eq {es es' : List (Event ℤ)}
    (h : events i as = es ++ .checked now :: es') :
    ∃ before after, as = before ++ .timer now i :: after ∧ events i before = es := by
  obtain ⟨first, rest, rfl, hfirst, hrest⟩ := List.filterMap_eq_append_iff.mp h
  obtain ⟨skipped, a, after, rfl, hskipped, ha, -⟩ := List.filterMap_eq_cons_iff.mp hrest
  obtain rfl := eq_timer_of_event ha
  refine ⟨first ++ skipped, after, (List.append_assoc ..).symm, ?_⟩
  rw [events, List.filterMap_append, hfirst, List.filterMap_eq_nil_iff.mpr hskipped,
    List.append_nil]

/-! ### Steps -/

/-- The slot has its descriptor still, and this stamp. -/
structure Stamped (before after : ClientInfo) (timestamp : ℤ) : Prop where
  clientSocketFd : after.clientSocketFd = before.clientSocketFd
  timestamp : after.timestamp = timestamp

theorem Stamped.trans {before between after : ClientInfo} {t t' : ℤ}
    (h : Stamped before between t) (h' : Stamped between after t') : Stamped before after t' :=
  ⟨h'.clientSocketFd.trans h.clientSocketFd, h'.timestamp⟩

/-- What an event does to a slot that is taken. A visit empties it if the stamp is too old. -/
def Effect (before after : ClientInfo) : Option (Event ℤ) → Prop
  | none => Stamped before after before.timestamp
  | some (.heard now) => Stamped before after now
  | some (.checked now) =>
    if now ≤ before.timestamp + limit then Stamped before after before.timestamp
    else after.clientSocketFd = -1

/-- The slots have the descriptors and the stamps that they had. -/
def SameStamps (s s' : Server) : Prop :=
  ∀ i, Stamped (s.clients i) (s'.clients i) (s.clients i).timestamp

theorem sameStamps_groupHandler (h : s.groupHandler mgId = some s') : SameStamps s s' := by
  obtain ⟨arrClients, -, hrecord⟩ := Option.bind_eq_some_iff.mp h
  obtain rfl := Server.eq_of_recordJob hrecord
  intro i
  simp only [Server.markClients, updateClientWithJobAssigned_apply]
  split <;> exact ⟨rfl, rfl⟩

theorem sameStamps_freeClient : SameStamps s (s.freeClient fd jobId) := by
  intro i
  refine ⟨clientSocketFd_updateClientStatusToFree, ?_⟩
  rw [Server.freeClient, updateClientStatusToFree]
  dsimp only
  split
  · by_cases hi : i = hashFunc fd
    · rw [hi, Function.update_self]
    · rw [Function.update_of_ne hi]
  · rfl

theorem sameStamps_handleResult (h : s.handleResult lib fd value jobId = some s') :
    SameStamps s s' := by
  obtain ⟨-, -, ⟨-, rfl⟩ | ⟨-, groupId, finalResult, rfl⟩⟩ := Server.eq_of_handleResult h
  · exact sameStamps_freeClient (s := s.appendResult jobId value)
  · exact sameStamps_freeClient (s := s.appendResult jobId value)

theorem SameStamps.placed (h : SameStamps s s') (hP : Membership.Placed s) :
    Membership.Placed s' := by
  intro i
  rw [(h i).clientSocketFd]
  exact hP i

theorem placed_step (hP : Membership.Placed s) (hstep : step lib a s = some s') :
    Membership.Placed s' := by
  cases a with
  | register now fd groups =>
    obtain ⟨hguard, rfl⟩ := by simpa [step] using hstep
    exact hP.register hguard.1
  | readable clientCount thread =>
    obtain rfl := Option.some.inj hstep
    exact hP
  | activity now fd =>
    obtain ⟨-, rfl⟩ := by simpa [step] using hstep
    exact hP.activity
  | start jobNumber =>
    obtain rfl := Option.some.inj hstep
    exact hP
  | groupHandler mgId => exact (sameStamps_groupHandler hstep).placed hP
  | result fd value jobId => exact (sameStamps_handleResult hstep).placed hP
  | timer now i =>
    obtain ⟨-, hround⟩ := by simpa [step] using hstep
    exact hP.timer hround

/-- One step, seen from a slot that is taken. -/
theorem slot_step (hP : Membership.Placed s) (htaken : (s.clients i).clientSocketFd ≠ -1)
    (hstep : step lib a s = some s') : Effect (s.clients i) (s'.clients i) (a.event i) := by
  cases a with
  | register now fd groups =>
    obtain ⟨-, rfl⟩ := by simpa [step] using hstep
    change Stamped _ _ _
    by_cases hslot : (s.clients (hashFunc fd)).clientSocketFd = -1
    · -- the registration goes to a slot that is empty, and so to another one
      have hne : i ≠ hashFunc fd := fun heq => htaken (heq ▸ hslot)
      rw [Server.clients_register_of_free hslot, Function.update_of_ne hne]
      exact ⟨rfl, rfl⟩
    · rw [Server.clients_register_of_taken hslot]
      exact ⟨rfl, rfl⟩
  | readable clientCount thread =>
    obtain rfl := Option.some.inj hstep
    exact ⟨rfl, rfl⟩
  | activity now fd =>
    obtain ⟨-, rfl⟩ := by simpa [step] using hstep
    rw [Membership.clients_recordActivity]
    by_cases hi : hashFunc fd = i
    · rw [Action.event, if_pos hi, hi, Function.update_self]
      exact ⟨rfl, rfl⟩
    · rw [Action.event, if_neg hi, Function.update_of_ne (Ne.symm hi)]
      exact ⟨rfl, rfl⟩
  | start jobNumber =>
    obtain rfl := Option.some.inj hstep
    exact ⟨rfl, rfl⟩
  | groupHandler mgId => exact sameStamps_groupHandler hstep i
  | result fd value jobId => exact sameStamps_handleResult hstep i
  | timer now j =>
    obtain ⟨-, hround⟩ := by simpa [step] using hstep
    by_cases hexpired : (s.clients j).clientSocketFd ≠ -1 ∧ now - (s.clients j).timestamp > 120
    · rw [Membership.clients_timerRound hP hexpired hround]
      by_cases hj : j = i
      · subst hj
        have hlate : ¬ now ≤ (s.clients j).timestamp + limit := by
          have hold := hexpired.2
          rw [limit]
          omega
        rw [Action.event, if_pos rfl, Effect, if_neg hlate, Function.update_self]
      · rw [Action.event, if_neg hj, Function.update_of_ne (Ne.symm hj)]
        exact ⟨rfl, rfl⟩
    · rw [Membership.timerRound_of_not_expired hexpired hround]
      by_cases hj : j = i
      · subst hj
        have hintime : now ≤ (s.clients j).timestamp + limit := by
          rw [limit]
          by_contra hlate
          exact hexpired ⟨htaken, by omega⟩
        rw [Action.event, if_pos rfl, Effect, if_pos hintime]
        exact ⟨rfl, rfl⟩
      · rw [Action.event, if_neg hj]
        exact ⟨rfl, rfl⟩

/-! ### Runs -/

/-- As long as the visits are in time, the client has its slot, with the stamp of the last time
that it was heard. -/
theorem slot_of_inTime (hP : Membership.Placed s) (htaken : (s.clients i).clientSocketFd ≠ -1)
    (hrun : run (step lib) as s = some s')
    (hintime : InTime limit (s.clients i).timestamp (events i as)) :
    Stamped (s.clients i) (s'.clients i) (lastHeard (s.clients i).timestamp (events i as)) := by
  induction as generalizing s with
  | nil =>
    obtain rfl := Option.some.inj hrun
    exact ⟨rfl, rfl⟩
  | cons a as ih =>
    obtain ⟨s₁, hstep, hrest⟩ := run_cons_eq_some.mp hrun
    have hP₁ := placed_step hP hstep
    have heffect := slot_step hP htaken hstep
    have hnext {t : ℤ} (h : Stamped (s.clients i) (s₁.clients i) t)
        (hin : InTime limit t (events i as)) :
        Stamped (s.clients i) (s'.clients i) (lastHeard t (events i as)) := by
      obtain ⟨hfd, rfl⟩ := h
      exact Stamped.trans ⟨hfd, rfl⟩ (ih hP₁ (hfd ▸ htaken) hrest hin)
    cases hevent : a.event i with
    | none =>
      rw [hevent] at heffect
      rw [events, List.filterMap_cons_none hevent] at hintime ⊢
      exact hnext heffect hintime
    | some e =>
      rw [hevent] at heffect
      rw [events, List.filterMap_cons_some hevent] at hintime ⊢
      cases e with
      | heard now => exact hnext heffect hintime
      | checked now =>
        rw [Effect, if_pos hintime.1] at heffect
        exact hnext heffect hintime.2

theorem placed_of_run (h : run (step lib) front initialServer = some s) : Membership.Placed s :=
  run_invariant (fun _ _ _ hP hstep => placed_step hP hstep) h Membership.placed_initialServer

theorem along_iff_inTime (hP : Membership.Placed s) (hslot : (s.clients i).clientSocketFd = fd)
    (hfd : fd ≠ -1) (hrun : run (step lib) as s = some s') :
    Along (step lib) (fun t => (t.clients i).clientSocketFd = fd) as s ↔
      InTime limit (s.clients i).timestamp (events i as) := by
  induction as generalizing s with
  | nil => exact iff_of_true hslot trivial
  | cons a as ih =>
    obtain ⟨s₁, hstep, hrest⟩ := run_cons_eq_some.mp hrun
    have heffect := slot_step hP (hslot ▸ hfd) hstep
    have hfirst : (∀ s₂, step lib a s = some s₂ →
        Along (step lib) (fun t => (t.clients i).clientSocketFd = fd) as s₂) ↔
          Along (step lib) (fun t => (t.clients i).clientSocketFd = fd) as s₁ :=
      ⟨fun h => h s₁ hstep, fun h s₂ hs₂ => Option.some.inj (hstep.symm.trans hs₂) ▸ h⟩
    rw [Along, and_iff_right hslot, hfirst]
    have hnext {t : ℤ} (h : Stamped (s.clients i) (s₁.clients i) t) :
        Along (step lib) (fun t => (t.clients i).clientSocketFd = fd) as s₁ ↔
          InTime limit t (events i as) := by
      rw [← h.timestamp]
      exact ih (placed_step hP hstep) (h.clientSocketFd.trans hslot) hrest
    cases hevent : a.event i with
    | none =>
      rw [hevent] at heffect
      rw [events, List.filterMap_cons_none hevent]
      exact hnext heffect
    | some e =>
      rw [hevent] at heffect
      rw [events, List.filterMap_cons_some hevent]
      cases e with
      | heard now => exact hnext heffect
      | checked now =>
        rw [Effect] at heffect
        split at heffect
        next hintime => exact (hnext heffect).trans (and_iff_right hintime).symm
        next hlate =>
          -- the visit takes the slot away
          refine iff_of_false (fun halong => hfd ?_) fun hin => hlate hin.1
          rw [← halong.first, heffect]

/-- A client keeps its slot through a run if and only if each visit finds that it was heard in
the last 120 seconds. -/
theorem stays_iff (hfront : run (step lib) front initialServer = some s)
    (htaken : (s.clients i).clientSocketFd ≠ -1) (hrun : run (step lib) as s = some s') :
    Along (step lib) (fun t => (t.clients i).clientSocketFd = (s.clients i).clientSocketFd) as s ↔
      InTime limit (s.clients i).timestamp (events i as) :=
  along_iff_inTime (placed_of_run hfront) rfl htaken hrun

/-- A client has joined at time 0. -/
def joined : Server := initialServer.handleGroupIdRegs 0 5 [1]

theorem run_joined : run (step listMinMax) [.register 0 5 [1]] initialServer = some joined := rfl

theorem stays_iff_joined :
    Along (step listMinMax)
        (fun t => (t.clients 5).clientSocketFd = (joined.clients 5).clientSocketFd)
        [.readable 5 0, .activity 60 5, .timer 130 5, .timer 250 5] joined ↔
      InTime limit (joined.clients 5).timestamp
        (events 5 [.readable 5 0, .activity 60 5, .timer 130 5, .timer 250 5]) :=
  stays_iff run_joined (by decide) rfl

/-- A client keeps its slot if the clock does not go back, and no more than 120 seconds pass from
one time that it is heard to the next, and from the last one to the end. -/
theorem stays_of_heard (hfront : run (step lib) front initialServer = some s)
    (htaken : (s.clients i).clientSocketFd ≠ -1) (hrun : run (step lib) as s = some s')
    (hclock : ((events i as).map Event.time ++ [u]).Pairwise (· ≤ ·))
    (hheard : ((s.clients i).timestamp :: ((events i as).filterMap Event.heardAt ++ [u])).IsChain
      fun a b => b ≤ a + limit) :
    Along (step lib) (fun t => (t.clients i).clientSocketFd = (s.clients i).clientSocketFd) as s :=
  (along_iff_inTime (placed_of_run hfront) rfl htaken hrun).mpr (inTime_of_heard hclock hheard)

/-- The client says so every 60 seconds. -/
theorem stays_of_heard_joined :
    Along (step listMinMax)
      (fun t => (t.clients 5).clientSocketFd = (joined.clients 5).clientSocketFd)
      [.activity 60 5, .activity 120 5, .timer 130 5, .activity 180 5] joined :=
  stays_of_heard (u := 240) run_joined (by decide) rfl (by decide) (by decide)

/-- The visits come at most a period apart, and the client is silent. Then one of them removes
it, at most a period after its stamp has become too old. -/
theorem removed_of_silent (hfront : run (step lib) front initialServer = some s)
    (htaken : (s.clients i).clientSocketFd ≠ -1) (hrun : run (step lib) as s = some s')
    (hsilent : ∀ e ∈ events i as, e.heardAt = none)
    (hperiod : ((s.clients i).timestamp :: (events i as).map Event.time).IsChain
      fun a b => b ≤ a + period)
    (hend : ∃ e ∈ events i as, (s.clients i).timestamp + limit < e.time) :
    ∃ before now after s₁, as = before ++ .timer now i :: after ∧
      (s.clients i).timestamp + limit < now ∧ now ≤ (s.clients i).timestamp + limit + period ∧
      run (step lib) (before ++ [.timer now i]) s = some s₁ ∧
      (s₁.clients i).clientSocketFd = -1 := by
  have hP := placed_of_run hfront
  obtain ⟨es, now, es', hevents, hin, hlate, hsoon⟩ :=
    exists_late_check hsilent hperiod (le_add_of_nonneg_right (by decide)) hend
  obtain ⟨before, after, rfl, hbefore⟩ := exists_of_events_eq hevents
  rw [run_append] at hrun
  obtain ⟨s₀, hrun₀, hrest⟩ := Option.bind_eq_some_iff.mp hrun
  obtain ⟨s₁, hstep, -⟩ := run_cons_eq_some.mp hrest
  refine ⟨before, now, after, s₁, rfl, hlate, hsoon, ?_, ?_⟩
  · rw [run_append, hrun₀, Option.bind_some, run, hstep, Option.bind_some, run]
  · -- until the visit the client has its slot, with the stamp that it had
    obtain ⟨hfd, hstamp⟩ := slot_of_inTime hP htaken hrun₀ (hbefore ▸ hin)
    rw [lastHeard_of_silent fun e he => hsilent e (hevents ▸ List.mem_append_left _ (hbefore ▸ he))]
      at hstamp
    have hP₀ := run_invariant (fun _ _ _ hP hstep => placed_step hP hstep) hrun₀ hP
    have heffect := slot_step hP₀ (hfd ▸ htaken) hstep
    rw [Action.event, if_pos rfl, Effect, hstamp, if_neg (not_le.mpr hlate)] at heffect
    exact heffect

/-- The client is silent, and the slot is visited every 120 seconds. A reader was created while
five clients were accepted. -/
theorem removed_of_silent_joined :
    ∃ before now after s₁,
      [.readable 5 0, .timer 120 5, .activity 200 6, .timer 240 5, .timer 360 5] =
        before ++ .timer now 5 :: after ∧
      (joined.clients 5).timestamp + limit < now ∧
      now ≤ (joined.clients 5).timestamp + limit + 120 ∧
      run (step listMinMax) (before ++ [.timer now 5]) joined = some s₁ ∧
      (s₁.clients 5).clientSocketFd = -1 :=
  removed_of_silent run_joined (by decide) rfl (by decide) (by decide) (by decide)

end Multicast.KeepAlive
