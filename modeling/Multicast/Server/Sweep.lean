import Multicast.Server.Membership

/-!
# The sweep of the timer

The timer visits the slots of the table in order. For a client that was silent for more
than 120 seconds it cancels the reader, removes the record and then closes the descriptor that
it reads from the slot. If no reader was ever stored for the slot, the server ends there. The
removal empties the slot in which the descriptor belongs, which is the same slot if the table is
in order: what is closed then is `-1`.

## Main definitions

* `Multicast.Sweep` — the server during a sweep, with the descriptors passed to `close`
* `sweepRound`, `timerPass` — one round of the loop of `timer_handler`, and one pass
* `Expired` — a slot holds a client that was silent too long
* `SweepsExactly` — the pass ends, and closes and clears the expired clients and nothing else

## Main results

* `sweepsExactly_iff` — it does if and only if no client is expired
* `clients_sweepSlots`, `eq_neg_one_of_mem_closed` — what it does to a table in order
* `not_sweepsExactly_silentClient` — a pass over one silent client

## Implementation notes

The clock shows the same time during the pass. Which thread is cancelled for an expired
client is a matter of `Multicast.Tracking`; here it counts that there is one.
-/

set_option autoImplicit false

namespace Multicast

/-- The server during a sweep: `closed` lists the arguments of `close`. -/
structure Sweep extends Server where
  closed : List ℤ

/-- The two tests of a round. -/
def Expired (now : ℤ) (clients : Clients) (i : ℤ) : Prop :=
  (clients i).clientSocketFd ≠ -1 ∧ now - (clients i).timestamp > 120

instance (now : ℤ) (clients : Clients) (i : ℤ) : Decidable (Expired now clients i) :=
  inferInstanceAs (Decidable (_ ∧ _))

/-- One round of the loop of `timer_handler`, if the server survives `pthread_cancel`. The slot
is read once for the removal and once more, after it, for the descriptor to close. -/
def sweepRound (now : ℤ) (s : Sweep) (i : ℤ) : Option Sweep :=
  if Expired now s.clients i then
    (s.clientThreadId i).map fun _ =>
      let s := { s with clients := (removeClient s.clients (s.clients i).clientSocketFd).2 }
      { s with closed := s.closed ++ [(s.clients i).clientSocketFd] }
  else some s

/-- The loop of `timer_handler` over the first slots. -/
def sweepSlots (now : ℤ) (s : Server) (n : ℕ) : Option Sweep :=
  (List.range n).foldl (fun s (i : ℕ) => s.bind fun s => sweepRound now s i)
    (some { s with closed := [] })

/-- One pass of the endless loop, with the value of `client_count`. -/
def timerPass (clientCount : ℕ) (now : ℤ) (s : Server) : Option Sweep :=
  if clientCount ≠ 0 then sweepSlots now s Server.totalClients.toNat
  else some { s with closed := [] }

/-- A slot of the array. -/
def InTable (i : ℤ) : Prop := 0 ≤ i ∧ i < Server.totalClients

/-- The descriptors that were closed are those of the expired clients, and their records,
no others, are removed. -/
structure ClosesExpired (now : ℤ) (before : Server) (after : Sweep) : Prop where
  mem_closed_iff : ∀ fd, fd ≠ -1 →
    (fd ∈ after.closed ↔
      ∃ i, InTable i ∧ Expired now before.clients i ∧ (before.clients i).clientSocketFd = fd)
  clients_eq : ∀ i, InTable i → after.clients i =
    if Expired now before.clients i then (before.clients i).removed else before.clients i

/-- The pass comes to its end, and has closed and removed the expired clients. -/
def SweepsExactly (clientCount : ℕ) (now : ℤ) (s : Server) : Prop :=
  ∃ after, timerPass clientCount now s = some after ∧ ClosesExpired now s after

/-- What a part of the pass can have done. A record that is removed was in its place, and a
descriptor that is closed was not in its place. -/
structure Swept (now : ℤ) (before : Server) (after : Sweep) : Prop where
  clients_eq_or : ∀ i, after.clients i = before.clients i ∨
    hashFunc (before.clients i).clientSocketFd = i ∧ after.clients i = (before.clients i).removed
  exists_of_mem_closed : ∀ fd ∈ after.closed, fd ≠ -1 →
    ∃ i, InTable i ∧ Expired now before.clients i ∧ (before.clients i).clientSocketFd = fd ∧
      hashFunc fd ≠ i

variable {now fd i : ℤ} {s : Server} {t t' : Sweep} {n : ℕ}

/-! ### One round -/

theorem not_expired_removed {clients : Clients} {info : ClientInfo}
    (h : clients i = info.removed) : ¬ Expired now clients i := by
  intro hexpired
  rw [Expired, h] at hexpired
  exact hexpired.1 rfl

/-- A round does to the server what the timer does to it. -/
theorem map_toServer_sweepRound :
    (sweepRound now t i).map Sweep.toServer = t.toServer.timerRound now i := by
  by_cases hexpired : Expired now t.clients i
  · rw [sweepRound, if_pos hexpired, Server.timerRound, if_pos (by exact hexpired)]
    cases t.clientThreadId i <;> rfl
  · rw [sweepRound, if_neg hexpired, Server.timerRound, if_neg (by exact hexpired), Option.map_some]

theorem sweepRound_of_not_expired (h : ¬ Expired now t.clients i) : sweepRound now t i = some t :=
  if_neg h

theorem clients_sweepRound (h : Expired now t.clients i) (hround : sweepRound now t i = some t') :
    t'.clients = (removeClient t.clients (t.clients i).clientSocketFd).2 := by
  rw [sweepRound, if_pos h] at hround
  obtain ⟨thread, -, rfl⟩ := Option.map_eq_some_iff.mp hround
  rfl

/-- What is closed is read after the removal: it is `-1` for a client in its place, since the
slot is empty then, and the descriptor for a client in another slot. -/
theorem closed_sweepRound (h : Expired now t.clients i) (hround : sweepRound now t i = some t') :
    t'.closed = t.closed ++
      [if hashFunc (t.clients i).clientSocketFd = i then -1 else (t.clients i).clientSocketFd] := by
  rw [sweepRound, if_pos h] at hround
  obtain ⟨thread, -, rfl⟩ := Option.map_eq_some_iff.mp hround
  change t.closed ++ [((removeClient t.clients _).2 i).clientSocketFd] = _
  rw [removeClient_apply]
  by_cases hplace : hashFunc (t.clients i).clientSocketFd = i
  · rw [if_pos ⟨hplace, rfl⟩, if_pos hplace]
    rfl
  · rw [if_neg fun hcond => hplace hcond.1, if_neg hplace]

/-- A slot that was not emptied before the round is as it was at the beginning. -/
theorem Swept.eq_of_expired (h : Swept now s t) (hexpired : Expired now t.clients i) :
    t.clients i = s.clients i :=
  (h.clients_eq_or i).resolve_right fun hremoved => not_expired_removed hremoved.2 hexpired

/-- One round adds to what was done what such a round can do. -/
theorem Swept.sweepRound (h : Swept now s t) (hi : InTable i)
    (hround : sweepRound now t i = some t') : Swept now s t' := by
  by_cases hexpired : Expired now t.clients i
  · have hslot := h.eq_of_expired hexpired
    constructor
    · intro j
      rw [clients_sweepRound hexpired hround, removeClient_apply]
      split
      next hj =>
        -- the slot has the descriptor still, so that it was not emptied before
        have hsame : t.clients j = s.clients j := by
          refine (h.clients_eq_or j).resolve_right fun hremoved => hexpired.1 ?_
          rw [← hj.2, hremoved.2]
          rfl
        rw [← hsame, hj.2]
        exact .inr ⟨hj.1, rfl⟩
      next => exact h.clients_eq_or j
    · intro fd hfd hne
      rw [closed_sweepRound hexpired hround] at hfd
      rcases List.mem_append.mp hfd with hfd | hfd
      · exact h.exists_of_mem_closed fd hfd hne
      · obtain rfl := List.mem_singleton.mp hfd
        by_cases hplace : hashFunc (t.clients i).clientSocketFd = i
        · exact absurd (if_pos hplace) hne
        · rw [if_neg hplace]
          rw [Expired, hslot] at hexpired
          exact ⟨i, hi, hexpired, by rw [hslot], hplace⟩
  · rw [sweepRound_of_not_expired hexpired] at hround
    exact Option.some.inj hround ▸ h

/-! ### A pass -/

theorem sweepSlots_succ :
    sweepSlots now s (n + 1) = (sweepSlots now s n).bind fun t => sweepRound now t n := by
  rw [sweepSlots, List.range_succ, List.foldl_append]
  rfl

/-- An invariant of the rounds holds at the end of the pass. -/
theorem sweepSlots_induction {P : Sweep → Prop} (hstart : P { s with closed := [] })
    (hround : ∀ t t' i, InTable i → P t → sweepRound now t i = some t' → P t')
    (hn : n ≤ Server.totalClients) (h : sweepSlots now s n = some t) : P t := by
  induction n generalizing t with
  | zero => exact Option.some.inj h ▸ hstart
  | succ n ih =>
    rw [sweepSlots_succ] at h
    obtain ⟨t₀, ht₀, hlast⟩ := Option.bind_eq_some_iff.mp h
    exact hround t₀ t n ⟨by omega, by omega⟩ (ih (by omega) ht₀) hlast

theorem timerPass_of_ne_zero {clientCount : ℕ} (h : clientCount ≠ 0) :
    timerPass clientCount now s = sweepSlots now s Server.totalClients.toNat := if_pos h

private theorem toNat_totalClients_le : (Server.totalClients.toNat : ℤ) ≤ Server.totalClients := by
  decide

theorem swept_sweepSlots (hn : n ≤ Server.totalClients) (h : sweepSlots now s n = some t) :
    Swept now s t := by
  refine sweepSlots_induction ⟨fun i => .inl rfl, ?_⟩
    (fun t t' i hi ht hround => ht.sweepRound hi hround) hn h
  exact fun fd hfd => absurd hfd List.not_mem_nil

/-- A pass that meets no expired client does nothing. -/
theorem sweepSlots_of_not_expired (h : ∀ i, InTable i → ¬ Expired now s.clients i)
    (hn : n ≤ Server.totalClients) : sweepSlots now s n = some { s with closed := [] } := by
  induction n with
  | zero => rfl
  | succ n ih =>
    rw [sweepSlots_succ, ih (by omega), Option.bind_some]
    exact sweepRound_of_not_expired (h n ⟨by omega, by omega⟩)

/-- No pass treats an expired client as it should. If its record is removed, the client was
in its place, and so was every expired client with the descriptor. None of their rounds
closes it then. -/
theorem not_closesExpired_of_expired (hswept : Swept now s t) (hi : InTable i)
    (hexpired : Expired now s.clients i) : ¬ ClosesExpired now s t := by
  intro h
  -- every expired client is in its place, since its record was removed
  have hplace : ∀ j, InTable j → Expired now s.clients j →
      hashFunc (s.clients j).clientSocketFd = j := by
    intro j hj hjexpired
    have hremoved := h.clients_eq j hj
    rw [if_pos hjexpired] at hremoved
    rcases hswept.clients_eq_or j with hsame | ⟨hhash, -⟩
    · exact absurd hjexpired (not_expired_removed (hsame.symm.trans hremoved))
    · exact hhash
  -- but the round that closed the descriptor found it in another slot
  have hclosed := (h.mem_closed_iff _ hexpired.1).mpr ⟨i, hi, hexpired, rfl⟩
  obtain ⟨j, hj, hjexpired, hjfd, hmisplaced⟩ :=
    hswept.exists_of_mem_closed _ hclosed hexpired.1
  apply hmisplaced
  rw [← hjfd]
  exact hplace j hj hjexpired

/-- So no pass over a table with an expired client does, whether the server survives it or not. -/
theorem not_sweepsExactly_of_expired {clientCount : ℕ} (hcount : clientCount ≠ 0)
    (hi : InTable i) (hexpired : Expired now s.clients i) :
    ¬ SweepsExactly clientCount now s := by
  rintro ⟨after, hpass, hcloses⟩
  rw [timerPass_of_ne_zero hcount] at hpass
  exact not_closesExpired_of_expired (swept_sweepSlots toNat_totalClients_le hpass) hi hexpired
    hcloses

/-- A pass of the timer closes and removes exactly the expired clients if and only if there
are none. -/
theorem sweepsExactly_iff {clientCount : ℕ} (hcount : clientCount ≠ 0) (now : ℤ) (s : Server) :
    SweepsExactly clientCount now s ↔ ∀ i, InTable i → ¬ Expired now s.clients i := by
  constructor
  · intro h i hi hexpired
    exact not_sweepsExactly_of_expired hcount hi hexpired h
  · intro h
    refine ⟨_, (timerPass_of_ne_zero hcount).trans
      (sweepSlots_of_not_expired h toNat_totalClients_le), ?_, ?_⟩
    · intro fd _
      refine ⟨fun hfd => absurd hfd List.not_mem_nil, ?_⟩
      rintro ⟨i, hi, hexpired, -⟩
      exact absurd hexpired (h i hi)
    · intro i hi
      rw [if_neg (h i hi)]

/-- A client that was heard of 60 seconds ago stays. -/
theorem sweepsExactly_activeClient :
    SweepsExactly 1 60 (initialServer.handleGroupIdRegs 0 5 [1]) := by
  refine (sweepsExactly_iff Nat.one_ne_zero 60 _).mpr fun i _ hexpired => ?_
  rw [Server.clients_register_of_free rfl] at hexpired
  obtain ⟨hne, hold⟩ := hexpired
  by_cases hi : i = hashFunc 5
  · subst hi
    rw [Function.update_self] at hold
    exact absurd hold (by decide)
  · rw [Function.update_of_ne hi] at hne
    exact hne rfl

/-- A client that registered 121 seconds ago is expired. The reader of its slot was created while
five clients were accepted. -/
theorem not_sweepsExactly_silentClient :
    ¬ SweepsExactly 5 121 ((initialServer.handleGroupIdRegs 0 5 [1]).storeReader 5 0) :=
  have hslot : InTable 5 := ⟨by decide, by decide⟩
  not_sweepsExactly_of_expired (by decide) hslot (by decide)

/-! ### A table in order -/

/-- In a table in order, the records of the expired clients are removed and the others
stay. -/
theorem clients_sweepSlots (hP : Membership.Placed s) (h : sweepSlots now s n = some t) (i : ℤ) :
    t.clients i =
      if i < n ∧ 0 ≤ i ∧ Expired now s.clients i then (s.clients i).removed
      else s.clients i := by
  induction n generalizing t i with
  | zero =>
    obtain rfl := Option.some.inj h
    rw [if_neg (by omega)]
  | succ n ih =>
    rw [sweepSlots_succ] at h
    obtain ⟨t₀, ht₀, hlast⟩ := Option.bind_eq_some_iff.mp h
    -- this round finds its slot as it was at the beginning
    have hslot : t₀.clients n = s.clients n := by
      rw [ih ht₀, if_neg (by omega)]
    by_cases hexpired : Expired now s.clients n
    · have hnow : Expired now t₀.clients n := by rwa [Expired, hslot]
      have hplace : hashFunc (t₀.clients n).clientSocketFd = n := by
        rw [hslot]
        exact (hP n hexpired.1).1
      rw [clients_sweepRound hnow hlast, removeClient_of_place hplace]
      by_cases hi : i = n
      · subst hi
        rw [Function.update_self, hslot, if_pos ⟨by omega, by omega, hexpired⟩]
      · have hlt : i < (n + 1 : ℕ) ↔ i < n := by omega
        rw [Function.update_of_ne hi, ih ht₀]
        simp only [hlt]
    · rw [sweepRound_of_not_expired (by rwa [Expired, hslot])] at hlast
      obtain rfl := Option.some.inj hlast
      rw [ih ht₀]
      by_cases hi : i = n
      · subst hi
        rw [if_neg fun h => hexpired h.2.2, if_neg fun h => hexpired h.2.2]
      · have hlt : i < (n + 1 : ℕ) ↔ i < n := by omega
        simp only [hlt]

/-- But every call of `close` has the argument `-1`. -/
theorem eq_neg_one_of_mem_closed (hP : Membership.Placed s) (hn : n ≤ Server.totalClients)
    (h : sweepSlots now s n = some t) (hfd : fd ∈ t.closed) : fd = -1 := by
  by_contra hne
  obtain ⟨i, -, hexpired, hslot, hmisplaced⟩ :=
    (swept_sweepSlots hn h).exists_of_mem_closed fd hfd hne
  exact hmisplaced (hslot ▸ (hP i hexpired.1).1)

end Multicast
