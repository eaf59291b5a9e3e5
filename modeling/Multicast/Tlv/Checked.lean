import Multicast.Tlv.Lifetimes

/-!
# Calls that use no released block

`assemble_tlv` keeps the pointer to a payload of an unknown type that it has released. The pass
that gives this pointer to `free` or `realloc` is the last one that the code determines: the C
library ends the program there. A checked pass ends without a result instead, and a call returns
if its checked passes do.

Two kinds of calls fail. A message of an unknown type ends in the buffer: if there are five bytes
it is parsed again at once, and its block is released twice; in a shorter buffer it is not
consumed either, but the call returns, and leaves the pointer behind with a part of a header. The
other kind are the calls in which this header ends.

## Main definitions

* `Multicast.checkedPass` — a pass, ended where it would use a released block
* `Call` — a call of `assemble_tlv` that returns without having used one
* `Reached` — the states left by earlier calls that returned

## Main results

* `call_iff` — the calls that return are those of the unchecked loop that use no released block
* `returnsConsuming_iff` — when a call returns with every message consumed
-/

set_option autoImplicit false

namespace Multicast

open HeapBlock GotoLoop

instance {al : Allocator} {b : RecvBuff} : DecidablePred (UsesReleased al b) := fun s =>
  inferInstanceAs (Decidable (∃ op ∈ passOps al b.bytes b.len s, op.pointer = .freed))

/-- A pass of the loop, on a heap that ends the program when a released block is passed to
`free` or `realloc`. -/
def checkedPass (al : Allocator) (fd : ℤ) (b : RecvBuff) :
    Body TLVState (Option (ℕ × TLVState)) Event :=
  guarded (UsesReleased al b) (passOn al fd b)

/-- A call of `assemble_tlv` on `b`, in state `s`, returns in state `s'`. -/
def Call (al : Allocator) (fd : ℤ) (b : RecvBuff) (s s' : TLVState) (ev : List Event) : Prop :=
  ∃ code, Returns (checkedPass al fd b) s (some (code, s')) ev

/-- The states that `init_tlv_state` and calls that returned lead to. -/
inductive Reached (al : Allocator) : TLVState → Prop
  | init : Reached al initTlvState
  | call {fd : ℤ} {b : RecvBuff} {s s' : TLVState} {ev : List Event} :
      Reached al s → Call al fd b s s' ev → Reached al s'

variable {al : Allocator} {fd : ℤ} {b : RecvBuff} {s s' : TLVState} {ev : List Event}

/-- The checks take away the calls that use a released block, and change no other. -/
theorem call_iff :
    Call al fd b s s' ev ↔ Assembles al fd b s s' ev ∧ ¬ CallUsesReleased al fd b s := by
  constructor
  · rintro ⟨code, hret⟩
    obtain ⟨hret, hsafe⟩ := returns_guarded_iff.mp hret
    exact ⟨⟨code, hret⟩, fun ⟨s₁, harrives, huses⟩ => hsafe s₁ harrives huses⟩
  · rintro ⟨⟨code, hret⟩, hsafe⟩
    exact ⟨code, returns_guarded_iff.mpr
      ⟨hret, fun s₁ harrives huses => hsafe ⟨s₁, harrives, huses⟩⟩⟩

theorem Reached.orderly (h : Reached al s) : Orderly s := by
  induction h with
  | init => exact orderly_initTlvState
  | call _ hcall ih => exact ih.of_assembles (call_iff.mp hcall).1

/-- The header of a message of type 0. -/
def unknownHeaderBuff : RecvBuff := ⟨[0, 0, 0, 0, 2], by decide⟩

/-- Its payload, too short to be a header. -/
def unknownPayloadBuff : RecvBuff := ⟨[4, 0], by decide⟩

/-- The state between the two. -/
def unknownHeaderState : TLVState :=
  { initTlvState with
    currentTlvHeader := ⟨0, 2⟩
    remainingBytes := 2
    tlvIsComplete := false
    tlvData := .block [] }

/-- The state behind a message that was not consumed: its payload is taken for the start of a
header, and its block was released. -/
def keptState : TLVState :=
  { initTlvState with
    currentTlvHeader := ⟨4, 0⟩
    lenBytesProcessed := 1
    lenIsNotComplete := true
    tlvHeaderIsComplete := false
    tlvData := .freed }

/-- So calls that return can leave a pointer to a released block, -/
theorem reached_keptState : Reached .exact keptState := by
  have hheader : Call .exact 4 unknownHeaderBuff initTlvState unknownHeaderState
      [.memcpy 5 0 0 []] := ⟨tlvContinue, .ret rfl⟩
  have hpass : checkedPass .exact 4 unknownPayloadBuff unknownHeaderState =
      (.goto { initTlvState with currentTlvHeader := ⟨0, 2⟩, tlvData := .freed },
        [.memcpy 0 0 2 [4, 0], .discard 0 2]) := rfl
  have hpayload : Call .exact 4 unknownPayloadBuff unknownHeaderState keptState _ :=
    ⟨tlvContinue, .goto hpass (.ret rfl)⟩
  exact .call (.call .init hheader) hpayload

/-- and the call that ends the header uses it. -/
theorem not_call_keptState {s' : TLVState} (hb : 3 ≤ b.bytes.length) :
    ¬ Call .exact fd b keptState s' ev := by
  intro hcall
  refine (call_iff.mp hcall).2 (reached_keptState.orderly.usesReleased_in_call_iff.mpr ?_)
  rw [if_pos (show keptState.tlvData = .freed from rfl)]
  exact Nat.add_le_add_left hb 1

end Multicast
