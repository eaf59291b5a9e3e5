import Multicast.Tlv.Connection
import Multicast.Transfer.Fields

/-!
# What the readers pass on

The client and the server call `read` and pass the result to `assemble_tlv`, which takes it
as an unsigned number of bytes. The loop of the client ends at the result 0 and passes on
every other one, `-1` too. The server looks at `errno`, and then at a variable that it never
set.

## Main definitions

* `Multicast.Readers.Outcome` — the outcome of a `read`
* `AssembleCall` — a call of `assemble_tlv`, with the result of the read before it
* `processJob`, `ReaderThread.clientCommunication` — the calls of the two readers
* `AssembleCall.Received` — the call is for the bytes that were read, and no others

## Main results

* `received_ofOutcome_iff` — a call is for what was read exactly if the read did not fail
* `readers_received_iff` — the reads after which all calls of the readers are
* `not_received_reset` — a failed read whose result is passed on
* `clientCommunication_ofRead` — the thread of a read that does not fail

## Implementation notes

The state of the receiver is set anew whenever the inner loop of `process_job` ends. No test
of a reader looks at it, nor at what `assemble_tlv` returns, so it is left out here.
-/

set_option autoImplicit false

namespace Multicast.Readers

/-- The outcome of a `read` of up to `size` bytes: the bytes, or the error. -/
inductive Outcome (size : ℕ) where
  | got (bytes : List UInt8) (length_le : bytes.length ≤ size)
  | failed (errno : ℤ)

namespace Outcome

variable {size : ℕ}

/-- The result of the call. -/
def result : Outcome size → ℤ
  | got bytes _ => bytes.length
  | failed _ => -1

/-- The buffer after the call. -/
def store (buff : List UInt8) : Outcome size → List UInt8
  | got bytes _ => bytes ++ buff.drop bytes.length
  | failed _ => buff

/-- The value of `errno` after the call. -/
def errnoAfter (errno : ℤ) : Outcome size → ℤ
  | got .. => errno
  | failed errno' => errno'

/-- The read failed. -/
def Failed : Outcome size → Prop
  | got .. => False
  | failed _ => True

end Outcome

/-- A call of `assemble_tlv`. The field `r` is the result of the read before the call. -/
structure AssembleCall where
  r : ℤ
  recvBuff : List UInt8
  Bufflen : Word

/-- The call for an outcome: the result is converted to an unsigned number. -/
def AssembleCall.ofOutcome {size : ℕ} (buff : List UInt8) (o : Outcome size) : AssembleCall where
  r := o.result
  recvBuff := o.store buff
  Bufflen := BitVec.ofInt 32 o.result

/-- The call is for the bytes that were read, and the buffer holds that many. -/
structure AssembleCall.Received (c : AssembleCall) : Prop where
  nonneg : 0 ≤ c.r
  bufflen_eq : (c.Bufflen.toNat : ℤ) = c.r
  bufflen_le : c.Bufflen.toNat ≤ c.recvBuff.length

/-- The calls of `process_job`, with its buffer. At the result 0 the inner loop ends; the
outer one clears the buffer and starts it again. -/
def processJob : List UInt8 → List (Outcome tlvBuffSize) → List AssembleCall
  | _, [] => []
  | recvbuff, o :: os =>
    if o.result = 0 then processJob (List.replicate maxSize 0) os
    else AssembleCall.ofOutcome recvbuff o :: processJob (o.store recvbuff) os

/-- A thread that runs `client_Communication`: `errno` when it begins, the value that its
variable `read_size` happens to have, and the outcome of its read. -/
structure ReaderThread where
  errno : ℤ
  readSize : ℤ
  outcome : Outcome arrayReceivedSize

/-- The call of `client_Communication`. -/
def ReaderThread.clientCommunication (th : ReaderThread) : Option AssembleCall :=
  let arrayreceived := List.replicate arrayReceivedSize 0
  if th.outcome.errnoAfter th.errno = eagain then none
  else if th.readSize = -1 then none
  else some (AssembleCall.ofOutcome arrayreceived th.outcome)

/-- Every call of the readers is for what was read: the loop of the client, and each thread
of the server. -/
structure AllReceived (os : List (Outcome tlvBuffSize)) (threads : List ReaderThread) :
    Prop where
  processJob : ∀ c ∈ processJob (List.replicate maxSize 0) os, c.Received
  clientCommunication : ∀ th ∈ threads, ∀ c ∈ th.clientCommunication, c.Received

/-- The condition on the outcomes. No read of the client fails, and a read of the server
fails with `EAGAIN`, or where `read_size` happens to be `-1`. -/
structure NoFailurePassed (os : List (Outcome tlvBuffSize)) (threads : List ReaderThread) :
    Prop where
  processJob : ∀ o ∈ os, ¬ o.Failed
  clientCommunication : ∀ th ∈ threads, th.outcome.Failed →
    th.outcome.errnoAfter th.errno = eagain ∨ th.readSize = -1

variable {size : ℕ} {buff : List UInt8} {o : Outcome size} {th : ReaderThread}

/-! ### One call -/

theorem length_store (h : size ≤ buff.length) : (o.store buff).length = buff.length := by
  cases o with
  | got bytes length_le =>
    rw [Outcome.store, List.length_append, List.length_drop]
    omega
  | failed errno => rfl

/-- A call is for what was read exactly if the read did not fail. The result `-1` becomes
the largest unsigned number. -/
theorem received_ofOutcome_iff (hbuff : size ≤ buff.length) (hsize : size < 2 ^ 32) :
    (AssembleCall.ofOutcome buff o).Received ↔ ¬ o.Failed := by
  have hlength : (AssembleCall.ofOutcome buff o).recvBuff.length = buff.length :=
    length_store hbuff
  cases o with
  | got bytes length_le =>
    have hlt : bytes.length < 2 ^ 32 := Nat.lt_of_le_of_lt length_le hsize
    have hlen : (AssembleCall.ofOutcome buff (.got bytes length_le)).Bufflen.toNat =
        bytes.length := by
      change (BitVec.ofInt 32 (bytes.length : ℤ)).toNat = _
      rw [BitVec.ofInt_natCast, BitVec.toNat_ofNat, Nat.mod_eq_of_lt hlt]
    refine iff_of_true ⟨Int.natCast_nonneg _, ?_, ?_⟩ id
    · rw [hlen]
      rfl
    · rw [hlen, hlength]
      exact Nat.le_trans length_le hbuff
  | failed errno =>
    refine iff_of_false (fun h => ?_) (not_not.mpr trivial)
    have hnonneg : (0 : ℤ) ≤ -1 := h.nonneg
    omega

/-- A read whose result is 0 did not fail. -/
theorem not_failed_of_result_eq_zero (h : o.result = 0) : ¬ o.Failed := by
  cases o with
  | got bytes length_le => exact id
  | failed errno =>
    change (-1 : ℤ) = 0 at h
    omega

/-! ### The two readers -/

/-- The loop of the client passes on every failed read. -/
theorem received_processJob_iff {recvbuff : List UInt8} {os : List (Outcome tlvBuffSize)}
    (hbuff : tlvBuffSize ≤ recvbuff.length) :
    (∀ c ∈ processJob recvbuff os, c.Received) ↔ ∀ o ∈ os, ¬ o.Failed := by
  induction os generalizing recvbuff with
  | nil => simp [processJob]
  | cons o os ih =>
    rw [processJob, List.forall_mem_cons]
    split
    next hzero =>
      -- the buffer is cleared, and there is no call
      rw [ih (by rw [List.length_replicate]; decide)]
      exact (and_iff_right (not_failed_of_result_eq_zero hzero)).symm
    next =>
      -- the call is made whether the read failed or not, and the loop goes on
      rw [List.forall_mem_cons, received_ofOutcome_iff hbuff (by decide)]
      exact and_congr_right fun _ => ih (by rw [length_store hbuff]; exact hbuff)

/-- A thread of the server passes on a failed read if neither test stops it. -/
theorem received_clientCommunication_iff :
    (∀ c ∈ th.clientCommunication, c.Received) ↔
      (th.outcome.Failed → th.outcome.errnoAfter th.errno = eagain ∨ th.readSize = -1) := by
  rw [ReaderThread.clientCommunication]
  split
  next heagain => exact iff_of_true (fun _ hc => nomatch hc) fun _ => .inl heagain
  next heagain =>
    split
    next hreadSize => exact iff_of_true (fun _ hc => nomatch hc) fun _ => .inr hreadSize
    next hreadSize =>
      -- neither test looks at the result of the read
      simp only [Option.mem_some_iff, forall_eq', heagain, hreadSize, or_self]
      exact received_ofOutcome_iff (by rw [List.length_replicate]) (by decide)

/-- The calls of the readers are for what was read, whatever the outcomes of the reads, if
and only if no failure is passed on. -/
theorem readers_received_iff (os : List (Outcome tlvBuffSize)) (threads : List ReaderThread) :
    AllReceived os threads ↔ NoFailurePassed os threads := by
  have hclient : (∀ c ∈ processJob (List.replicate maxSize 0) os, c.Received) ↔
      ∀ o ∈ os, ¬ o.Failed :=
    received_processJob_iff (by rw [List.length_replicate]; decide)
  constructor
  · rintro ⟨hprocessJob, hthreads⟩
    exact ⟨hclient.mp hprocessJob,
      fun th hth => received_clientCommunication_iff.mp (hthreads th hth)⟩
  · rintro ⟨hprocessJob, hthreads⟩
    exact ⟨hclient.mpr hprocessJob,
      fun th hth => received_clientCommunication_iff.mpr (hthreads th hth)⟩

/-- `ECONNRESET`. -/
def econnreset : ℤ := 104

/-- The connection of the client is reset: the next call is for `2 ^ 32 - 1` bytes. -/
theorem not_received_reset : ¬ AllReceived [.failed econnreset] [] := by
  intro h
  have hcall := h.processJob (.ofOutcome (List.replicate maxSize 0) (.failed econnreset))
    List.mem_cons_self
  exact absurd hcall.nonneg (by decide)

/-! ### The reads of a connection -/

/-- The thread of a read. -/
def ReaderThread.ofRead (rd : Read) : ReaderThread where
  errno := rd.errno
  readSize := rd.readSize
  outcome := .got rd.buff.bytes rd.length_le

/-- The thread of a read that does not fail passes on its bytes with their length, or
drops them. -/
theorem clientCommunication_ofRead {rd : Read} (h : ¬ rd.dropped) :
    ∃ c ∈ (ReaderThread.ofRead rd).clientCommunication,
      c.recvBuff.take rd.buff.bytes.length = rd.buff.bytes ∧ c.Bufflen = rd.buff.len := by
  obtain ⟨herrno, hreadSize⟩ := not_or.mp h
  refine ⟨.ofOutcome (List.replicate arrayReceivedSize 0) (.got rd.buff.bytes rd.length_le), ?_,
    List.take_left, BitVec.ofInt_natCast ..⟩
  simp [ReaderThread.clientCommunication, ReaderThread.ofRead, Outcome.errnoAfter, herrno,
    hreadSize]

end Multicast.Readers
