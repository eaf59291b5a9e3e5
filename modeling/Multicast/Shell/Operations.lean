import Multicast.Shell.Command
import Multicast.Transfer.Fields

/-!
# Operations that are started

The operation of a job is a number that the operator types. It is compared with 2 and not
with 1, and a word that is no number counts as 0. Whoever gets the operation, the client that
executes the job and the server that evaluates the results, selects a function of a library
by it; for any number but 1 and 2 there is nothing to call.

## Main definitions

* `Multicast.Shell.Executable` — client and server find their functions
* `StartsExecutable` — a line starts only jobs of this kind
* `OperationFromOne` — the condition on the line

## Main results

* `startsExecutable_iff` — a line starts only executable jobs exactly if it meets the condition
* `not_startsExecutable_zero` — a line that starts another one
-/

set_option autoImplicit false

namespace Multicast.Shell

open HeapBlock

/-! ### The property and the condition -/

/-- The operation is one of the two. The client, when it reads it out of the message of the
server, selects a function to call, and so does the server. -/
structure Executable (operation : ℤ) : Prop where
  known : operation = jobMin ∨ operation = jobMax
  executes : ∀ (al : Allocator) (sfd : ℤ) (jobId : Word) (lib : FileMinMax),
    ∃ minMax, (jobArguments ((executeTlv jobId (.ofInt 32 operation)).call al sfd).data).bind
      (fun arguments => lib.select arguments.2) = some minMax
  evaluates : ∀ lib : MinMax, ∃ minMax, lib.select operation = some minMax

/-- A job that the line starts is executable. -/
def StartsExecutable (line : List Char) : Prop :=
  ∀ jobNumber fileName, commandOf line = .startJob jobNumber fileName → Executable jobNumber

/-- The condition on a line: if it has the form of a start, its third word is a number from
1 on. -/
def OperationFromOne (line : List Char) : Prop :=
  ∀ operation fileName rest,
    (chomp line).splitOn ' ' =
        ['s', 't', 'a', 'r', 't'] :: ['j', 'o', 'b'] :: operation :: fileName :: rest →
      1 ≤ atoi operation

variable {jobNumber : ℤ}

/-! ### Operations -/

/-- The number comes through the message as it is. -/
theorem toInt_operation (h : jobNumber = jobMin ∨ jobNumber = jobMax) :
    (BitVec.ofInt 32 jobNumber).toInt = jobNumber := by
  rcases h with rfl | rfl
  · decide
  · decide

theorem executable_iff : Executable jobNumber ↔ jobNumber = jobMin ∨ jobNumber = jobMax := by
  refine ⟨fun h => h.known, fun h => ⟨h, fun al sfd jobId lib => ?_, fun lib => ?_⟩⟩
  · rw [jobArguments_executeTlv, Option.bind_some]
    exact lib.exists_select (by rwa [toInt_operation h])
  · exact lib.exists_select h

/-- A line starts only executable jobs if and only if its operation is not below 1. -/
theorem startsExecutable_iff (line : List Char) :
    StartsExecutable line ↔ OperationFromOne line := by
  constructor
  · intro h operation fileName rest hline
    by_contra hlow
    have hstart : commandOf line = .startJob (atoi operation) fileName :=
      commandOf_eq_startJob_iff.mpr ⟨operation, rest, hline, rfl, by omega⟩
    rcases executable_iff.mp (h _ _ hstart) with hop | hop
    · exact hlow (by rw [hop]; decide)
    · exact hlow (by rw [hop]; decide)
  · intro h jobNumber fileName hstart
    obtain ⟨operation, rest, hline, rfl, hhigh⟩ := commandOf_eq_startJob_iff.mp hstart
    have hlow := h operation fileName rest hline
    rw [executable_iff, jobMin, jobMax]
    omega

/-- The line `start job 0 f`. -/
def startZeroLine : List Char :=
  ['s', 't', 'a', 'r', 't', ' ', 'j', 'o', 'b', ' ', '0', ' ', 'f']

/-- An operation that nobody knows is started. -/
theorem not_startsExecutable_zero : ¬ StartsExecutable startZeroLine := by
  intro h
  have hstart : commandOf startZeroLine = .startJob 0 ['f'] := by decide +kernel
  exact absurd (h 0 ['f'] hstart).known (by decide)

end Multicast.Shell
