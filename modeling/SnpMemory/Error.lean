/-
# `SnpMemory.Error` — how a change of page state can fail

`ChangeError` lists the errors a caller can be told about, with their wording.
`Fault` lists the arithmetic limits that stop a guest on the spot, without an
error to return.  `Stop` is either of them, or the end of the guest.
-/
import SnpMemory.Page

namespace SnpMemory

/-- Errors after which the guest cannot safely go on. -/
inductive ChangeError where
  | pvalidate (address : PhysAddr) (size : PageSize) (validation : Validation)
      (error : PvalidateError)
  /-- An entry has an operation code that stands for no assignment. -/
  | invalidEntry (entry : Nat)
  /-- A request to the hypervisor has no entries. -/
  | noEntries
  /-- A request to the hypervisor has more entries than the shared buffer holds. -/
  | tooManyEntries (count : Nat)
  /-- The hypervisor reported that the exit itself failed. -/
  | exitFailed (code : Nat)
  | requestRejected (code : Nat)
  /-- The hypervisor left a cursor it must not leave. -/
  | cursorTampered (current last : Nat)
  /-- The request was not done within the permitted number of exits. -/
  | exitLimitExceeded (limit : Nat)
  | invalidRange (start : PhysAddr) (pageCount : Nat)
  /-- There is no room for even one entry. -/
  | emptyBuffer
deriving DecidableEq

def ChangeError.message : ChangeError → String
  | .pvalidate address size validation error =>
    s!"PVALIDATE of {address.describe} ({size.name}, {validation.name}) failed: {error.name}"
  | .invalidEntry entry => s!"Entry {hex entry} does not contain a valid page operation"
  | .noEntries => "Page State Change request has no entries"
  | .tooManyEntries count =>
    s!"Page State Change request has {count} entries, more than a single request can hold"
  | .exitFailed code => s!"VMGEXIT returned error code {hex code}"
  | .requestRejected code =>
    s!"Hypervisor rejected the Page State Change request with code {hex code}"
  | .cursorTampered current last =>
    s!"Hypervisor moved the request cursor to {current} with end entry {last}"
  | .exitLimitExceeded limit =>
    s!"Page State Change request did not complete within {limit} exits"
  | .invalidRange start pageCount =>
    s!"{pageCount} pages starting at {start.describe} do not fit in guest-physical memory"
  | .emptyBuffer => "Page State Change entry buffer is empty"

/-- Limits whose violation stops the guest on the spot. -/
inductive Fault where
  /-- A sum does not fit in a 64-bit word. -/
  | wordOverflow
  /-- An address lies beyond guest-physical memory. -/
  | beyondMemory
  /-- A write would leave the shared buffer. -/
  | beyondSharedBuffer
deriving DecidableEq

/-- Why a guest program ended before its last step. -/
inductive Stop where
  | failed (error : ChangeError)
  | fault (fault : Fault)
  | terminated
deriving DecidableEq

/-- Exclusive upper bound of the numbers in a 64-bit word. -/
def wordLimit : Nat := 0x10000000000000000

/-- The sum of two 64-bit words, which must be a 64-bit word again. -/
def addWord (a b : Nat) : Except Fault Nat :=
  if a + b < wordLimit then .ok (a + b) else .error .wordOverflow

theorem addWord_of_lt {a b : Nat} (h : a + b < wordLimit) : addWord a b = .ok (a + b) :=
  if_pos h

theorem addWord_of_le {a b : Nat} (h : wordLimit ≤ a + b) :
    addWord a b = .error .wordOverflow :=
  if_neg (Nat.not_lt.2 h)

/-- A number, if a 64-bit word can hold it. -/
def word? (n : Nat) : Option Nat := if n < wordLimit then some n else none

theorem word?_eq_some_iff {n m : Nat} : word? n = some m ↔ n < wordLimit ∧ n = m := by
  unfold word?
  split <;> simp [*]

end SnpMemory
