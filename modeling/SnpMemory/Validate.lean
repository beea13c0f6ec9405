/-
# `SnpMemory.Validate` — PVALIDATE for every page of a list of entries

The pages that become the guest's own are validated, the pages that become
shared lose that mark.  Entries are handled in order and the first failure ends
the run.  One failure is expected: the reverse map table may hold a 2MiB block as
4KiB pages, and then the block is handled as 512 pages of that size.

The surroundings only need PVALIDATE and a log, so this works over every
interface that has both (`Validating`).
-/
import SnpMemory.Entry
import SnpMemory.Guest
import SnpMemory.Log

namespace SnpMemory

/-- Interfaces with PVALIDATE and a log. -/
class Validating (I : Interface) where
  pvalidate : PhysAddr → PageSize → Validation → Program I (Except PvalidateError Unit)
  log : LogLine → Program I Unit

section

variable {I : Interface} [Validating I] {σ : Type}

/-- Sets the mark of one page; any failure is final. -/
def validatePage (address : PhysAddr) (size : PageSize) (validation : Validation) :
    Guest I σ Unit := do
  match ← Guest.perform (Validating.pvalidate address size validation) with
  | .ok () => pure ()
  | .error error => .fail (.pvalidate address size validation error)

/-- Sets the mark of 4KiB pages, given by their numbers after a first page. -/
def validateSmallPages (first : PhysAddr) (validation : Validation) :
    List Nat → Guest I σ Unit
  | [] => pure ()
  | n :: rest =>
    match first.add? (n * PageSize.small.bytes) with
    | none => .fault .beyondMemory
    | some address => do
      validatePage address .small validation
      validateSmallPages first validation rest

def smallPagesPerLarge : Nat := 512

/-- Sets the mark of the page at an address, as 4KiB pages if it has to be. -/
def validateBlock (address : PhysAddr) (size : PageSize) (validation : Validation) :
    Guest I σ Unit := do
  match ← Guest.perform (Validating.pvalidate address size validation) with
  | .ok () => pure ()
  | .error error =>
    if error = .sizeMismatch ∧ size = .large then do
      Guest.perform (Validating.log (.splitting address))
      validateSmallPages address validation (List.range smallPagesPerLarge)
    else .fail (.pvalidate address size validation error)

/-- Sets the mark of the page of one entry as its assignment demands. -/
def validateEntry (entry : Entry) : Guest I σ Unit :=
  match entry.assignment? with
  | none => .fail (.invalidEntry entry.raw.toNat)
  | some assignment => validateBlock entry.address entry.size assignment.validation

/-- Sets the mark of the pages of all entries, in order. -/
def validateEntries : List Entry → Guest I σ Unit
  | [] => pure ()
  | entry :: rest => do
    validateEntry entry
    validateEntries rest

end

end SnpMemory
