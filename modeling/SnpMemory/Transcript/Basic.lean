/-
# `SnpMemory.Transcript.Basic` — what happened in a run, as one reads it

A transcript lists the events of a run.  Neighbouring PVALIDATE calls that differ
in the address alone are one item.  Exits show the page as the words that changed
since the last look at it.  Log lines are kept apart.
-/
import SnpMemory.Processor

namespace SnpMemory

namespace Ghcb

/-- Whether two pages have the same bytes in the word at an offset. -/
def agreesAt (g before : Ghcb) (offset : Nat) : Bool :=
  (List.range 8).all fun i => g.byte (offset + i) == before.byte (offset + i)

/-- The words of a page that differ from another page, with their offsets. -/
def changesFrom (g before : Ghcb) : List (Nat × Nat) :=
  (List.range (pageSize / 8)).filterMap fun k =>
    if g.agreesAt before (8 * k) then none else some (8 * k, g.readWord (8 * k) 8)

end Ghcb

namespace Transcript

/-- What PVALIDATE was called with, apart from the address, and how that ended. -/
inductive Validated where
  | byName (size : PageSize) (validation : Validation) (error? : Option PvalidateError)
  | inRegisters (ecx edx : Nat) (eax : UInt32) (carry : Bool)
deriving DecidableEq

def Validated.bytes : Validated → Nat
  | byName size .. => size.bytes
  | inRegisters ecx .. => ((PageSize.ofCode? ecx).getD .small).bytes

inductive Item where
  /-- PVALIDATE calls on consecutive pages. -/
  | pvalidate (first : Nat) (call : Validated) (count : Nat)
  | exchange (entries : List Entry)
  /-- The page goes to the hypervisor, with interrupts off or on. -/
  | exit (gpa : Nat) (masked : Bool) (changes : List (Nat × Nat))
  | maskInterrupts
  | unmaskInterrupts
  | wrmsr (register : Nat) (value : UInt64)
  | rdmsr (register : Nat) (value : UInt64)
  | vmgexit
  | halt
  | terminate (reason : Msr.TerminationReason)

end Transcript

/-- A transcript in the making. -/
structure Transcript where
  /-- The items so far, the latest first. -/
  items : List Transcript.Item := []
  /-- The log lines so far, the latest first. -/
  lines : List LogLine := []
  masked : Bool := false
  /-- The value last written to the protocol register. -/
  register : UInt64 := 0
  /-- The page at the last look. -/
  page : Ghcb

namespace Transcript

def events (t : Transcript) : List Item := t.items.reverse

def log (t : Transcript) : List LogLine := t.lines.reverse

def add (t : Transcript) (item : Item) : Transcript := { t with items := item :: t.items }

def addLine (t : Transcript) (line : LogLine) : Transcript := { t with lines := line :: t.lines }

/-- Adds a PVALIDATE call to the item before it, if it continues that one. -/
def addCall (t : Transcript) (address : Nat) (call : Validated) : Transcript :=
  match t.items with
  | .pvalidate first previous count :: rest =>
    if previous = call ∧ address = (first + count * call.bytes) % wordLimit then
      { t with items := .pvalidate first call (count + 1) :: rest }
    else t.add (.pvalidate address call 1)
  | _ => t.add (.pvalidate address call 1)

/-- Adds an exit with the page, which has been looked at then. -/
def addExit (t : Transcript) (gpa : Nat) (page : Ghcb) : Transcript :=
  { t.add (.exit gpa t.masked (page.changesFrom t.page)) with page }

/-! ## Events of the three levels -/

def error? : Except PvalidateError Unit → Option PvalidateError
  | .ok () => none
  | .error error => some error

def addChange (t : Transcript) : Change.Event → Transcript
  | ⟨.pvalidate address size validation, answer⟩ =>
    t.addCall address.val (.byName size validation (error? answer))
  | ⟨.exchange entries, _⟩ => t.add (.exchange entries)
  | ⟨.terminate, _⟩ => t.add (.terminate .general)
  | ⟨.log line, _⟩ => t.addLine line

def addProtocol (t : Transcript) : Protocol.Event → Transcript
  | ⟨.pvalidate address size validation, answer⟩ =>
    t.addCall address.val (.byName size validation (error? answer))
  | ⟨.maskInterrupts, _⟩ => { t.add .maskInterrupts with masked := true }
  | ⟨.unmaskInterrupts, _⟩ => { t.add .unmaskInterrupts with masked := false }
  | ⟨.exit gpa page, _⟩ => t.addExit gpa.start.val page
  | ⟨.terminate, _⟩ => t.add (.terminate .general)
  | ⟨.log line, _⟩ => t.addLine line

/-- Adds an instruction.  The page is handed over where the register says it is. -/
def addInstruction (t : Transcript) : Processor.Event → Transcript
  | ⟨.pvalidate rax ecx edx, answer⟩ =>
    let (eax, carry) : UInt32 × Bool := answer
    t.addCall rax (.inRegisters ecx edx eax carry)
  | ⟨.cli, _⟩ => { t.add .maskInterrupts with masked := true }
  | ⟨.sti, _⟩ => { t.add .unmaskInterrupts with masked := false }
  | ⟨.wrmsr register value, _⟩ => { t.add (.wrmsr register value) with register := value }
  | ⟨.rdmsr register, value⟩ => t.add (.rdmsr register value)
  | ⟨.vmgexit, _⟩ => t.add .vmgexit
  | ⟨.vmgexitWith page, _⟩ =>
    let left := t.add .vmgexit
    if t.register.toNat % 0x1000 = 0 then left.addExit t.register.toNat page else left
  | ⟨.hlt, _⟩ => t.add .halt
  | ⟨.log line, _⟩ => t.addLine line

end Transcript

end SnpMemory
