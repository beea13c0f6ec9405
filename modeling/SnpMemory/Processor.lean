/-
# `SnpMemory.Processor` — the guest in terms of processor instructions

Here the requests are privileged instructions.  `serve` carries out what the
protocol over the communication page asks for (`Protocol.Call`): an exit writes
the address of the page to the protocol register and leaves with VMGEXIT, and the
result codes of PVALIDATE are turned into errors.  The register alone is enough to
change a single page and to end the guest.

What turns interrupts off and on is not part of the program.  It is a library
function, `without_interrupts`, and it is taken at its documentation: it looks at
the interrupt flag when it is entered, turns interrupts off if they are on, runs
what it was given, and turns them on again if they were on before.  So there is a
CLI and an STI if the flag was set, and neither if it was not.  What it finds is a
parameter here, `interrupts`.  One value does for a whole run, since the function
leaves the flag as it was and no other instruction touches it; that this is so is
shown where the flag is followed along the instructions (`Processor.Keeps`).
-/
import SnpMemory.Msr
import SnpMemory.Protocol

namespace SnpMemory.Processor

/-! ## Instructions -/

/-- The instructions that matter here, with their operands. -/
inductive Call where
  | pvalidate (rax ecx edx : Nat)
  | cli
  | sti
  | wrmsr (register : Nat) (value : UInt64)
  | rdmsr (register : Nat)
  | vmgexit
  /-- Leaves to the hypervisor, which may find this page and change it. -/
  | vmgexitWith (page : Ghcb)
  | hlt
  /-- A log line; no instruction, but it has its place among them. -/
  | log (line : LogLine)

/-- What each instruction leaves behind: PVALIDATE a code in EAX and the carry flag. -/
@[reducible] def Call.Answer : Call → Type
  | pvalidate .. => UInt32 × Bool
  | cli => Unit
  | sti => Unit
  | wrmsr .. => Unit
  | rdmsr _ => UInt64
  | vmgexit => Unit
  | vmgexitWith _ => Ghcb
  | hlt => Unit
  | log _ => Unit

abbrev calls : Interface := ⟨Call, Call.Answer⟩

/-- An instruction with what it left behind. -/
abbrev Event : Type := calls.Event

abbrev Code (α : Type) : Type := Program calls α

def execute (call : Call) : Code call.Answer := Program.request (I := calls) call

/-! ## PVALIDATE -/

/-- What a code in EAX and the carry flag mean.  Without an error code, a carry says
that the mark was there already. -/
def pvalidateResult (eax : UInt32) (carry : Bool) : Except PvalidateError Unit :=
  if eax.toNat = 0 then
    if carry then .error .notUpdated else .ok ()
  else .error ((PvalidateError.ofCode? eax.toNat).getD .unknownResult)

def pvalidate (address : Nat) (size : PageSize) (validation : Validation) :
    Code (Except PvalidateError Unit) := do
  let (eax, carry) ← execute (.pvalidate address size.code validation.code)
  pure (pvalidateResult eax carry)

instance : Validating calls where
  pvalidate address := pvalidate address.val
  log line := execute (.log line)

/-! ## The protocol register -/

/-- Puts a message into the protocol register. -/
def write (message : Msr.Message) : Code Unit := execute (.wrmsr Msr.register message.value)

/-- Sends a message that needs no page. -/
def send (message : Msr.Message) : Code Unit := do
  write message
  execute .vmgexit

/-- Has the hypervisor change the page at an address. -/
def changePage (address : PhysAddr) (assignment : Assignment) :
    Code (Except Msr.PageError Unit) :=
  match Msr.changePageAt address assignment with
  | .error error => pure (.error error)
  | .ok message => do
    send message
    let value ← execute (.rdmsr Msr.register)
    pure (Msr.pageChanged value)

/-- Tells the hypervisor where the communication page is. -/
def announcePage (address : PhysAddr) : Code (Except SetupError Unit) :=
  match Protocol.pageAddress address with
  | .error error => pure (.error error)
  | .ok gpa => .ok <$> send (.pageAt gpa)

/-- Ends the guest: asks the hypervisor for it, and halts in case that has no effect. -/
def terminate : Code Unit := do
  send (.terminate .general)
  execute .hlt

/-! ## The protocol over the page -/

/-- Gives the page to the hypervisor and gets it back. -/
def exit (gpa : Frame .small) (page : Ghcb) : Code Ghcb := do
  write (.pageAt gpa)
  execute (.vmgexitWith page)

/-- The instructions of a request.  `interrupts` says whether interrupts are on outside of the
requests that mask and unmask them. -/
def serve (interrupts : Bool) : (call : Protocol.Call) → Code call.Answer
  | .pvalidate address size validation => pvalidate address.val size validation
  | .maskInterrupts => if interrupts then execute .cli else pure ()
  | .unmaskInterrupts => if interrupts then execute .sti else pure ()
  | .exit gpa page => exit gpa page
  | .terminate => terminate
  | .log line => execute (.log line)

/-- A program of the protocol in instructions, for a processor whose interrupts are on at first,
or off. -/
def run {α : Type} (interrupts : Bool) (program : Program Protocol.calls α) : Code α :=
  program.interpret (I := Protocol.calls) (serve interrupts)

end SnpMemory.Processor
