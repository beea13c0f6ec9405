/-
# `SnpMemory.Simulation.World` — worlds to run guest programs in

A `Script` holds what the surroundings of a guest will do.  It makes a world for
each level: for changes of memory, for the protocol over the page, and for the
bare processor.
-/
import SnpMemory.Processor
import SnpMemory.Simulation.Hypervisor
import SnpMemory.Simulation.Validator

namespace SnpMemory.Simulation

/-- What the surroundings of a guest will do. -/
structure Script where
  rules : List Rule := []
  /-- The errors of the coming exchanges; past the end they succeed. -/
  exchanges : List (Option ChangeError) := []
  hypervisor : Hypervisor := {}
  register : UInt64 := 0
  /-- The answer of the hypervisor to messages in the register, if it gives any. -/
  response? : Option UInt64 := none

namespace Script

def validate (script : Script) (address : Nat) (size : PageSize) (validation : Validation) :
    Outcome × Script :=
  let (outcome, rules) := consult address size validation script.rules
  (outcome, { script with rules })

def exit (script : Script) (page : Ghcb) : Ghcb × Script :=
  (script.hypervisor.next.apply page,
    { script with hypervisor := script.hypervisor.advanced })

/-- Whether the register says where the page is. -/
def pageAnnounced (script : Script) : Bool := script.register.toNat % 0x1000 == 0

end Script

def changeWorld : Program.World Change.calls Script
  | .pvalidate address size validation, script =>
    let (outcome, script) := script.validate address.val size validation
    (outcome.result, script)
  | .exchange _, script =>
    match script.exchanges with
    | some error :: rest => (.error (.failed error), { script with exchanges := rest })
    | none :: rest => (.ok (), { script with exchanges := rest })
    | [] => (.ok (), script)
  | .terminate, script => ((), script)
  | .log _, script => ((), script)

def protocolWorld : Program.World Protocol.calls Script
  | .pvalidate address size validation, script =>
    let (outcome, script) := script.validate address.val size validation
    (outcome.result, script)
  | .maskInterrupts, script => ((), script)
  | .unmaskInterrupts, script => ((), script)
  | .exit _ page, script => script.exit page
  | .terminate, script => ((), script)
  | .log _, script => ((), script)

/-- The surroundings of the processor.  VMGEXIT hands the page over if the register says
where the page is; otherwise the register holds a message, and may get an answer. -/
def processorWorld : Program.World Processor.calls Script
  | .pvalidate rax ecx edx, script =>
    match PageSize.ofCode? ecx, Validation.ofCode? edx with
    | some size, some validation =>
      let (outcome, script) := script.validate rax size validation
      (outcome.inRegisters, script)
    | _, _ => (Outcome.succeed.inRegisters, script)
  | .cli, script => ((), script)
  | .sti, script => ((), script)
  | .wrmsr _ value, script => ((), { script with register := value })
  | .rdmsr _, script => (script.register, script)
  | .vmgexit, script =>
    if script.pageAnnounced then ((), script)
    else ((), { script with register := script.response?.getD script.register })
  | .vmgexitWith page, script => if script.pageAnnounced then script.exit page else (page, script)
  | .hlt, script => ((), script)
  | .log _, script => ((), script)

end SnpMemory.Simulation
