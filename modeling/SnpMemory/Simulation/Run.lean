/-
# `SnpMemory.Simulation.Run` — running guest programs by a script

Each function runs a program of one level and returns its result, the script as it
is afterwards and the transcript.  Programs of the protocol can be run as they are
or in instructions.
-/
import SnpMemory.Simulation.World
import SnpMemory.Transcript.Basic

namespace SnpMemory.Simulation

structure Run (α : Type) where
  result : α
  script : Script
  transcript : Transcript

/-- Runs a program in a world, and writes its events down. -/
def runIn {I : Interface} {α : Type} (world : Program.World I Script)
    (add : Transcript → I.Event → Transcript) (page : Ghcb) (script : Script)
    (program : Program I α) : Run α :=
  let (result, script, events) := program.run world script #[]
  { result, script, transcript := events.foldl add { page } }

def runChange {α : Type} (script : Script) (program : Program Change.calls α) : Run α :=
  runIn changeWorld Transcript.addChange .zero script program

/-- Runs instructions; `page` is the communication page at the last look. -/
def runProcessor {α : Type} (page : Ghcb) (script : Script) (program : Processor.Code α) : Run α :=
  runIn processorWorld Transcript.addInstruction page script program

/-- Runs a program of the protocol, in instructions if `onProcessor` is set.  The processor has
interrupts on at first. -/
def runProtocol {α : Type} (onProcessor : Bool) (page : Ghcb) (script : Script)
    (program : Program Protocol.calls α) : Run α :=
  if onProcessor then runProcessor page script (Processor.run true program)
  else runIn protocolWorld Transcript.addProtocol page script program

end SnpMemory.Simulation
