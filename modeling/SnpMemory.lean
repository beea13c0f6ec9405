import SnpMemory.Ghcb.Fields
import SnpMemory.Simulation.Run
import SnpMemory.Transcript.Runs
import SnpMemory.Proofs.ChangeRuns
import SnpMemory.Proofs.Tiling
import SnpMemory.Proofs.Filling
import SnpMemory.Proofs.Marking
import SnpMemory.Proofs.Ordering
import SnpMemory.Proofs.Coverage
import SnpMemory.Proofs.PageMap
import SnpMemory.Proofs.ExchangeRuns
import SnpMemory.Proofs.ExchangeOutcome
import SnpMemory.Proofs.FailStop
import SnpMemory.Proofs.ServedRuns
import SnpMemory.Proofs.Blame
import SnpMemory.Proofs.Processing
import SnpMemory.Proofs.ShownPage
import SnpMemory.Proofs.Buffers
import SnpMemory.Proofs.Brackets
import SnpMemory.Proofs.Work
import SnpMemory.Proofs.Refusals
import SnpMemory.Proofs.Limits
import SnpMemory.Proofs.Sessions
import SnpMemory.Proofs.Instructions
import SnpMemory.Proofs.Scripts
import SnpMemory.Proofs.Discipline
import SnpMemory.Proofs.Termination
import SnpMemory.Proofs.Refilling
import SnpMemory.Proofs.Entrywise
import SnpMemory.Proofs.Pacing
import SnpMemory.Proofs.EntryParts
import SnpMemory.Proofs.RegisterChanges
import SnpMemory.Proofs.PageLayout
import SnpMemory.Proofs.Resuming
import SnpMemory.Proofs.SingleFrames
import SnpMemory.Proofs.ResultCodes
