import OutOfOrder.Main
import OutOfOrder.Proofs.Success
import OutOfOrder.Proofs.ProgramOrder
import OutOfOrder.Proofs.Window
import OutOfOrder.Proofs.Queue
import OutOfOrder.Proofs.Steady
import OutOfOrder.Proofs.StraightRun
import OutOfOrder.Proofs.Dataflow
import OutOfOrder.Proofs.Circulation
import OutOfOrder.Proofs.Staffing
import OutOfOrder.Proofs.Squash
import OutOfOrder.Proofs.Effects
import OutOfOrder.Proofs.Coherence
import OutOfOrder.Proofs.Turns
import OutOfOrder.Proofs.Phases
import OutOfOrder.Proofs.Manning
import OutOfOrder.Proofs.Run
import OutOfOrder.Proofs.CommitOrder
import OutOfOrder.Proofs.Recording
import OutOfOrder.Proofs.Refinement
import OutOfOrder.Proofs.Accesses
import OutOfOrder.Proofs.MemoryOrder
import OutOfOrder.Proofs.Speculation
import OutOfOrder.Proofs.Preservation
import OutOfOrder.Proofs.Correspondence
import OutOfOrder.Proofs.Confinement
import OutOfOrder.Proofs.Safety
import OutOfOrder.Proofs.Progress
import OutOfOrder.Proofs.Schedule
import OutOfOrder.Proofs.Occupancy
import OutOfOrder.Proofs.Timekeeping
import OutOfOrder.Proofs.Aliases
import OutOfOrder.Proofs.Conservation
import OutOfOrder.Proofs.Faults
import OutOfOrder.Proofs.Integrity
import OutOfOrder.Proofs.Resources
import OutOfOrder.Proofs.Lifecycle
import OutOfOrder.Proofs.Rollback
import OutOfOrder.Proofs.CutOff
import OutOfOrder.Proofs.NormalForm
import OutOfOrder.Proofs.Grammar
import OutOfOrder.Proofs.Loading
import OutOfOrder.Proofs.Printing
import OutOfOrder.Proofs.TakenBranch
import OutOfOrder.Proofs.Timestamps
import OutOfOrder.Proofs.Timesheet
import OutOfOrder.Proofs.Handover
import OutOfOrder.Proofs.Accounting
import OutOfOrder.Proofs.Punctuality
import OutOfOrder.Proofs.PunctualRuns
