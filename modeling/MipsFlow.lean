import MipsFlow.Cli.Directory
import MipsFlow.Cursor.Session
import MipsFlow.Main
import MipsFlow.Optimizer.Bench
import MipsFlow.Record
import MipsFlow.Proofs.GuardedPeephole
import MipsFlow.Proofs.CopyPropagation
import MipsFlow.Proofs.Preservation
import MipsFlow.Proofs.DeadCodeElimination
import MipsFlow.Proofs.DefinitionPaths
import MipsFlow.Proofs.ForeignLabels
import MipsFlow.Proofs.Partition
import MipsFlow.Proofs.StaleFacts
import MipsFlow.Proofs.AddressTaken
import MipsFlow.Proofs.Verbosity
import MipsFlow.Proofs.Idempotence
import MipsFlow.Proofs.RoundTrip
import MipsFlow.Proofs.Convergence
import MipsFlow.Proofs.Identities
import MipsFlow.Proofs.Rejections
import MipsFlow.Proofs.TrapPreservation
import MipsFlow.Proofs.RenamedReads
import MipsFlow.Proofs.ForeignValues
import MipsFlow.Proofs.LiveViews
import MipsFlow.Proofs.FoldedArithmetic
import MipsFlow.Proofs.DepthFirst
import MipsFlow.Proofs.ValueNumbers
import MipsFlow.Proofs.RegisterNames
import MipsFlow.Proofs.GraphShape
import MipsFlow.Proofs.Attempts.Runs
import MipsFlow.Proofs.FaithfulCursors
import MipsFlow.Proofs.FixedRegisters
