import FlowRecovery.Word
import FlowRecovery.Memory.Segment
import FlowRecovery.Memory.Image
import FlowRecovery.Value
import FlowRecovery.Violation
import FlowRecovery.Operator
import FlowRecovery.Operator.Fold
import FlowRecovery.Expr
import FlowRecovery.Stmt
import FlowRecovery.Stmt.Demand
import FlowRecovery.Machine
import FlowRecovery.Machine.RegFile
import FlowRecovery.Block
import FlowRecovery.Block.Ledger
import FlowRecovery.Builder
import FlowRecovery.Recipe
import FlowRecovery.Recipe.Run
import FlowRecovery.Recipe.Queue
import FlowRecovery.Definitions
import FlowRecovery.Definitions.ReturnDomain
import FlowRecovery.Flow
import FlowRecovery.Tally
import FlowRecovery.Flow.Rule
import FlowRecovery.Flow.Classify
import FlowRecovery.Target
import FlowRecovery.Target.X8664
import FlowRecovery.Target.Arm
import FlowRecovery.Target.Ppc64
import FlowRecovery.Target.RiscV64
import FlowRecovery.Disassembly
import FlowRecovery.Explore
import FlowRecovery.Proofs.Meaning
import FlowRecovery.Proofs.Fold
import FlowRecovery.Proofs.Linear
import FlowRecovery.Proofs.Builder
import FlowRecovery.Proofs.Recipe
import FlowRecovery.Proofs.Undo
import FlowRecovery.Proofs.Disassembly
import FlowRecovery.Proofs.OpenBlock
import FlowRecovery.Proofs.Order
import FlowRecovery.Proofs.Rename
import FlowRecovery.Proofs.Rename.Build
import FlowRecovery.Proofs.Rename.Recipe
import FlowRecovery.Proofs.Rollback
import FlowRecovery.Proofs.Execution
import FlowRecovery.Proofs.Simulation
import FlowRecovery.Proofs.Simulation.Step
import FlowRecovery.Proofs.Refinement
import FlowRecovery.Proofs.Explore
import FlowRecovery.Proofs.Coverage
import FlowRecovery.Proofs.Flow
import FlowRecovery.Proofs.Scope
import FlowRecovery.Proofs.Scope.Build
import FlowRecovery.Proofs.Scope.Disassembly
import FlowRecovery.Proofs.Scope.Classify
import FlowRecovery.Proofs.Scope.Explore
import FlowRecovery.Proofs.Order.Disassembly
import FlowRecovery.Proofs.Failure
import FlowRecovery.Proofs.Runtime
import FlowRecovery.Proofs.Prune
import FlowRecovery.Proofs.Law
import FlowRecovery.Proofs.Runs
import FlowRecovery.Proofs.Irreducible
import FlowRecovery.Proofs.Head
import FlowRecovery.Proofs.Closure
import FlowRecovery.Proofs.SingleAssignment
import FlowRecovery.Proofs.ByteMemory
import FlowRecovery.Proofs.ReturnDomain
import FlowRecovery.Proofs.ReturnSlots
import FlowRecovery.Proofs.Layout
import FlowRecovery.Proofs.Registers
import FlowRecovery.Proofs.Balance
import FlowRecovery.Proofs.Memo
import FlowRecovery.Proofs.Reachable
import FlowRecovery.Proofs.Typing
import FlowRecovery.Proofs.Constant
import FlowRecovery.Proofs.Closed
import FlowRecovery.Proofs.Markers
import FlowRecovery.Proofs.Walk
import FlowRecovery.Proofs.ReturnStores
import FlowRecovery.Proofs.AfterCall
import FlowRecovery.Proofs.Limits
import FlowRecovery.Proofs.Demand
import FlowRecovery.Proofs.Reading
import FlowRecovery.Proofs.Codec
import FlowRecovery.Proofs.Lookup
import FlowRecovery.Proofs.Descent
import FlowRecovery.Proofs.Descent.Recipe
import FlowRecovery.Proofs.Recursion
