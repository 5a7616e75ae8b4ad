import AluPlacement.Alu.Assign
import AluPlacement.Alu.Report
import AluPlacement.Instruction.Build
import AluPlacement.Logic.Expr
import AluPlacement.Main
import AluPlacement.Proofs.Admission.Exact
import AluPlacement.Proofs.Block.History
import AluPlacement.Proofs.Branch.Idempotence
import AluPlacement.Proofs.Branch.Meaning
import AluPlacement.Proofs.Branch.Order
import AluPlacement.Proofs.Branch.Outcome
import AluPlacement.Proofs.Branch.Reduction
import AluPlacement.Proofs.Logic.Canonicity
import AluPlacement.Proofs.Logic.Grammar
import AluPlacement.Proofs.Logic.RowByRow
import AluPlacement.Proofs.Logic.Stored
import AluPlacement.Proofs.Operation.Call
import AluPlacement.Proofs.Placement.Commutation
import AluPlacement.Proofs.Placement.Complete
import AluPlacement.Proofs.Placement.Consistency
import AluPlacement.Proofs.Placement.Destinations
import AluPlacement.Proofs.Placement.Permanence
import AluPlacement.Proofs.Placement.Reports
import AluPlacement.Proofs.Resource.Naming
import AluPlacement.Proofs.Signal.Answers
import AluPlacement.Proofs.Signal.Derivation
import AluPlacement.Proofs.Signal.Reachable
import AluPlacement.Proofs.Program.Addition
import AluPlacement.Proofs.Placement.Sharing
import AluPlacement.Proofs.Program.Built
import AluPlacement.Proofs.Program.Invariant
import AluPlacement.Proofs.Program.References
import AluPlacement.Proofs.Program.Foreign
import AluPlacement.Proofs.Signal.Delay
import AluPlacement.Proofs.Signal.Nesting
