import FsmFabric.Arena
import FsmFabric.Fabric.Step
import FsmFabric.Image.Codec
import FsmFabric.Main
import FsmFabric.Proofs.Compiler.Rest
import FsmFabric.Proofs.Diagram.Join
import FsmFabric.Proofs.Expr.Pass
import FsmFabric.Proofs.Expr.Width
import FsmFabric.Proofs.Expr.Support
import FsmFabric.Proofs.Expr.Dependence
import FsmFabric.Proofs.Bits.History
import FsmFabric.Proofs.Bits.Equality
import FsmFabric.Proofs.Bits.Stack
import FsmFabric.Proofs.Design.Conditional
import FsmFabric.Proofs.Compiler.Faults
import FsmFabric.Proofs.Design.Codec
import FsmFabric.Proofs.Image.Words
import FsmFabric.Proofs.Chip.Program
import FsmFabric.Proofs.Image.Listing
import FsmFabric.Proofs.Machine.Cut
import FsmFabric.Proofs.Design.Balance
import FsmFabric.Proofs.Chip.Accepted
import FsmFabric.Proofs.Chip.Overflow
import FsmFabric.Proofs.Chip.BestFit
import FsmFabric.Proofs.Chip.Selections
import FsmFabric.Proofs.Fabric.Frame
import FsmFabric.Proofs.Diagnostic
import FsmFabric.Proofs.Image.Columns
import FsmFabric.Proofs.Compiler.Spare
