import JumpCode.Main
import JumpCode.Proofs.Lowering.Labels
import JumpCode.Proofs.Lowering.Declared
import JumpCode.Proofs.Semantics.Preservation
import JumpCode.Proofs.Syntax.Acceptance
import JumpCode.Proofs.Machine.Limits
import JumpCode.Proofs.Machine.Jumps
import JumpCode.Proofs.Semantics.Safety
import JumpCode.Proofs.Semantics.Independence
import JumpCode.Proofs.Machine.ImplicitReturn
import JumpCode.Proofs.Lowering.Diagnostics
import JumpCode.Proofs.Command.Agreement
import JumpCode.Proofs.Ast.Links
import JumpCode.Proofs.Semantics.Expressions
import JumpCode.Proofs.Machine.Registers
import JumpCode.Proofs.Machine.BackJumps
import JumpCode.Proofs.Ast.Findings
import JumpCode.Proofs.Lowering.Mistakes
import JumpCode.Proofs.Lowering.Relocation
import JumpCode.Proofs.Lowering.Renaming
import JumpCode.Proofs.Lowering.Census
import JumpCode.Proofs.Machine.Blame
import JumpCode.Proofs.Machine.Division
import JumpCode.Proofs.Code.Listing
import JumpCode.Proofs.Syntax.Totality
import JumpCode.Proofs.Ast.PostOrder
import JumpCode.Proofs.Syntax.Recursion
import JumpCode.Proofs.Lowering.Growth
import JumpCode.Proofs.Text.JsonReading
import JumpCode.Proofs.Code.JsonListing
