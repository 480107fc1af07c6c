import ByteLift.Proofs.Bytecode.Reachable
import ByteLift.Proofs.Lift.ParallelMoves
import ByteLift.Proofs.Lift.Negation
import ByteLift.Proofs.Lift.Balance
import ByteLift.Proofs.Cleanup.Inline
import ByteLift.Proofs.Ty.Position
import ByteLift.Proofs.Decompiler.Members
import ByteLift.Proofs.Decompiler.Stages
import ByteLift.Proofs.Lift.Exceptions
import ByteLift.Proofs.Cleanup.CopyChains
import ByteLift.Proofs.Cleanup.LoopLocals
import ByteLift.Proofs.Cleanup.Construct
import ByteLift.Proofs.Nested.Settle
import ByteLift.Proofs.Scope.Orders
import ByteLift.Proofs.Catalog.Fields
import ByteLift.Proofs.Source.Names
import ByteLift.Proofs.Source.Reading
import ByteLift.Proofs.Source.StringLiteral
import ByteLift.Proofs.Source.Imports
import ByteLift.Proofs.Decompiler.Nesting
import ByteLift.Proofs.Nested.Targets
import ByteLift.Proofs.Semantics.Substitution
