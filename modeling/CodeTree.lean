import CodeTree.Ty
import CodeTree.Decimal.Shortest
import CodeTree.Decimal.Text
import CodeTree.Handle
import CodeTree.Shape
import CodeTree.Fault
import CodeTree.Expr
import CodeTree.Expr.Fold
import CodeTree.Expr.Text
import CodeTree.Expr.Free
import CodeTree.Expr.Walk
import CodeTree.Make
import CodeTree.Rewrite
import CodeTree.Substitute
import CodeTree.Scope
import CodeTree.Host
import CodeTree.Machine
import CodeTree.Operator
import CodeTree.Eval
import CodeTree.Compile
import CodeTree.BuildError
import CodeTree.Normalize
import CodeTree.Capture
import CodeTree.Builder.Block
import CodeTree.Builder.Condition
import CodeTree.Builder.Switch
import CodeTree.Builder.Guard
import CodeTree.Builder.Loop
import CodeTree.Phrase
import CodeTree.Double.Mock
import CodeTree.Double.Bench
import CodeTree.Text.Canonical
import CodeTree.Proofs.Layer
import CodeTree.Proofs.Store
import CodeTree.Proofs.Likeness
import CodeTree.Proofs.Mention
import CodeTree.Proofs.Similarity
import CodeTree.Proofs.Simulation
import CodeTree.Proofs.SameTree
import CodeTree.Proofs.Whole
import CodeTree.Proofs.Mirror
import CodeTree.Proofs.ScopeIndependence
import CodeTree.Proofs.ScopeSafety
import CodeTree.Proofs.Alone
import CodeTree.Proofs.Reduction
import CodeTree.Proofs.Traversal
import CodeTree.Proofs.NormalizeSound
import CodeTree.Proofs.Sequence
import CodeTree.Proofs.Lockstep
import CodeTree.Proofs.Fuel
import CodeTree.Proofs.Unwinding
import CodeTree.Proofs.Dispatch
import CodeTree.Proofs.Selection
import CodeTree.Proofs.Forwarding
import CodeTree.Proofs.Nesting
import CodeTree.Proofs.Independence
import CodeTree.Proofs.Pinned
import CodeTree.Proofs.Disposal
import CodeTree.Proofs.ExtraFrame
import CodeTree.Proofs.Correspondence
import CodeTree.Proofs.Stock
import CodeTree.Proofs.Substitution
import CodeTree.Proofs.Resolution
import CodeTree.Proofs.Description
import CodeTree.Proofs.Occurrence
import CodeTree.Proofs.FreeOccurrence
import CodeTree.Proofs.Splicing
import CodeTree.Proofs.Screening
import CodeTree.Proofs.Binding
import CodeTree.Proofs.Unwrapping
import CodeTree.Proofs.ConstantSubstitution
import CodeTree.Proofs.CompiledPath
import CodeTree.Proofs.SwitchBodies
import CodeTree.Proofs.Abstention
import CodeTree.Proofs.Chronicle
import CodeTree.Proofs.FoldedOnce
import CodeTree.Proofs.Collection
import CodeTree.Proofs.Provenance
import CodeTree.Proofs.Unresolved
import CodeTree.Proofs.Ancestry
import CodeTree.Proofs.Declaration
import CodeTree.Proofs.JumpOrigin
import CodeTree.Proofs.Interposition
import CodeTree.Proofs.WhileLoop
import CodeTree.Proofs.Restraint
import CodeTree.Proofs.InPlace
import CodeTree.Proofs.Invocation
import CodeTree.Proofs.Spelling
import CodeTree.Proofs.Strictness
import CodeTree.Proofs.OperandOrder
import CodeTree.Proofs.Conversion
import CodeTree.Proofs.ExactArithmetic
import CodeTree.Proofs.ScopeHistory
import CodeTree.Proofs.Enumeration
import CodeTree.Proofs.Printer
import CodeTree.Proofs.Indentation
