import CodeTree.Make
import CodeTree.Expr.Fold

/-!
# Rewriting trees

A `Rewriter` says what becomes of a node; `Rewriter.rewrite` carries it through a
tree. A node whose children all come back identical is kept as it is, so untouched
parts of a tree stay shared; otherwise a new node of the same shape and type takes
the new children.
-/

namespace CodeTree

/-- The hooks of a rewriting pass in the monad `m`. Those for calls, member reads,
conversions and lambdas receive the action that would rewrite the children, and may
run it or not; `convert` also receives the rewriting of its operand alone. -/
structure Rewriter (m : Type → Type) [Monad m] where
  /-- Runs first at every node. -/
  visit : Expr → m Unit := fun _ => pure ()
  parameter : Expr → Param → m Expr := fun e _ => pure e
  call : Expr → m Expr → m Expr := fun _ children => children
  member : Expr → m Expr → m Expr := fun _ children => children
  convert : Expr → m Expr → m Expr → m Expr := fun _ _ children => children
  lambda : Expr → m Expr → m Expr := fun _ children => children
  /-- Runs before the children of a node that declares variables. -/
  enter : List Param → m Unit := fun _ => pure ()
  /-- Runs after the children of a node that declares variables. -/
  leave : List Param → m Unit := fun _ => pure ()

namespace Expr

/-- Whether a layer holds the identical children. -/
def hasChildren (e : Expr) (layer : Shape Value Expr) : Bool :=
  layer.children.map Expr.id == e.children.map Expr.id

/-- The node with a new layer of its own shape: itself when the children are the
identical ones. -/
def withLayer (e : Expr) (layer : Shape Value Expr) : Make Expr :=
  if e.hasChildren layer then pure e else make layer e.ty

end Expr

namespace Rewriter

variable {m : Type → Type} [Monad m] [MonadLiftT Make m]

/-- Rewrites the children of a node, in order, and keeps its shape and type. -/
def rebuild (r : Rewriter m) (e : Expr) (layer : Shape Value (Expr × m Expr)) : m Expr := do
  let declared := layer.bindings
  if declared.isEmpty then
    let layer ← layer.mapM Prod.snd
    e.withLayer layer
  else
    r.enter declared
    let layer ← layer.mapM Prod.snd
    r.leave declared
    e.withLayer layer

/-- One step of a pass: the hook for the node's shape decides. -/
def step (r : Rewriter m) (e : Expr) (layer : Shape Value (Expr × m Expr)) : m Expr := do
  r.visit e
  match layer with
  | .parameter p => r.parameter e p
  | .call .. => r.call e (r.rebuild e layer)
  | .member .. => r.member e (r.rebuild e layer)
  | .convert _ operand => r.convert e operand.2 (r.rebuild e layer)
  | .lambda .. => r.lambda e (r.rebuild e layer)
  | _ => r.rebuild e layer

/-- Carries a pass through a tree. -/
def rewrite (r : Rewriter m) : Expr → m Expr := Expr.fold r.step

end Rewriter

end CodeTree
