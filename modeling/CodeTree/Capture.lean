import CodeTree.Make

/-!
# Captured values

A closure body reads captured values through a record, the way a compiled closure would.
`Captures` collects them by name and `seal` freezes them into an `Env`, which hands out the
reads. A captured tree is kept as a value and read through a conversion out of its wrapper
type; normalization puts the tree itself in the place of such a read.
-/

namespace CodeTree

/-- The class of capture records. -/
def Ty.captureRecord : Ty := .rootClass "<closure>"

/-- Captured values by name. A later value of a name replaces an earlier one. -/
structure Captures where
  members : List (String × Value) := []

/-- Captures a value. -/
def Captures.value (c : Captures) (name : String) (v : Value) : Captures :=
  ⟨c.members.filter (·.1 != name) ++ [(name, v)]⟩

/-- Captures a tree. -/
def Captures.node (c : Captures) (name : String) (tree : Expr) : Captures :=
  c.value name (.node tree)

/-- A frozen capture record. -/
structure Env where
  record : Expr
  members : List (String × Value)

/-- Freezes the captured values into a record. -/
def Captures.seal (c : Captures) : Make Env := do
  let id ← Make.fresh
  let record ← Expr.constant (.object id .captureRecord (.fields c.members))
  pure ⟨record, c.members⟩

namespace Env

/-- Reads a captured value under a given type. -/
def getAs (env : Env) (name : String) (ty : Ty) : Make Expr :=
  Expr.member (some env.record) ⟨name, .captureRecord, ty, .field⟩

/-- Reads a captured value under its runtime type; an unknown name reads as an `object`. -/
def get (env : Env) (name : String) : Make Expr :=
  env.getAs name (((env.members.lookup name).bind Value.runtimeTy?).getD .object)

/-- Uses a captured tree as an operand of a given type. -/
def node (env : Env) (name : String) (ty : Ty) : Make Expr := do
  let read ← env.getAs name (.node ty)
  read.convert ty

end Env

/-- A closure of one parameter. -/
def Expr.closure {m : Type → Type} [Monad m] [MonadLiftT Make m] (ty : Ty)
    (body : Expr → m Expr) : m Expr := do
  let p ← Param.make ty (some "o")
  let self ← Expr.parameter p
  let e ← body self
  Expr.lambda [p] e

/-- A closure without parameters. -/
def Expr.thunk (body : Expr) : Make Expr := Expr.lambda [] body

end CodeTree
