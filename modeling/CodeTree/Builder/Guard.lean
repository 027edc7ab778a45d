import CodeTree.Builder.Block

/-!
# Building guarded regions

A `GuardBuilder` collects a body, catch clauses in the order in which they are tried, and a last
part that runs on every way out. `usingResource` is built on it: it keeps a resource in a variable
of its own and disposes of that variable when the body is left, however it is left.
-/

namespace CodeTree

structure GuardBuilder where
  body : Option Expr := none
  handlers : List (Handler Expr) := []
  cleanup : Option Expr := none
  error : Option BuildError := none

namespace GuardBuilder

/-- Remembers a mistake, unless there is one already. -/
def latch (b : GuardBuilder) (error : BuildError) : GuardBuilder :=
  { b with error := b.error <|> some error }

/-- Sets the body. -/
def setBody (b : GuardBuilder) (body : Expr) : GuardBuilder := { b with body := some body }

/-- Sets the part that runs on every way out. -/
def setCleanup (b : GuardBuilder) (last : Expr) : GuardBuilder := { b with cleanup := some last }

/-- Adds a catch clause for exceptions of a class and its subclasses. -/
def addHandler (b : GuardBuilder) (ty : Ty) (binder : Param) (filter : Option Expr)
    (body : Except BuildError Expr) : GuardBuilder :=
  match body with
  | .ok body => { b with handlers := b.handlers ++ [⟨ty, some binder, filter, body⟩] }
  | .error error => b.latch error

section

variable {m : Type → Type} [Monad m] [MonadLiftT Make m]

/-- Builds the body as a block. -/
def bodyBlock (b : GuardBuilder) (f : BlockBuilder → m BlockBuilder) : m GuardBuilder := do
  let body ← f {}
  match ← body.build.run with
  | .ok block => pure (b.setBody block)
  | .error error => pure (b.latch error)

/-- Builds the last part as a block. -/
def cleanupBlock (b : GuardBuilder) (f : BlockBuilder → m BlockBuilder) : m GuardBuilder := do
  let last ← f {}
  match ← last.build.run with
  | .ok block => pure (b.setCleanup block)
  | .error error => pure (b.latch error)

/-- Adds a catch clause with a block, and a filter if one is given; both are built from a
reference to the caught exception. -/
def catchBlock (b : GuardBuilder) (ty : Ty) (filter : Option (Expr → m Expr))
    (f : Expr → BlockBuilder → m BlockBuilder) : m GuardBuilder := do
  let p ← Param.make ty (some "ex")
  let ex ← Expr.parameter p
  let test ← filter.mapM fun make => make ex
  let body ← f ex {}
  let body ← body.build.run
  pure (b.addHandler ty p test body)

/-- Adds a catch clause with a body built from a reference to the caught exception. -/
def catchExpr (b : GuardBuilder) (ty : Ty) (f : Expr → m Expr) : m GuardBuilder := do
  let p ← Param.make ty (some "ex")
  let ex ← Expr.parameter p
  let body ← f ex
  pure (b.addHandler ty p none (.ok body))

end

/-- The guarded region, of its body's type. -/
def build (b : GuardBuilder) : Build Expr :=
  match b.error, b.body with
  | some error, _ => throw error
  | none, none => throw .missingTryBody
  | none, some body =>
    if b.cleanup.isNone && b.handlers.isEmpty then throw .noCatchBlock
    else Expr.guarded body.ty body b.handlers b.cleanup

end GuardBuilder

/-- The call that disposes of the variable `scratch` refers to. -/
def disposeOf (scratch : Expr) : Make Expr := do
  let receiver ← if scratch.ty == .disposable then pure scratch else scratch.convert .disposable
  Expr.call (some receiver) .dispose []

/-- The region that keeps `resource` in the variable of `scratch` while `body` runs. -/
def usingBlock (scratch resource : Expr) (body : BlockBuilder) : Build Expr := do
  let dispose ← disposeOf scratch
  let block ← body.build
  let region ← ((({} : GuardBuilder).setBody block).setCleanup dispose).build
  let outer ← ({} : BlockBuilder).parameterWith scratch resource
  (outer.line region).build

/-- Runs a body with a resource, and disposes of the resource on every way out. -/
def usingResource {m : Type → Type} [Monad m] [MonadLiftT Make m] [MonadLiftT Build m] (ty : Ty)
    (resource : Expr) (body : Expr → BlockBuilder → m BlockBuilder) : m Expr := do
  let p ← Param.make ty (some "resource")
  let scratch ← Expr.parameter p
  let block ← body scratch {}
  usingBlock scratch resource block

end CodeTree
