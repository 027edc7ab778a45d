import CodeTree.Builder.Block

/-!
# Building switches

A switch starts without a result type. `returns` fixes one for the rest of the construction, and
has to come before the first case. Bodies of a typed switch have to produce its type; without a
default, a typed switch gives the default value of its type.
-/

namespace CodeTree

structure SwitchBuilder where
  /-- The node that is compared. -/
  value : Expr
  /-- The type that a comparer has to take. -/
  scrutinee : Ty
  /-- The type of the switch; `void` until it is fixed. -/
  result : Ty := .void
  cases : List (Case Expr) := []
  default : Option Expr := none
  comparer : Option Method := none
  error : Option BuildError := none

namespace SwitchBuilder

/-- Remembers a mistake, unless there is one already. -/
def latch (b : SwitchBuilder) (error : BuildError) : SwitchBuilder :=
  { b with error := b.error <|> some error }

/-- Fixes the result type. -/
def returns (b : SwitchBuilder) (ty : Ty) : SwitchBuilder :=
  let b := if b.cases.isEmpty && b.default.isNone then b else b.latch .mixedSwitchResult
  { b with result := ty }

/-- A body, checked against the result type. -/
def checked (b : SwitchBuilder) (body : Expr) : Except BuildError Expr :=
  if !b.result.isVoid && !b.result.isAssignableFrom body.ty then
    .error (.switchResultMismatch b.result.text body.ty.text)
  else .ok body

/-- Adds a case; a rejected body is remembered as a mistake. -/
def addCase (b : SwitchBuilder) (body : Except BuildError Expr) (tests : List Expr) :
    SwitchBuilder :=
  match body with
  | .ok body => { b with cases := b.cases ++ [⟨tests, body⟩] }
  | .error error => b.latch error

/-- Sets the default; a rejected body is remembered as a mistake. -/
def putDefault (b : SwitchBuilder) (body : Except BuildError Expr) : SwitchBuilder :=
  match body with
  | .ok body => { b with default := some body }
  | .error error => b.latch error

/-- Adds a case that runs when the scrutinee equals one of the tests. -/
def case (b : SwitchBuilder) (body : Expr) (tests : List Expr) : SwitchBuilder :=
  b.addCase (b.checked body) tests

/-- Sets the body that runs when no case matches. -/
def setDefault (b : SwitchBuilder) (body : Expr) : SwitchBuilder := b.putDefault (b.checked body)

section

variable {m : Type → Type} [Monad m] [MonadLiftT Make m]

/-- A body built as a block of the result type. -/
def bodyBlock (b : SwitchBuilder) (f : Expr → BlockBuilder → m BlockBuilder) :
    m (Except BuildError Expr) := do
  let body ← f b.value { ret := some b.result }
  body.build.run

/-- Adds a case whose body is built from the scrutinee. -/
def caseBlock (b : SwitchBuilder) (f : Expr → BlockBuilder → m BlockBuilder)
    (tests : List Expr) : m SwitchBuilder := do
  let body ← b.bodyBlock f
  pure (b.addCase body tests)

/-- Builds the default from the scrutinee. -/
def defaultBlock (b : SwitchBuilder) (f : Expr → BlockBuilder → m BlockBuilder) :
    m SwitchBuilder := do
  let body ← b.bodyBlock f
  pure (b.putDefault body)

end

/-- What is wrong with a comparer: it has to be static and take two values of the scrutinee's
type. -/
def comparerError? (ty : Ty) (method : Method) : Option BuildError :=
  if !method.isStatic then some (.comparerNotStatic method.name)
  else if method.params.length ≠ 2 then some (.comparerArity method.name method.params.length)
  else
    (method.params.find? (· != ty)).map fun got =>
      .comparerParamType method.name ty.text got.text

/-- Compares with a method instead of by equality. -/
def setComparer (b : SwitchBuilder) (method : Method) : SwitchBuilder :=
  match comparerError? b.scrutinee method with
  | some error => b.latch error
  | none => { b with comparer := some method }

/-- The default that is built in: the one set, or the default value of a typed switch. -/
def builtDefault (b : SwitchBuilder) : Make (Option Expr) :=
  match b.default with
  | some body => pure (some body)
  | none =>
    if b.result.isVoid then pure none
    else do
      let e ← Expr.defaultOf b.result
      pure (some e)

/-- The switch. -/
def build (b : SwitchBuilder) : Build Expr :=
  match b.error with
  | some error => throw error
  | none => do
    let default ← b.builtDefault
    Expr.switch b.result b.value b.cases default b.comparer

end SwitchBuilder

end CodeTree
