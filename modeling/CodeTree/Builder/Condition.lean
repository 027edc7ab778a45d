import CodeTree.Builder.Block

/-!
# Building conditionals

With the result type `void` a `ConditionBuilder` makes an `if` statement; with any other type it
makes a conditional value, and a missing arm gives the default value of that type. An arm of a
conditional value has to produce its type; one that throws or jumps fits any type, because it
never yields a value.
-/

namespace CodeTree

/-- Whether a node leaves its surroundings instead of yielding a value. -/
def Expr.isDeparture (e : Expr) : Bool :=
  match e.shape with
  | .throw _ | .jump .. => true
  | _ => false

structure ConditionBuilder where
  /-- The type of the conditional. -/
  result : Ty
  test : Option Expr := none
  ifTrue : Option Expr := none
  ifFalse : Option Expr := none
  error : Option BuildError := none

namespace ConditionBuilder

/-- Remembers a mistake, unless there is one already. -/
def latch (b : ConditionBuilder) (error : BuildError) : ConditionBuilder :=
  { b with error := b.error <|> some error }

/-- The mistake of an arm that yields `value`, if it is one. -/
def mismatch? (b : ConditionBuilder) (value : Expr) : Option BuildError :=
  if b.result.isVoid || b.result.isAssignableFrom value.ty || value.isDeparture then none
  else some (.conditionResultMismatch b.result.text value.ty.text)

/-- An arm, checked by the node that gives its value. A rejected arm is dropped. -/
def checked (b : ConditionBuilder) (arm value : Expr) : Option Expr × ConditionBuilder :=
  match b.mismatch? value with
  | some error => (none, b.latch error)
  | none => (some arm, b)

/-- The builder that an arm's block starts from. -/
def startArm (b : ConditionBuilder) : BlockBuilder :=
  { ret := if b.result.isVoid then none else some b.result }

/-- The node that gives a block its value: its last statement. -/
def lastStatement (block : Expr) : Expr :=
  match block.shape with
  | .block _ body => body.getLast?.getD block
  | _ => block

/-- An arm built as a block. -/
def finishArm (b : ConditionBuilder) (arm : BlockBuilder) :
    Make (Option Expr × ConditionBuilder) := do
  match ← arm.build.run with
  | .ok block => pure (b.checked block (lastStatement block))
  | .error error => pure (none, b.latch error)

/-- Sets the condition. -/
def setTest (b : ConditionBuilder) (test : Expr) : ConditionBuilder := { b with test := some test }

/-- Sets the arm taken when the condition holds. -/
def setThen (b : ConditionBuilder) (arm : Expr) : ConditionBuilder :=
  let (kept, b) := b.checked arm arm
  { b with ifTrue := kept }

/-- Sets the arm taken when the condition fails. -/
def setElse (b : ConditionBuilder) (arm : Expr) : ConditionBuilder :=
  let (kept, b) := b.checked arm arm
  { b with ifFalse := kept }

section

variable {m : Type → Type} [Monad m] [MonadLiftT Make m]

/-- Builds the arm taken when the condition holds. -/
def thenBlock (b : ConditionBuilder) (f : BlockBuilder → m BlockBuilder) : m ConditionBuilder := do
  let arm ← f b.startArm
  let (kept, b) ← b.finishArm arm
  pure { b with ifTrue := kept }

/-- Builds the arm taken when the condition fails. -/
def elseBlock (b : ConditionBuilder) (f : BlockBuilder → m BlockBuilder) : m ConditionBuilder := do
  let arm ← f b.startArm
  let (kept, b) ← b.finishArm arm
  pure { b with ifFalse := kept }

end

/-- The arm, or the default value of the result type. -/
def armOrDefault (b : ConditionBuilder) : Option Expr → Make Expr
  | some arm => pure arm
  | none => Expr.defaultOf b.result

/-- The conditional. -/
def build (b : ConditionBuilder) : Build Expr :=
  match b.error, b.test with
  | some error, _ => throw error
  | none, none => throw .conditionNotDefined
  | none, some test => do
    let ifTrue ← b.armOrDefault b.ifTrue
    let ifFalse ← b.armOrDefault b.ifFalse
    Expr.conditional test ifTrue ifFalse b.result

end ConditionBuilder

end CodeTree
