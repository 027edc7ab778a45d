import CodeTree.BuildError
import CodeTree.Expr.Text

/-!
# Building blocks

A `BlockBuilder` collects the variables and statements of a block. Statements keep the order
in which they were added; a variable is declared once, at its first mention. The first
mistake is remembered, and the finishing calls report it.
-/

namespace CodeTree

structure BlockBuilder where
  /-- The declared result type; without one, the last statement decides. -/
  ret : Option Ty := none
  locals : List Param := []
  lines : List Expr := []
  error : Option BuildError := none

/-- The variable a node refers to, or the error that it refers to none. -/
def Expr.expectParameter (e : Expr) : Except BuildError Param :=
  match e.asParameter? with
  | some p => .ok p
  | none => .error (.notAParameter e.text)

/-- Variables of several nodes; the first that is no reference is the error. -/
def Expr.expectParameters : List Expr → Except BuildError (List Param)
  | [] => .ok []
  | e :: es => do
    let p ← e.expectParameter
    let ps ← expectParameters es
    pure (p :: ps)

namespace BlockBuilder

/-- Remembers a mistake, unless there is one already. -/
def latch (b : BlockBuilder) (error : BuildError) : BlockBuilder :=
  { b with error := b.error <|> some error }

/-- Declares a variable, unless it is declared already. -/
def declare (b : BlockBuilder) (p : Param) : BlockBuilder :=
  if b.locals.any (· == p) then b else { b with locals := b.locals ++ [p] }

/-- Adds a statement. -/
def line (b : BlockBuilder) (e : Expr) : BlockBuilder := { b with lines := b.lines ++ [e] }

/-- Adds statements in order. -/
def addLines (b : BlockBuilder) (es : List Expr) : BlockBuilder :=
  { b with lines := b.lines ++ es }

/-- Adds a statement that may have failed to build. -/
def tryLine (b : BlockBuilder) : Except BuildError Expr → BlockBuilder
  | .ok e => b.line e
  | .error error => b.latch error

/-- Declares the variable that a node refers to. -/
def parameter (b : BlockBuilder) (e : Expr) : BlockBuilder :=
  match e.expectParameter with
  | .ok p => b.declare p
  | .error error => b.latch error

/-- Declares the variable that a node refers to, and assigns to it as the next statement. -/
def parameterWith (b : BlockBuilder) (e value : Expr) : Make BlockBuilder :=
  match e.expectParameter with
  | .ok p => do
    let assignment ← Expr.assign p value
    pure ((b.declare p).line assignment)
  | .error error => pure (b.latch error)

/-- Declares a new variable, and gives a reference to it. -/
def var (b : BlockBuilder) (ty : Ty) (name : String) : Make (Expr × BlockBuilder) := do
  let p ← Param.make ty (some name)
  let e ← Expr.parameter p
  pure (e, b.declare p)

/-- Declares a new variable with an initial value, and gives a reference to it. -/
def varWith (b : BlockBuilder) (ty : Ty) (name : String) (value : Expr) :
    Make (Expr × BlockBuilder) := do
  let p ← Param.make ty (some name)
  let assignment ← Expr.assign p value
  let e ← Expr.parameter p
  pure (e, (b.declare p).line assignment)

/-- The block. -/
def build (b : BlockBuilder) : Build Expr :=
  match b.error with
  | some error => throw error
  | none =>
    match b.ret with
    | some ret => Expr.typedBlock ret b.locals b.lines
    | none => Expr.block b.locals b.lines

/-- The block as a lambda over parameter references. -/
def lambda (b : BlockBuilder) (params : List Expr) : Build Expr := do
  let body ← b.build
  match Expr.expectParameters params with
  | .error error => throw error
  | .ok ps =>
    match b.ret with
    | some ret => Expr.typedLambda ps body ret
    | none => Expr.lambda ps body

/-- The block invoked in place: the parameters are passed on under their own names. -/
def invoke (b : BlockBuilder) (params : List Expr) : Build Expr := do
  let f ← b.lambda params
  Expr.invoke f params

end BlockBuilder

end CodeTree
