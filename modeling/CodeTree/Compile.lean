import CodeTree.Eval
import CodeTree.Expr.Free

/-!
# Evaluating whole trees

Two ways in: `evaluateClosed` evaluates a tree without free parameters once, and
`compile` turns a lambda into a `Compiled` that can be invoked any number of times.
Both refuse a tree with a free parameter. What leaves the outermost frame early
becomes an `EvalError`; a thrown value is then asked for its message.
-/

namespace CodeTree

/-- Why a whole evaluation gave no value. -/
inductive EvalError where
  | fault (fault : Fault)
  /-- A thrown value that nothing caught. -/
  | unhandled (description : String) (exception : Value)

namespace EvalError

/-- The kind of an error, as a word. -/
def kind : EvalError → String
  | .fault f => f.kind
  | .unhandled .. => "Unhandled"

def message : EvalError → String
  | .fault f => f.message
  | .unhandled description _ => "unhandled exception: " ++ description

/-- The value that was thrown. -/
def exception? : EvalError → Option Value
  | .fault _ => none
  | .unhandled _ v => some v

end EvalError

/-- The limit on nested lambda calls unless another is set. -/
def Interp.defaultLimit : Nat := 1024

/-- A lambda ready to be invoked. -/
structure Compiled where
  interp : Interp
  params : List Param
  body : Expr
  /-- `void` for a lambda without a result. -/
  ret : Ty

/-- The start of a compiled lambda's debug text. -/
def Compiled.summary (c : Compiled) : String :=
  "CompiledLambda \x7b params: " ++ toString c.params.length

/-- Compiles a lambda; any other tree is the body of a lambda without parameters. -/
def compile (I : Interp) (e : Expr) : Except EvalError Compiled :=
  let compiled : Compiled :=
    match e.shape with
    | .lambda params body => ⟨I, params, body, (e.ty.signature?.map Prod.snd).getD e.ty⟩
    | _ => ⟨I, [], e, e.ty⟩
  match compiled.body.freeUnder compiled.params with
  | p :: _ => .error (.fault (.unboundParameter p.displayName))
  | [] => .ok compiled

section

variable {σ : Type} (H : Host σ) (fuel : Nat)

/-- Turns what left the outermost frame into an error. -/
def escaped : Exit → Step σ EvalError
  | .throw v => do
    let description ← Step.play (apply H fuel) (H.describe v)
    pure (.unhandled description v)
  | .jump l _ => pure (.fault (.unresolvedLabel l.displayName))
  | .fault f => pure (.fault f)

/-- Runs an evaluation to its end. -/
def finish (act : Run σ Value) : Step σ (Except EvalError Value) := do
  match ← act.run with
  | .ok v => pure (.ok v)
  | .error exit => do
    let error ← escaped H fuel exit
    pure (.error error)

/-- Evaluates a tree without free parameters. -/
def evaluateClosed (I : Interp) (e : Expr) : Step σ (Except EvalError Value) :=
  match e.freeParameters with
  | p :: _ => pure (.error (.fault (.unboundParameter p.displayName)))
  | [] => do
    let scope ← Step.rootScope
    finish H fuel (eval H fuel I scope e)

/-- Evaluates a tree with an interpreter of its own. -/
def evaluateAlone (e : Expr) : Step σ (Except EvalError Value) := do
  let I ← Step.newInterp Interp.defaultLimit
  evaluateClosed H fuel I e

/-- Runs a compiled lambda. -/
def Compiled.invoke (c : Compiled) (args : List Value) : Step σ (Except EvalError Value) :=
  if args.length ≠ c.params.length then
    pure (.error (.fault (.arityMismatch c.params.length args.length)))
  else do
    let scope ← Step.rootScope
    finish H fuel (callClosure (engine H fuel) ⟨c.params, c.body, c.ret, scope, c.interp⟩ args)

end

end CodeTree
