import CodeTree.BuildError
import CodeTree.Compile
import CodeTree.Expr.Walk
import CodeTree.Substitute

/-!
# Normalizing closures

Builders accept *closures*: lambdas whose body describes a call, a construction or an
invocation in terms of captured values. `describedCall` turns such a body into the node
it describes:

* a construction keeps its constructor, an invocation its target; their arguments are
  normalized;
* a call has its receiver and arguments bound to the instance, if there is one, and its
  arguments normalized; a static method loses its receiver, any other has it converted to
  the declaring type unless it has that type already;
* anything else is normalized as a whole, then bound.

`normalize` resolves what is already known: closed calls are evaluated and replaced by
their result, field reads on a captured record are replaced by what was captured,
conversions from and to captured trees are removed, and lambdas without parameters become
the call they describe. What cannot be resolved is kept.
-/

namespace CodeTree

/-- What normalization may resolve. -/
structure Normalization where
  /-- Evaluate closed calls now. -/
  foldClosedCalls : Bool := true
  /-- Replace lambdas without parameters by the call they describe. -/
  flattenThunks : Bool := true

/-- Whether a tree can be evaluated before it is run: it has no free parameters and no
captured trees in it. -/
def Expr.isClosed (e : Expr) : Bool :=
  e.freeParameters.isEmpty && !e.someNode (·.ty.isNode)

/-- A node converted to a type, unless it has that type already. -/
def Expr.upcast (e : Expr) (ty : Ty) : Make Expr :=
  if e.ty == ty then pure e else e.convert ty

/-- A call whose operands are settled. -/
def Expr.settledCall (receiver : Option Expr) (method : Method) (args : List Expr) :
    Make Expr := do
  if method.isStatic then Expr.call none method args
  else
    let receiver ← receiver.mapM (·.upcast method.declaring)
    Expr.call receiver method args

/-- What normalization makes of one node. -/
structure Normal (σ : Type) where
  /-- The node itself, normalized. -/
  node : Step σ Expr
  /-- The node that a closure with this body describes. -/
  described : Step σ Expr

section

variable {σ : Type} (H : Host σ) (fuel : Nat) (options : Normalization)

/-- Evaluates a closed call; nothing when that fails. A captured tree takes the place of the
call, any other value becomes a constant of the call's type. -/
def foldCall (call : Expr) : Step σ (Option Expr) := do
  match ← evaluateAlone H fuel call with
  | .ok (.node tree) => pure (some tree)
  | .ok .void => do
    let e ← Step.make Expr.empty
    pure (some e)
  | .ok v => do
    let e ← Step.make (Expr.typedConstant v call.ty)
    pure (some e)
  | .error _ => pure none

/-- A conversion, given its operand and what normalization makes of the operand. A captured
tree stands for itself, so conversions between it and its wrapper go away. -/
def unwrapConversion (e operand : Expr) (normalOperand children : Step σ Expr) : Step σ Expr := do
  if operand.ty.isNode then
    let unwrapped ← normalOperand
    if unwrapped.ty.isVoid || e.ty.isNode then pure unwrapped
    else Step.make (unwrapped.upcast e.ty)
  else if e.ty.isNode then normalOperand
  else children

/-- The node that takes the place of a read of a captured value: a captured tree itself, a
value of the read's own type as a constant, any other value converted. -/
def capturedValue (e : Expr) (v : Value) : Step σ Expr := do
  match v with
  | .node tree => pure tree
  | v =>
    if v.runtimeTy?.any (· == e.ty) then Step.make (Expr.typedConstant v e.ty)
    else
      let operand ← Step.make (Expr.constant v)
      let converted ← Step.make (operand.convert e.ty)
      unwrapConversion converted operand (pure operand) (pure converted)

/-- A field read on a constant object is answered now, if the object answers. -/
def resolveRead (e : Expr) (target : Expr) (read : Member) (children : Step σ Expr) :
    Step σ Expr := do
  match target.asConstant?, read.kind with
  | some (.object id cls content), .field => do
    match ← Step.play (apply H fuel) (H.readMember (.object id cls content) read.name) with
    | .ok v => capturedValue e v
    | .error _ => children
  | _, _ => children

/-- The node with its children normalized. -/
def normalChildren (e : Expr) (layer : Shape Value (Expr × Normal σ)) : Step σ Expr := do
  let layer ← layer.mapM fun child => child.2.node
  Step.make (e.withLayer layer)

/-- One step of `normalize`. -/
def normalizeStep (e : Expr) (layer : Shape Value (Expr × Normal σ)) : Step σ Expr := do
  match layer with
  | .call .. =>
    if options.foldClosedCalls && e.isClosed then
      match ← foldCall H fuel e with
      | some folded => pure folded
      | none => normalChildren e layer
    else normalChildren e layer
  | .member (some target) read => resolveRead H fuel e target.1 read (normalChildren e layer)
  | .convert _ operand =>
    unwrapConversion e operand.1 operand.2.node (normalChildren e layer)
  | .lambda [] body =>
    if options.flattenThunks then body.2.described else normalChildren e layer
  | layer => normalChildren e layer

/-- One step of `describedCall`, with no instance to bind. -/
def describeStep (e : Expr) (layer : Shape Value (Expr × Normal σ)) : Step σ Expr := do
  match layer with
  | .construct ctor args =>
    let args ← args.mapM fun arg => arg.2.node
    Step.make (Expr.construct ctor args)
  | .call receiver method args =>
    let receiver ← receiver.mapM fun r => r.2.node
    let args ← args.mapM fun arg => arg.2.node
    Step.make (Expr.settledCall receiver method args)
  | .invoke target args =>
    let args ← args.mapM fun arg => arg.2.node
    Step.make (Expr.make (.invoke target.1 args) e.ty)
  | layer => normalizeStep H fuel options e layer

/-- What normalization makes of a tree. -/
def analyse : Expr → Normal σ :=
  Expr.fold fun e layer =>
    ⟨normalizeStep H fuel options e layer, describeStep H fuel options e layer⟩

/-- Normalizes a node. -/
def normalize (e : Expr) : Step σ Expr := (analyse H fuel options e).node

/-- The node that a closure body describes, with the closure's parameter bound to
`instance?`. -/
def describedCall (body : Expr) (instance? : Option Expr) : Step σ Expr :=
  match instance? with
  | none => (analyse H fuel options body).described
  | some self =>
    match body.shape with
    | .construct .. | .invoke .. => (analyse H fuel options body).described
    | .call receiver method args => do
      let receiver ← receiver.mapM fun r => Step.make (r.replaceParameters [self])
      let args ← args.mapM fun arg => do
        let bound ← Step.make (arg.replaceParameters [self])
        normalize H fuel options bound
      Step.make (Expr.settledCall receiver method args)
    | _ => do
      let e ← normalize H fuel options body
      Step.make (e.replaceParameters [self])

/-- The body of a closure; a node that is no lambda stands for itself. -/
def Expr.closureBody (closure : Expr) : Expr :=
  match closure.shape with
  | .lambda _ body => body
  | _ => closure

/-- The node that a closure describes. -/
def describedClosure (closure : Expr) (instance? : Option Expr) : Step σ Expr :=
  describedCall H fuel options closure.closureBody instance?

/-- Which kind of member a closure has to read. -/
inductive MemberAccess where
  | property
  | field
  | any
  deriving DecidableEq

/-- Whether a closure reads a member of the right kind. -/
def MemberAccess.check (access : MemberAccess) (closure : Expr) : Except BuildError Unit :=
  match closure.closureBody.shape with
  | .member _ read =>
    match access, read.kind with
    | .property, .field => .error (.notAProperty closure.text)
    | .field, .property => .error (.notAField closure.text)
    | _, _ => .ok ()
  | _ => .error (.notAMember closure.text)

/-- The member read that a closure describes, on the given object. -/
def describedMember (self closure : Expr) (access : MemberAccess) :
    Step σ (Except BuildError Expr) := do
  match access.check closure with
  | .error error => pure (.error error)
  | .ok () => do
    let e ← normalize H fuel options closure.closureBody
    let e ← Step.make (e.replaceParameters [self])
    pure (.ok e)

end

end CodeTree
