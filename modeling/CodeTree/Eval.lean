import CodeTree.Machine
import CodeTree.Operator

/-!
# Evaluation

`evalNode` says what one node does, given an `Engine` that evaluates its children and
calls callables. The engine is tied to itself by fuel: `eval H (n + 1)` is `evalNode`
with the engine of fuel `n`, and `eval H 0` gives no answer. Fuel bounds the nesting
of evaluations and, inside one loop or block, the number of rounds.

Exits travel outwards until the construct that owns them: a guarded region for thrown
values, the block or loop that owns the label for jumps, nothing for faults. A call
ends all jumps: one that reaches the end of its lambda is a fault.

* `evalBlock`, `evalSwitch`, `evalGuarded`, `iterate` — control flow;
* `callClosure` — one activation of a lambda, counted against the limit;
* `dispatch` — one call of a method;
* `eval`, `apply` — the evaluator and the calling of callables.
-/

namespace CodeTree

/-- What the evaluation of a node may ask for. -/
structure Engine (σ : Type) where
  /-- How often a loop may go round, or a block resume at a label. -/
  rounds : Nat
  eval : Interp → Scope → Expr → Run σ Value
  apply : FuncRef → List Value → Step σ Reply

variable {σ : Type}

/-- The value of a node of type `void` is `void`, whatever its parts give. -/
def settle (ty : Ty) (v : Value) : Value := if ty.isVoid then .void else v

/-- A condition; anything but a `bool` is a fault. -/
def expectBool (v : Value) : Run σ Bool :=
  match v.asBool? with
  | some b => pure b
  | none => .fault (.typeMismatch "bool" v.typeName)

/-- Evaluates operands from left to right. -/
def evalAll (ev : Expr → Run σ Value) : List Expr → Run σ (List Value)
  | [] => pure []
  | e :: es => do
    let v ← ev e
    let vs ← evalAll ev es
    pure (v :: vs)

/-! ## Blocks -/

/-- The statements after the first label statement for `l`. -/
def afterLabel? (l : Label) : List Expr → Option (List Expr)
  | [] => none
  | e :: es =>
    match e.shape with
    | .label target _ => if target == l then some es else afterLabel? l es
    | _ => afterLabel? l es

/-- Runs statements in order; the value of the last one is the result. -/
def runStatements (ev : Expr → Run σ Value) (onJump : Label → Value → Run σ Value) :
    List Expr → Value → Run σ Value
  | [], last => pure last
  | e :: es, _ => do
    match ← Run.step (ev e).run with
    | .ok v => runStatements ev onJump es v
    | .error (.jump l v) => onJump l v
    | .error exit => throw exit

/-- Runs the rest of a body. A jump to one of the body's own labels resumes after that
label, with the value it carries. -/
def runBody (ev : Expr → Run σ Value) (body : List Expr) :
    Nat → List Expr → Value → Run σ Value
  | 0, _, _ => .step .outOfFuel
  | rounds + 1, rest, last =>
    runStatements ev
      (fun l v =>
        match afterLabel? l body with
        | some rest => runBody ev body rounds rest v
        | none => throw (.jump l v))
      rest last

/-- A block: its variables start at their default values in a scope of their own. -/
def evalBlock (E : Engine σ) (I : Interp) (scope : Scope) (ty : Ty) (locals : List Param)
    (body : List Expr) : Run σ Value := do
  let scope ← Run.step (Step.childScope scope)
  Run.step (Step.declareAll scope (locals.map fun p => (p, .default p.ty)))
  let v ← runBody (E.eval I scope) body E.rounds body .void
  pure (settle ty v)

/-! ## Switches -/

/-- Whether one of the tests matches; later tests are not evaluated. -/
def matchesSome (ev : Expr → Run σ Value) (accept : Value → Run σ Bool) :
    List Expr → Run σ Bool
  | [] => pure false
  | test :: tests => do
    let candidate ← ev test
    if ← accept candidate then pure true else matchesSome ev accept tests

/-- The body of the first case with a matching test. -/
def selectCase (ev : Expr → Run σ Value) (accept : Value → Run σ Bool) :
    List (Case Expr) → Run σ (Option Expr)
  | [] => pure none
  | c :: cs => do
    if ← matchesSome ev accept c.tests then pure (some c.body) else selectCase ev accept cs

/-! ## Guarded regions -/

/-- Whether a catch clause is taken. A filter that throws, jumps or gives anything but
`true` declines; a fault in it is not held back. -/
def filterAccepts (ev : Expr → Run σ Value) : Option Expr → Run σ Bool
  | none => pure true
  | some filter => do
    match ← Run.step (ev filter).run with
    | .ok (.bool b) => pure b
    | .error (.fault f) => .fault f
    | _ => pure false

/-- Runs the first clause whose type and filter accept the exception, which is of type
`thrownTy`; without one, it is thrown on. -/
def runHandlers (ev : Scope → Expr → Run σ Value) (scope : Scope) (exception : Value)
    (thrownTy : Ty) : List (Handler Expr) → Run σ Value
  | [] => throw (.throw exception)
  | h :: hs => do
    if h.exceptionTy.isAssignableFrom thrownTy then
      let inner ← Run.step (Step.handlingScope scope exception)
      Run.step (Step.declareAll inner (h.binder.toList.map fun p => (p, exception)))
      if ← filterAccepts (ev inner) h.filter then ev inner h.body
      else runHandlers ev scope exception thrownTy hs
    else runHandlers ev scope exception thrownTy hs

/-- A body with catch clauses. The last part runs on every way out; if it leaves early
itself, that replaces what came before. -/
def evalGuarded (ev : Scope → Expr → Run σ Value) (scope : Scope) (ty : Ty) (body : Expr)
    (handlers : List (Handler Expr)) (cleanup : Option Expr) : Run σ Value := do
  let outcome ← Run.step (ev scope body).run
  let outcome ←
    match outcome with
    | .error (.throw exception) =>
      match exception.runtimeTy? with
      | some thrownTy => Run.step (runHandlers ev scope exception thrownTy handlers).run
      | none => pure outcome
    | outcome => pure outcome
  match cleanup with
  | some last => do
    let _ ← ev scope last
    let v ← Run.resume outcome
    pure (settle ty v)
  | none => do
    let v ← Run.resume outcome
    pure (settle ty v)

/-! ## Loops -/

/-- Repeats a body until a jump to the break label ends it with the value it carries.
A jump to the continue label starts the next round. -/
def iterate (body : Run σ Value) (breakLabel continueLabel : Option Label) : Nat → Run σ Value
  | 0 => .step .outOfFuel
  | rounds + 1 => do
    match ← Run.step body.run with
    | .ok _ => iterate body breakLabel continueLabel rounds
    | .error (.jump l v) =>
      if breakLabel == some l then pure v
      else if continueLabel == some l then iterate body breakLabel continueLabel rounds
      else throw (.jump l v)
    | .error exit => throw exit

/-! ## Calls -/

/-- The part of an activation that runs once it has been counted. -/
def runClosure (E : Engine σ) (c : Closure) (args : List Value) (depth : Nat) : Run σ Value := do
  if c.interp.limit < depth then .fault (.stackOverflow c.interp.limit)
  else if c.params.length ≠ args.length then
    .fault (.arityMismatch c.params.length args.length)
  else
    let frame ← Run.step (Step.childScope c.scope)
    Run.step (Step.declareAll frame (c.params.zip args))
    match ← Run.step (E.eval c.interp frame c.body).run with
    | .ok v => pure (settle c.ret v)
    | .error (.jump l _) => .fault (.unresolvedLabel l.displayName)
    | .error exit => throw exit

/-- One activation of a lambda. The count goes down again whatever the outcome is. -/
def callClosure (E : Engine σ) (c : Closure) (args : List Value) : Run σ Value := do
  let depth ← Run.step (Step.enter c.interp)
  let outcome ← Run.step (runClosure E c args depth).run
  Run.step (Step.leave c.interp)
  Run.resume outcome

/-- Plays host code and takes its answer. -/
def runScript (E : Engine σ) (script : Script σ Reply) : Run σ Value := do
  let reply ← Run.step (Step.play E.apply script)
  Run.ofReply reply

/-- Calls a method on evaluated operands. -/
def dispatch (H : Host σ) (E : Engine σ) (method : Method) (receiver : Option Value)
    (args : List Value) : Run σ Value := do
  if args.length ≠ method.params.length then
    .fault (.arityMismatch method.params.length args.length)
  else if !method.isStatic && (receiver.all Value.isNull) then
    .nullReference method.name
  else
    let v ←
      match method.body, receiver with
      | .shared code, _ => runScript E (H.run code none args)
      | .bound code, some self => runScript E (H.run code (some self) args)
      | .bound _, none => .raise .nullReference "instance method called without a receiver"
      | .dispatched, some (.object id cls content) =>
        runScript E (H.send (.object id cls content) method.name args)
      | .dispatched, some other =>
        .fault (.typeMismatch method.declaring.text other.typeName)
      | .dispatched, none => .fault (.unsupported "virtual dispatch without a receiver")
    pure (settle method.ret v)

/-- Calls a callable value. -/
def invokeValue (E : Engine σ) (callee : Value) (args : List Value) : Run σ Value :=
  match callee with
  | .func ref params _ =>
    if params.length ≠ args.length then .fault (.arityMismatch params.length args.length)
    else do
      let reply ← Run.step (E.apply ref args)
      Run.ofReply reply
  | .null => .nullReference "invoke"
  | other => .fault (.notCallable other.typeName)

/-- Reads a member of a value. Strings and arrays know their length. -/
def readMember (H : Host σ) (E : Engine σ) (read : Member) (target : Value) : Run σ Value :=
  match target with
  | .object id cls content => runScript E (H.readMember (.object id cls content) read.name)
  | .null => .nullReference read.name
  | .str s =>
    if read.name == "Length" then pure (.int (.ofNat s.length))
    else .fault (.typeMismatch read.declaring.text target.typeName)
  | .array _ _ items =>
    if read.name == "Length" then pure (.int (.ofNat items.length))
    else .fault (.typeMismatch read.declaring.text target.typeName)
  | other => .fault (.typeMismatch read.declaring.text other.typeName)

/-- Waits for a task, which has always ended already. -/
def awaitValue : Value → Run σ Value
  | .task _ _ outcome => Run.ofReply outcome
  | .null => .nullReference "await"
  | other => .fault (.notAwaitable other.typeName)

/-- A binary operator. The right operand of `&&` and `||` is evaluated only when the
left one does not decide. -/
def evalBinary (ev : Expr → Run σ Value) (op : BinaryOp) (left right : Expr) : Run σ Value := do
  let l ← ev left
  match op with
  | .andAlso => do
    if ← expectBool l then
      let r ← ev right
      let b ← expectBool r
      pure (.bool b)
    else pure (.bool false)
  | .orElse => do
    if ← expectBool l then pure (.bool true)
    else
      let r ← ev right
      let b ← expectBool r
      pure (.bool b)
  | op => do
    let r ← ev right
    match op.apply l r with
    | .ok v => pure v
    | .error f => .fault f

/-- A closure over the current scope. -/
def makeClosure (I : Interp) (scope : Scope) (ty : Ty) (params : List Param) (body : Expr) :
    Run σ Value := do
  let ret := (ty.signature?.map Prod.snd).getD body.ty
  let index ← Run.step (Step.addClosure ⟨params, body, ret, scope, I⟩)
  pure (.func (.closure index) (params.map Param.ty) ret)

/-- What a throw throws. -/
def throwValue (v : Value) : Run σ Value :=
  if v.isNull then .nullReference "throw" else throw (.throw v)

/-! ## Nodes -/

/-- What one node does. -/
def evalNode (H : Host σ) (E : Engine σ) (I : Interp) (scope : Scope) (e : Expr) : Run σ Value :=
  let ev := E.eval I scope
  match e.shape with
  | .empty => pure .void
  | .constant v => pure v
  | .parameter p => do
    match ← Run.step (Step.lookup scope p) with
    | some v => pure v
    | none => .fault (.unboundParameter p.displayName)
  | .block locals body => evalBlock E I scope e.ty locals body
  | .conditional test ifTrue ifFalse => do
    let t ← ev test
    let v ← if ← expectBool t then ev ifTrue else ev ifFalse
    pure (settle e.ty v)
  | .switch value cases default comparer => do
    let scrutinee ← ev value
    let accept : Value → Run σ Bool := fun candidate =>
      match comparer with
      | some method => do
        let v ← dispatch H E method none [scrutinee, candidate]
        expectBool v
      | none => pure (scrutinee.equals candidate)
    let chosen ← selectCase ev accept cases
    match chosen <|> default with
    | some body => do
      let v ← ev body
      pure (settle e.ty v)
    | none => pure .void
  | .guarded body handlers cleanup => evalGuarded (E.eval I) scope e.ty body handlers cleanup
  | .throw (some value) => do
    let v ← ev value
    throwValue v
  | .throw none =>
    match scope.currentException? with
    | some v => throwValue v
    | none => .fault (.unsupported "rethrow outside a catch clause")
  | .call receiver method args => do
    let self ←
      match receiver with
      | some r => if method.isStatic then pure none else some <$> ev r
      | none => pure none
    let vs ← evalAll ev args
    dispatch H E method self vs
  | .construct ctor args => do
    let vs ← evalAll ev args
    runScript E (H.run ctor.code none vs)
  | .invoke target args => do
    let callee ← ev target
    let vs ← evalAll ev args
    invokeValue E callee vs
  | .member (some target) read => do
    let v ← ev target
    readMember H E read v
  | .member none _ => .fault (.unsupported "static member access")
  | .convert kind operand => do
    let v ← ev operand
    match convert kind v e.ty with
    | .ok v => pure v
    | .error failure => .raise failure.cls failure.message
  | .typeIs operand testTy => do
    let v ← ev operand
    pure (.bool (v.isInstance testTy))
  | .unary op operand => do
    let v ← ev operand
    match op.apply v with
    | .ok v => pure v
    | .error f => .fault f
  | .binary op left right => evalBinary ev op left right
  | .assign target value => do
    let v ← ev value
    if ← Run.step (Step.assign scope target v) then pure v
    else .fault (.unboundParameter target.displayName)
  | .lambda params body => makeClosure I scope e.ty params body
  | .await task => do
    let v ← ev task
    awaitValue v
  | .newArray elem items => do
    let vs ← evalAll ev items
    let id ← Run.step Step.fresh
    pure (.array id elem vs)
  | .jump _ target value => do
    let v ←
      match value with
      | some value => ev value
      | none => pure .void
    throw (.jump target v)
  | .label _ default =>
    match default with
    | some value => ev value
    | none => pure .void
  | .loop body breakLabel continueLabel => iterate (ev body) breakLabel continueLabel E.rounds

/-- What a callable does when it is called. -/
def applyRef (H : Host σ) (E : Engine σ) (ref : FuncRef) (args : List Value) : Step σ Reply :=
  match ref with
  | .hosted code => Step.play E.apply (H.run code none args)
  | .closure index => do
    match ← Step.closure? index with
    | some c => (callClosure E c args).toReply
    | none => Run.toReply.faulted (.unsupported "call of a closure that was never made")

mutual
/-- Evaluates a tree with the given fuel. -/
def eval (H : Host σ) : Nat → Interp → Scope → Expr → Run σ Value
  | 0, _, _, _ => .step .outOfFuel
  | n + 1, I, scope, e => evalNode H ⟨n, eval H n, apply H n⟩ I scope e
/-- Calls a callable with the given fuel. -/
def apply (H : Host σ) : Nat → FuncRef → List Value → Step σ Reply
  | 0, _, _ => .outOfFuel
  | n + 1, ref, args => applyRef H ⟨n, eval H n, apply H n⟩ ref args
end

/-- The engine of a given fuel. -/
def engine (H : Host σ) (fuel : Nat) : Engine σ := ⟨fuel, eval H fuel, apply H fuel⟩

end CodeTree
