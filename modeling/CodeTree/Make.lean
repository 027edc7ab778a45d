import CodeTree.Expr

/-!
# Making nodes

Nodes, variables and labels have identities. `Make` hands them out: it counts
upwards, so that nothing made later shares an identity with anything made
before. The functions below build one node each (and the `empty` nodes it needs)
and fix its type; none of them can fail.
-/

namespace CodeTree

/-- Actions that draw identities from a counter. -/
abbrev Make := StateM Nat

/-- The next identity. -/
def Make.fresh : Make Nat := fun next => (next, next + 1)

/-- A new variable. -/
def Param.make (ty : Ty) (name : Option String) : Make Param := do
  let id ← Make.fresh
  pure ⟨id, name, ty⟩

/-- A new jump target. -/
def Label.make (ty : Ty) (name : Option String) : Make Label := do
  let id ← Make.fresh
  pure ⟨id, name, ty⟩

namespace Expr

/-- A new node from its parts. -/
def make (shape : Shape Value Expr) (ty : Ty) : Make Expr := do
  let id ← Make.fresh
  pure (.mk id shape ty)

/-! ## Leaves -/

def empty : Make Expr := make .empty .void

def typedConstant (v : Value) (ty : Ty) : Make Expr := make (.constant v) ty

/-- A constant of its value's runtime type; `null` counts as an `object`. -/
def constant (v : Value) : Make Expr := typedConstant v (v.runtimeTy?.getD .object)

def null (ty : Ty) : Make Expr := typedConstant .null ty

/-- The default value of a type: nothing at all for `void`. -/
def defaultOf (ty : Ty) : Make Expr :=
  if ty.isVoid then empty else typedConstant (.default ty) ty

/-- A reference to a variable. -/
def parameter (p : Param) : Make Expr := make (.parameter p) p.ty

/-! ## Control flow -/

/-- A block of a given type. A body without statements holds an `empty` node. -/
def typedBlock (ty : Ty) (locals : List Param) (body : List Expr) : Make Expr :=
  match body with
  | [] => do
    let only ← empty
    make (.block locals [only]) ty
  | body => make (.block locals body) ty

/-- A block of the type of its last statement. -/
def block (locals : List Param) (body : List Expr) : Make Expr :=
  typedBlock ((body.getLast?.map ty).getD .void) locals body

def conditional (test ifTrue ifFalse : Expr) (ty : Ty) : Make Expr :=
  make (.conditional test ifTrue ifFalse) ty

def ifThen (test ifTrue : Expr) : Make Expr := do
  let ifFalse ← empty
  conditional test ifTrue ifFalse .void

def ifThenElse (test ifTrue ifFalse : Expr) : Make Expr := conditional test ifTrue ifFalse .void

def switch (ty : Ty) (value : Expr) (cases : List (Case Expr)) (default : Option Expr)
    (comparer : Option Method) : Make Expr :=
  make (.switch value cases default comparer) ty

/-- A body with catch clauses and a part that runs on every way out. -/
def guarded (ty : Ty) (body : Expr) (handlers : List (Handler Expr)) (cleanup : Option Expr) :
    Make Expr :=
  make (.guarded body handlers cleanup) ty

def throw (value : Expr) : Make Expr := make (.throw (some value)) .void

/-- Throws the exception being handled once more. -/
def rethrow : Make Expr := make (.throw none) .void

def jump (kind : JumpKind) (target : Label) (value : Option Expr) : Make Expr :=
  make (.jump kind target value) .void

def label (target : Label) (default : Option Expr) : Make Expr :=
  make (.label target default) target.ty

/-- A loop of the type of its break label. -/
def loop (body : Expr) (breakLabel continueLabel : Option Label) : Make Expr :=
  make (.loop body breakLabel continueLabel) ((breakLabel.map Label.ty).getD .void)

/-! ## Calls and members -/

def call (receiver : Option Expr) (method : Method) (args : List Expr) : Make Expr :=
  make (.call receiver method args) method.ret

def construct (ctor : Ctor) (args : List Expr) : Make Expr :=
  make (.construct ctor args) ctor.declaring

/-- A call of a callable value, of the callee's return type. -/
def invoke (target : Expr) (args : List Expr) : Make Expr :=
  make (.invoke target args) ((target.ty.signature?.map Prod.snd).getD .object)

def member (target : Option Expr) (read : Member) : Make Expr :=
  make (.member target read) read.ty

/-! ## Conversions and operators -/

/-- A conversion that throws when the value does not fit. -/
def convert (operand : Expr) (ty : Ty) : Make Expr := make (.convert .cast operand) ty

/-- A conversion that gives `null` when the value does not fit. -/
def typeAs (operand : Expr) (ty : Ty) : Make Expr := make (.convert .typeAs operand) ty

def typeIs (operand : Expr) (testTy : Ty) : Make Expr := make (.typeIs operand testTy) .bool

def unary (op : UnaryOp) (operand : Expr) : Make Expr :=
  make (.unary op operand) (match op with
    | .not => .bool
    | .negate => operand.ty)

def binary (op : BinaryOp) (left right : Expr) : Make Expr :=
  make (.binary op left right) (if op.isPredicate then .bool else left.ty)

def assign (target : Param) (value : Expr) : Make Expr := make (.assign target value) target.ty

/-! ## Functions -/

def typedLambda (params : List Param) (body : Expr) (ret : Ty) : Make Expr :=
  make (.lambda params body) (.func (params.map Param.ty) ret)

/-- A lambda that returns its body's type. -/
def lambda (params : List Param) (body : Expr) : Make Expr := typedLambda params body body.ty

def await (task : Expr) : Make Expr := make (.await task) (task.ty.taskResult?.getD .object)

def newArray (elem : Ty) (items : List Expr) : Make Expr :=
  make (.newArray elem items) (.array elem)

end Expr

end CodeTree
