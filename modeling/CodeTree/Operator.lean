import CodeTree.Expr.Text

/-!
# Conversions and operators

The pure part of evaluation: what conversions and operators make of values.

* `convert` — numeric conversions change the representation, all others only check;
* `UnaryOp.apply`, `BinaryOp.apply` — integers wrap at 64 bits, an integer beside a
  float is taken as a float, and `+` beside a string joins texts.
-/

namespace CodeTree

/-- Whether a value is an instance of a type; `null` is an instance of none. -/
def Value.isInstance (v : Value) (ty : Ty) : Bool :=
  match v.runtimeTy? with
  | some actual => ty.isAssignableFrom actual
  | none => false

/-! ## Conversions -/

/-- Why a cast throws. -/
inductive CastError where
  /-- `null` was cast to a type that has no `null`. -/
  | null (target : Ty)
  /-- The value is not of the target type. -/
  | mismatch (source : String) (target : Ty)

namespace CastError

/-- The class of the exception. -/
def cls : CastError → Ty
  | .null _ => .nullReference
  | .mismatch .. => .invalidCast

def message : CastError → String
  | .null target =>
    "Object reference not set to an instance of an object (conversion to " ++ target.text ++ ")"
  | .mismatch source target =>
    "Unable to cast object of type '" ++ source ++ "' to type '" ++ target.text ++ "'."

end CastError

/-- Converts a value to a type. The first rule that applies decides. -/
def convert (kind : ConvertKind) (v : Value) (target : Ty) : Except CastError Value :=
  match v, target, kind with
  | _, .void, _ => .ok .void
  | .int n, .float, _ => .ok (.float n.toFloat)
  | .float x, .int, .cast => .ok (.int x.toInt64)
  | .null, target, kind =>
    if target.isNullable then .ok .null
    else
      match kind with
      | .cast => .error (.null target)
      | .typeAs => .ok .null
  | v, target, kind =>
    if v.isInstance target then .ok v
    else
      match kind with
      | .typeAs => .ok .null
      | .cast => .error (.mismatch v.typeName target)

/-! ## Operators -/

/-- Applies a unary operator. -/
def UnaryOp.apply : UnaryOp → Value → Except Fault Value
  | .not, .bool b => .ok (.bool !b)
  | .negate, .int n => .ok (.int (-n))
  | .negate, .float x => .ok (.float (-x))
  | .not, v => .error (.typeMismatch "bool" v.typeName)
  | .negate, v => .error (.typeMismatch "number" v.typeName)

namespace Value

/-- A number as a float. -/
def asFloat? : Value → Option Float
  | .int n => some n.toFloat
  | .float x => some x
  | _ => none

/-- The text of a value where it is joined to a string. -/
def joinText : Value → String
  | .str s => s
  | .null => ""
  | v => v.text

end Value

namespace BinaryOp

/-- Arithmetic on integers, at 64 bits. -/
def onInts? : BinaryOp → Int64 → Int64 → Option Int64
  | .add, a, b => some (a + b)
  | .sub, a, b => some (a - b)
  | .mul, a, b => some (a * b)
  | _, _, _ => none

/-- Arithmetic on floats. -/
def onFloats? : BinaryOp → Float → Float → Option Float
  | .add, a, b => some (a + b)
  | .sub, a, b => some (a - b)
  | .mul, a, b => some (a * b)
  | _, _, _ => none

/-- Two values of which one is a string, joined. -/
def join? (op : BinaryOp) (left right : Value) : Option Value :=
  match op, left, right with
  | .add, .str _, _ => some (.str (left.joinText ++ right.joinText))
  | .add, _, .str _ => some (.str (left.joinText ++ right.joinText))
  | _, _, _ => none

/-- Addition, subtraction and multiplication. -/
def arithmetic? (op : BinaryOp) (left right : Value) : Option Value :=
  match left, right with
  | .int a, .int b => (op.onInts? a b).map .int
  | left, right =>
    match left.asFloat?, right.asFloat? with
    | some a, some b => (op.onFloats? a b).map .float
    | _, _ => op.join? left right

/-- The order of two floats; a value that is no number has none. -/
def compareFloats? (a b : Float) : Option Ordering :=
  if a < b then some .lt else if a == b then some .eq else if b < a then some .gt else none

/-- The order of two values: numbers by size, strings by their characters. -/
def compare? (left right : Value) : Option Ordering :=
  match left, right with
  | .int a, .int b => some (compare a.toInt b.toInt)
  | .str a, .str b => some (compare a b)
  | left, right =>
    match left.asFloat?, right.asFloat? with
    | some a, some b => compareFloats? a b
    | _, _ => none

/-- Whether an order satisfies a comparison. -/
def accepts : BinaryOp → Ordering → Bool
  | .lt, o => o.isLT
  | .le, o => o.isLE
  | .gt, o => o.isGT
  | _, o => o.isGE

/-- Applies an operator to two evaluated operands. The two that may skip their second
operand are not applied this way. -/
def apply (op : BinaryOp) (left right : Value) : Except Fault Value :=
  let result? :=
    match op with
    | .eq => some (.bool (left.equals right))
    | .notEq => some (.bool !(left.equals right))
    | .lt | .le | .gt | .ge => (compare? left right).map fun o => .bool (op.accepts o)
    | _ => op.arithmetic? left right
  match result? with
  | some v => .ok v
  | none => .error (.typeMismatch left.typeName right.typeName)

end BinaryOp

end CodeTree
