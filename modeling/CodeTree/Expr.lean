import CodeTree.Shape
import CodeTree.Fault

/-!
# Trees and values

A tree is a node with an identity, one layer of shape and a type. A value is what
a node evaluates to; constants put values into trees, and a captured tree is
itself a value, so the two are defined together.

Identities are numbers handed out once each (see `CodeTree.Make`). Trees,
arrays, objects and tasks are compared by them, never by content.

* `Value.runtimeTy?` — the type a value shows at run time;
* `Value.equals` — by content for primitives and strings, by identity for
  everything that was allocated.
-/

namespace CodeTree

/-- What a callable value stands for: host code, or a closure of the machine. -/
inductive FuncRef where
  | hosted (code : CodeId)
  | closure (index : Nat)
  deriving DecidableEq, Inhabited

/-- What is inside an object. -/
inductive Content (ν : Type) where
  /-- Named members that never change. -/
  | fields (members : List (String × ν))
  /-- An object whose members and methods are host code, by its number. -/
  | hosted (handle : Nat)
  /-- An evaluation fault on its way through host code. -/
  | fault (fault : Fault)

mutual
/-- What a node evaluates to. -/
inductive Value where
  | void
  | null
  | bool (b : Bool)
  | int (n : Int64)
  | float (x : Float)
  | str (s : String)
  | array (id : Nat) (elem : Ty) (items : List Value)
  | object (id : Nat) (cls : Ty) (content : Content Value)
  | func (ref : FuncRef) (params : List Ty) (ret : Ty)
  /-- An awaitable that has already ended: with a value, or with a thrown one. -/
  | task (id : Nat) (result : Ty) (outcome : Except Value Value)
  /-- A captured tree. -/
  | node (tree : Expr)
/-- A node of a tree. -/
inductive Expr where
  | mk (id : Nat) (shape : Shape Value Expr) (ty : Ty)
end

instance : Inhabited Value := ⟨.void⟩

instance : Inhabited Expr := ⟨.mk 0 .empty .void⟩

/-- What host code answers: a value, or a thrown one. -/
abbrev Reply := Except Value Value

namespace Expr

/-- The identity of a node. -/
def id : Expr → Nat
  | .mk id _ _ => id

def shape : Expr → Shape Value Expr
  | .mk _ shape _ => shape

/-- The type a node evaluates to, fixed when it is built. -/
def ty : Expr → Ty
  | .mk _ _ ty => ty

/-- The direct children of a node. -/
def children (e : Expr) : List Expr := e.shape.children

/-- The variables that a node declares for its children. -/
def bindings (e : Expr) : List Param := e.shape.bindings

/-- Whether two nodes are the identical one. -/
def isIdentical (a b : Expr) : Bool := a.id == b.id

/-- The variable that a node refers to. -/
def asParameter? (e : Expr) : Option Param :=
  match e.shape with
  | .parameter p => some p
  | _ => none

/-- The value that a node holds. -/
def asConstant? (e : Expr) : Option Value :=
  match e.shape with
  | .constant v => some v
  | _ => none

end Expr

namespace Value

/-- The type of a value at run time; `null` has none. -/
def runtimeTy? : Value → Option Ty
  | .null => none
  | .void => some .void
  | .bool _ => some .bool
  | .int _ => some .int
  | .float _ => some .float
  | .str _ => some .string
  | .array _ elem _ => some (.array elem)
  | .object _ cls _ => some cls
  | .func _ params ret => some (.func params ret)
  | .task _ result _ => some (.task result)
  | .node tree => some (.node tree.ty)

/-- The runtime type in words, for messages. -/
def typeName (v : Value) : String :=
  match v.runtimeTy? with
  | some ty => ty.text
  | none => "null"

def isNull : Value → Bool
  | .null => true
  | _ => false

def asBool? : Value → Option Bool
  | .bool b => some b
  | _ => none

def asInt? : Value → Option Int64
  | .int n => some n
  | _ => none

def asStr? : Value → Option String
  | .str s => some s
  | _ => none

/-- Equality: by content for primitives and strings, by identity for what was
allocated. -/
def equals : Value → Value → Bool
  | .void, .void => true
  | .null, .null => true
  | .bool a, .bool b => a == b
  | .int a, .int b => a == b
  | .float a, .float b => a == b
  | .str a, .str b => a == b
  | .array a _ _, .array b _ _ => a == b
  | .object a _ _, .object b _ _ => a == b
  | .func a _ _, .func b _ _ => a == b
  | .task a _ _, .task b _ _ => a == b
  | .node a, .node b => a.isIdentical b
  | _, _ => false

/-- An exception object: its one member is its message. -/
def exception (id : Nat) (cls : Ty) (message : String) : Value :=
  .object id cls (.fields [("message", .str message)])

/-- The initial value of a variable: zero for numbers, `false`, else `null`. -/
def default : Ty → Value
  | .void => .void
  | .bool => .bool false
  | .int => .int 0
  | .float => .float 0.0
  | _ => .null

end Value

end CodeTree
