import CodeTree.Builder.Block
import CodeTree.Capture
import CodeTree.Normalize

/-!
# Common phrases

Short ways to say what trees say often: embedding host data, reading members by name,
returning, assigning, and running host code in the middle of a tree.
-/

namespace CodeTree

/-- The kinds of host data that can be embedded as constants. -/
inductive Embedding where
  | void
  | bool
  | int
  | float
  | string
  /-- Any value, as an `object`. -/
  | value
  deriving DecidableEq, Inhabited

namespace Embedding

/-- The type under which such data is embedded. -/
def ty : Embedding → Ty
  | .void => .void
  | .bool => .bool
  | .int => .int
  | .float => .float
  | .string => .string
  | .value => .object

/-- A value as data of this kind; a value of another type counts as the kind's zero. -/
def coerce : Embedding → Value → Value
  | .void, _ => .void
  | .bool, .bool b => .bool b
  | .bool, _ => .bool false
  | .int, .int n => .int n
  | .int, _ => .int 0
  | .float, .float x => .float x
  | .float, _ => .float 0.0
  | .string, .str s => .str s
  | .string, _ => .str ""
  | .value, v => v

/-- Embedded data as a constant node. -/
def constant (kind : Embedding) (v : Value) : Make Expr :=
  Expr.typedConstant (kind.coerce v) kind.ty

end Embedding

namespace Expr

/-- Reads a member by name; the node's own type declares it. -/
def readNamed (self : Expr) (kind : MemberKind) (name : String) (ty : Ty) : Make Expr :=
  member (some self) ⟨name, self.ty, ty, kind⟩

/-- A node, or `null` of the given type in its place. -/
def orNull (ty : Ty) : Option Expr → Make Expr
  | some e => pure e
  | none => null ty

/-- The two statements that return a value: a jump, and the label right behind it. They
belong at the end of the enclosing block. -/
def returning (self : Expr) (ty : Ty) : Make (List Expr) := do
  let target ← Label.make ty (some "return")
  let exit ← jump .ret target (some self)
  let default ← defaultOf ty
  let landing ← label target (some default)
  pure [exit, landing]

/-- Assigns to the variable that a node refers to. -/
def assignTo (self value : Expr) : Build Expr :=
  match self.expectParameter with
  | .ok p => assign p value
  | .error error => MonadExcept.throw error

/-- Assigns one of two values, as an `if` statement. -/
def assignEither (self test ifTrue ifFalse : Expr) : Build Expr := do
  let first ← self.assignTo ifTrue
  let second ← self.assignTo ifFalse
  ifThenElse test first second

/-- A new object through a constructor without parameters. -/
def newObject (ctor : Ctor) : Build Expr :=
  if ctor.params.isEmpty then construct ctor []
  else MonadExcept.throw (.notParameterless ctor.declaring.text ctor.params.length)

end Expr

section

variable {σ : Type} (H : Host σ) (fuel : Nat)

/-- A call of host code from within a tree. -/
def hostCode (code : CodeId) (params : List Ty) (ret : Ty) (args : List Expr) : Step σ Expr := do
  let target ← Step.make
    (Expr.typedConstant (.func (.hosted code) params ret) (.func params ret))
  let call ← Step.make (Expr.invoke target args)
  describedCall H fuel {} call none

/-- Host code that receives the value of a node, which is taken as a value of type `ty`. -/
def hostCodeOn (self : Expr) (ty : Ty) (code : CodeId) (ret : Ty) : Step σ Expr := do
  let env ← Step.make ((({} : Captures).node "instance" self).seal)
  let arg ← Step.make (env.node "instance" ty)
  hostCode H fuel code [ty] ret [arg]

/-- Waits for the task that a described call produces. -/
def awaitDescribed (closure : Expr) : Step σ Expr := do
  let task ← describedClosure H fuel {} closure none
  Step.make (Expr.await task)

end

end CodeTree
