/-!
# Types

Every node of a tree and every value carries a `Ty`: six primitives, nominal
classes and interfaces, and four constructed types. A nominal type embeds its
own ancestry, so no registry is needed, and two of them are equal when their
names are.

* `Ty.same` — equality, which looks at a nominal type's name only;
* `Ty.isAssignableFrom` — whether a value of one type may stand where another
  is expected: equal types, anything but `void` under `object`, and a class
  under its ancestors;
* `Ty.text` — the printed form.

Main statement: `Ty.beq_iff` — types are equal when they are the same apart from ancestry, so that
equality is an equivalence.
-/

namespace CodeTree

/-- The type of a node or of a value. `node t` is the type of a captured tree
of type `t`; it belongs to closures that are still being described. -/
inductive Ty where
  | void
  | bool
  | int
  | float
  | string
  /-- The root of every type but `void`. -/
  | object
  /-- A class or interface, with its base and the interfaces it implements. -/
  | nominal (name : String) (base : Option Ty) (interfaces : List Ty) (isInterface : Bool)
  | array (elem : Ty)
  /-- An awaitable that produces `result`. -/
  | task (result : Ty)
  | func (params : List Ty) (ret : Ty)
  | node (inner : Ty)
  deriving Inhabited

namespace Ty

/-- A class that stands directly under `object`. -/
def rootClass (name : String) : Ty := .nominal name none [] false

/-- A class with a base class. -/
def subclass (name : String) (base : Ty) : Ty := .nominal name (some base) [] false

/-- An interface that extends no other. -/
def interface (name : String) : Ty := .nominal name none [] true

mutual
/-- Equality of types. A nominal type is known by its name alone, so its
ancestry does not take part. -/
def same : Ty → Ty → Bool
  | .void, .void => true
  | .bool, .bool => true
  | .int, .int => true
  | .float, .float => true
  | .string, .string => true
  | .object, .object => true
  | .nominal n _ _ _, .nominal m _ _ _ => n == m
  | .array a, .array b => same a b
  | .task a, .task b => same a b
  | .func ps r, .func qs s => sameAll ps qs && same r s
  | .node a, .node b => same a b
  | _, _ => false
/-- `same`, position by position. -/
def sameAll : List Ty → List Ty → Bool
  | [], [] => true
  | a :: as, b :: bs => same a b && sameAll as bs
  | _, _ => false
end

mutual
theorem same_self : ∀ ty : Ty, same ty ty = true
  | .void | .bool | .int | .float | .string | .object => rfl
  | .nominal name _ _ _ => beq_self_eq_true name
  | .array elem => same_self elem
  | .task result => same_self result
  | .func params ret => by rw [same, sameAll_self params, same_self ret, Bool.and_self]
  | .node inner => same_self inner
theorem sameAll_self : ∀ tys : List Ty, sameAll tys tys = true
  | [] => rfl
  | ty :: tys => by rw [sameAll, same_self ty, sameAll_self tys, Bool.and_self]
end

instance : BEq Ty := ⟨same⟩

mutual
/-- The type with its classes and interfaces taken out of their ancestry. -/
def withoutAncestry : Ty → Ty
  | .void => .void
  | .bool => .bool
  | .int => .int
  | .float => .float
  | .string => .string
  | .object => .object
  | .nominal name _ _ _ => .nominal name none [] false
  | .array elem => .array (withoutAncestry elem)
  | .task result => .task (withoutAncestry result)
  | .func params ret => .func (allWithoutAncestry params) (withoutAncestry ret)
  | .node inner => .node (withoutAncestry inner)
/-- `withoutAncestry` along a list. -/
def allWithoutAncestry : List Ty → List Ty
  | [] => []
  | ty :: tys => withoutAncestry ty :: allWithoutAncestry tys
end

mutual
theorem same_iff : ∀ a b : Ty, same a b ↔ a.withoutAncestry = b.withoutAncestry
  | .void, b | .bool, b | .int, b | .float, b | .string, b | .object, b => by
    cases b <;> simp [same, withoutAncestry]
  | .nominal .., b => by cases b <;> simp [same, withoutAncestry]
  | .array elem, b => by cases b <;> simp [same, withoutAncestry, same_iff elem]
  | .task result, b => by cases b <;> simp [same, withoutAncestry, same_iff result]
  | .func params ret, b => by
    cases b <;> simp [same, withoutAncestry, sameAll_iff params, same_iff ret]
  | .node inner, b => by cases b <;> simp [same, withoutAncestry, same_iff inner]
theorem sameAll_iff : ∀ as bs : List Ty,
    sameAll as bs ↔ allWithoutAncestry as = allWithoutAncestry bs
  | [], bs => by cases bs <;> simp [sameAll, allWithoutAncestry]
  | a :: as, bs => by
    cases bs <;> simp [sameAll, allWithoutAncestry, same_iff a, sameAll_iff as]
end

theorem beq_iff {a b : Ty} : (a == b) = true ↔ a.withoutAncestry = b.withoutAncestry := same_iff a b

instance : EquivBEq Ty where
  rfl := same_self _
  symm h := beq_iff.mpr (beq_iff.mp h).symm
  trans h h' := beq_iff.mpr ((beq_iff.mp h).trans (beq_iff.mp h'))

mutual
/-- Whether `target` names this class or one of its ancestors. Only classes and
interfaces have ancestors; other types in an ancestry are passed over. -/
def derivesFrom (target : String) : Ty → Bool
  | .nominal name base interfaces _ =>
    name == target || baseDerivesFrom target base || someDerivesFrom target interfaces
  | _ => false
/-- `derivesFrom` through an optional base. -/
def baseDerivesFrom (target : String) : Option Ty → Bool
  | none => false
  | some base => derivesFrom target base
/-- `derivesFrom` through one of several interfaces. -/
def someDerivesFrom (target : String) : List Ty → Bool
  | [] => false
  | t :: ts => derivesFrom target t || someDerivesFrom target ts
end

def isVoid : Ty → Bool
  | .void => true
  | _ => false

/-- Whether this is the type of a captured tree. -/
def isNode : Ty → Bool
  | .node _ => true
  | _ => false

/-- Whether `null` is a value of this type. -/
def isNullable : Ty → Bool
  | .void | .bool | .int | .float => false
  | _ => true

/-- Whether a value of type `source` may be stored where `target` is expected
without a conversion. -/
def isAssignableFrom (target source : Ty) : Bool :=
  target == source ||
    match target, source with
    | .object, other => !other.isVoid
    | .nominal name _ _ _, .nominal .. => source.derivesFrom name
    | _, _ => false

theorem isAssignableFrom_self (ty : Ty) : ty.isAssignableFrom ty = true := by
  unfold isAssignableFrom
  rw [show (ty == ty) = true from same_self ty, Bool.true_or]

/-- What awaiting a value of this type yields. -/
def taskResult? : Ty → Option Ty
  | .task result => some result
  | _ => none

/-- Parameter and return types of a callable type. -/
def signature? : Ty → Option (List Ty × Ty)
  | .func params ret => some (params, ret)
  | _ => none

mutual
/-- The printed form of a type. -/
def text : Ty → String
  | .void => "void"
  | .bool => "bool"
  | .int => "int"
  | .float => "float"
  | .string => "string"
  | .object => "object"
  | .nominal name _ _ _ => name
  | .array elem => text elem ++ "[]"
  | .task result => "Task<" ++ text result ++ ">"
  | .func params ret => "Func<" ++ paramsText params ++ text ret ++ ">"
  | .node inner => "Node<" ++ text inner ++ ">"
/-- Parameter types, each followed by a comma: the return type comes last. -/
def paramsText : List Ty → String
  | [] => ""
  | p :: ps => text p ++ ", " ++ paramsText ps
end

end Ty

/-! ## Built-in classes -/

namespace Ty

/-- The root of all exception classes. -/
def exception : Ty := rootClass "Exception"

def invalidOperation : Ty := subclass "InvalidOperationException" exception

def invalidCast : Ty := subclass "InvalidCastException" exception

def nullReference : Ty := subclass "NullReferenceException" exception

def argument : Ty := subclass "ArgumentException" exception

def missingMember : Ty := subclass "MissingMemberException" exception

/-- The interface of resources that are released at the end of their scope. -/
def disposable : Ty := interface "Disposable"

/-- The class of an evaluation fault seen from host code. It stands under no
exception class, so no catch clause is written for it. -/
def evaluationFault : Ty := rootClass "EvaluationFault"

/-- The types that are known by one word: the primitives and the built-in classes. -/
def builtins : List Ty :=
  [.void, .bool, .int, .float, .string, .object, exception, invalidOperation, argument,
    invalidCast, nullReference, missingMember, disposable]

end Ty

end CodeTree
