import CodeTree.Ty

/-!
# What a tree refers to

A tree names variables, jump targets and host code through small descriptors.
Variables and labels are known by their identity: two of the same name and type
are still different. Methods and constructors point at host code by number, so
that a tree holds no code of its own.
-/

namespace CodeTree

/-- The number by which host code is found. -/
abbrev CodeId := Nat

/-- A lambda parameter, block variable or catch variable. -/
structure Param where
  id : Nat
  name : Option String
  ty : Ty
  deriving Inhabited

instance : BEq Param := ⟨fun a b => a.id == b.id⟩

/-- The name in printed trees; an anonymous variable shows its identity. -/
def Param.displayName (p : Param) : String :=
  match p.name with
  | some name => name
  | none => "$p" ++ toString p.id

/-- The target of a jump. Its type is the type of the value that jumps carry. -/
structure Label where
  id : Nat
  name : Option String
  ty : Ty
  deriving Inhabited

instance : BEq Label := ⟨fun a b => a.id == b.id⟩

/-- The name in printed trees, with the identity that tells labels apart. -/
def Label.displayName (l : Label) : String :=
  match l.name with
  | some name => name ++ "#" ++ toString l.id
  | none => "L" ++ toString l.id

/-- How a method finds its code. -/
inductive MethodBody where
  /-- Host code that sees the arguments only. -/
  | shared (code : CodeId)
  /-- Host code that also sees the receiver and refuses to run without one. -/
  | bound (code : CodeId)
  /-- The receiver decides, by the method's name. -/
  | dispatched
  deriving Inhabited

structure Method where
  name : String
  declaring : Ty
  params : List Ty
  ret : Ty
  isStatic : Bool
  body : MethodBody
  deriving Inhabited

namespace Method

/-- A static method. -/
def static (name : String) (declaring : Ty) (params : List Ty) (ret : Ty) (code : CodeId) :
    Method :=
  ⟨name, declaring, params, ret, true, .shared code⟩

/-- An instance method with host code of its own. -/
def instanceOf (name : String) (declaring : Ty) (params : List Ty) (ret : Ty) (code : CodeId) :
    Method :=
  ⟨name, declaring, params, ret, false, .bound code⟩

/-- An instance method that the receiver answers by name. -/
def virtual (name : String) (declaring : Ty) (params : List Ty) (ret : Ty) : Method :=
  ⟨name, declaring, params, ret, false, .dispatched⟩

/-- One line that names the method and its types. -/
def summary (m : Method) : String :=
  m.declaring.text ++ "." ++ m.name ++ "(" ++ ", ".intercalate (m.params.map Ty.text) ++
    ") -> " ++ m.ret.text

/-- Releases a resource; its receiver answers. -/
def dispose : Method := virtual "dispose" .disposable [] .void

end Method

structure Ctor where
  declaring : Ty
  params : List Ty
  code : CodeId
  deriving Inhabited

/-- One line that names the class and counts the parameters. -/
def Ctor.summary (c : Ctor) : String :=
  "new " ++ c.declaring.text ++ "/" ++ toString c.params.length

/-- A plain field or a computed property. Reads of both ask the object. -/
inductive MemberKind where
  | field
  | property
  deriving DecidableEq, Inhabited

structure Member where
  name : String
  declaring : Ty
  ty : Ty
  kind : MemberKind
  deriving Inhabited

end CodeTree
