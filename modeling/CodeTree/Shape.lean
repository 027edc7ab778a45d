import CodeTree.Handle

/-!
# Node shapes

`Shape ν α` is one layer of a tree: what a node is, with its constants drawn from
`ν` and its children from `α`. Traversals are written once against the layer:

* `Shape.children` lists the children in the order in which a walk meets them;
* `Shape.mapM` visits the same children in the same order and rebuilds the layer
  from the results;
* `Shape.bindings` lists the variables that the layer declares for its children.

Main statements: `children_map` — mapping a layer maps its children and keeps
their order — and `bindings_map` — it leaves the declarations alone.
-/

namespace CodeTree

inductive ConvertKind where
  /-- Throws when the value does not fit. -/
  | cast
  /-- Gives `null` when the value does not fit. -/
  | typeAs
  deriving DecidableEq, Inhabited

inductive UnaryOp where
  | not
  | negate
  deriving DecidableEq, Inhabited

inductive BinaryOp where
  | add | sub | mul
  | eq | notEq
  | lt | le | gt | ge
  | andAlso | orElse
  deriving DecidableEq, Inhabited

namespace BinaryOp

def symbol : BinaryOp → String
  | .add => "+"
  | .sub => "-"
  | .mul => "*"
  | .eq => "=="
  | .notEq => "!="
  | .lt => "<"
  | .le => "<="
  | .gt => ">"
  | .ge => ">="
  | .andAlso => "&&"
  | .orElse => "||"

def all : List BinaryOp := [.add, .sub, .mul, .eq, .notEq, .lt, .le, .gt, .ge, .andAlso, .orElse]

/-- The operator that is written with a symbol. -/
def ofSymbol? (s : String) : Option BinaryOp := all.find? (·.symbol == s)

/-- No two operators share a symbol, and every operator is found by its own. -/
theorem ofSymbol?_symbol (op : BinaryOp) : ofSymbol? op.symbol = some op := by
  cases op <;> decide

/-- Whether the operator yields a `bool` whatever its operands are. -/
def isPredicate : BinaryOp → Bool
  | .add | .sub | .mul => false
  | _ => true

end BinaryOp

/-- The keyword a jump is written with. All kinds behave alike. -/
inductive JumpKind where
  | ret
  | brk
  | next
  | goto
  deriving DecidableEq, Inhabited

def JumpKind.keyword : JumpKind → String
  | .ret => "return"
  | .brk => "break"
  | .next => "continue"
  | .goto => "goto"

/-- One arm of a switch: the body runs when one of the tests matches. -/
structure Case (α : Type) where
  tests : List α
  body : α

/-- One catch clause. The filter runs with the variable bound, and the clause is
taken only when it gives `true`. -/
structure Handler (α : Type) where
  exceptionTy : Ty
  binder : Option Param
  filter : Option α
  body : α

/-- One layer of a tree. -/
inductive Shape (ν α : Type) where
  /-- Does nothing; the default value of type `void`. -/
  | empty
  | constant (value : ν)
  | parameter (param : Param)
  | block (locals : List Param) (body : List α)
  /-- A missing second arm is an `empty` node. -/
  | conditional (test ifTrue ifFalse : α)
  | switch (value : α) (cases : List (Case α)) (default : Option α) (comparer : Option Method)
  | guarded (body : α) (handlers : List (Handler α)) (cleanup : Option α)
  /-- Without a value, throws the exception being handled once more. -/
  | throw (value : Option α)
  | call (receiver : Option α) (method : Method) (args : List α)
  | construct (ctor : Ctor) (args : List α)
  /-- Calls a callable value. -/
  | invoke (target : α) (args : List α)
  | member (target : Option α) (read : Member)
  /-- Converts to the type of the node itself. -/
  | convert (kind : ConvertKind) (operand : α)
  | typeIs (operand : α) (testTy : Ty)
  | unary (op : UnaryOp) (operand : α)
  | binary (op : BinaryOp) (left right : α)
  | assign (target : Param) (value : α)
  | lambda (params : List Param) (body : α)
  | await (task : α)
  | newArray (elem : Ty) (items : List α)
  | jump (kind : JumpKind) (target : Label) (value : Option α)
  /-- A jump target; the default is its value when it is reached by falling through. -/
  | label (target : Label) (default : Option α)
  | loop (body : α) (breakLabel continueLabel : Option Label)

namespace Case

variable {α β : Type}

def children (c : Case α) : List α := c.tests ++ [c.body]

def map (f : α → β) (c : Case α) : Case β := ⟨c.tests.map f, f c.body⟩

def mapM {m : Type → Type} [Monad m] (f : α → m β) (c : Case α) : m (Case β) := do
  let tests ← c.tests.mapM f
  let body ← f c.body
  pure ⟨tests, body⟩

@[simp] theorem children_map (f : α → β) (c : Case α) :
    (c.map f).children = c.children.map f := by
  simp [children, map]

end Case

namespace Handler

variable {α β : Type}

def children (h : Handler α) : List α := h.filter.toList ++ [h.body]

def map (f : α → β) (h : Handler α) : Handler β :=
  ⟨h.exceptionTy, h.binder, h.filter.map f, f h.body⟩

def mapM {m : Type → Type} [Monad m] (f : α → m β) (h : Handler α) : m (Handler β) := do
  let filter ← h.filter.mapM f
  let body ← f h.body
  pure ⟨h.exceptionTy, h.binder, filter, body⟩

@[simp] theorem children_map (f : α → β) (h : Handler α) :
    (h.map f).children = h.children.map f := by
  cases hf : h.filter <;> simp [children, map, hf]

end Handler

namespace Shape

variable {ν α β γ : Type}

/-- The children of a layer, in the order in which they are evaluated when the
layer evaluates all of them. -/
def children : Shape ν α → List α
  | .empty | .constant _ | .parameter _ => []
  | .block _ body => body
  | .conditional test ifTrue ifFalse => [test, ifTrue, ifFalse]
  | .switch value cases default _ => value :: (cases.flatMap Case.children ++ default.toList)
  | .guarded body handlers cleanup =>
    body :: (handlers.flatMap Handler.children ++ cleanup.toList)
  | .throw value => value.toList
  | .call receiver _ args => receiver.toList ++ args
  | .construct _ args => args
  | .invoke target args => target :: args
  | .member target _ => target.toList
  | .convert _ operand => [operand]
  | .typeIs operand _ => [operand]
  | .unary _ operand => [operand]
  | .binary _ left right => [left, right]
  | .assign _ value => [value]
  | .lambda _ body => [body]
  | .await task => [task]
  | .newArray _ items => items
  | .jump _ _ value => value.toList
  | .label _ default => default.toList
  | .loop body _ _ => [body]

/-- The layer with every child replaced. -/
def map (f : α → β) : Shape ν α → Shape ν β
  | .empty => .empty
  | .constant v => .constant v
  | .parameter p => .parameter p
  | .block locals body => .block locals (body.map f)
  | .conditional test ifTrue ifFalse => .conditional (f test) (f ifTrue) (f ifFalse)
  | .switch value cases default comparer =>
    .switch (f value) (cases.map (Case.map f)) (default.map f) comparer
  | .guarded body handlers cleanup =>
    .guarded (f body) (handlers.map (Handler.map f)) (cleanup.map f)
  | .throw value => .throw (value.map f)
  | .call receiver method args => .call (receiver.map f) method (args.map f)
  | .construct ctor args => .construct ctor (args.map f)
  | .invoke target args => .invoke (f target) (args.map f)
  | .member target read => .member (target.map f) read
  | .convert kind operand => .convert kind (f operand)
  | .typeIs operand testTy => .typeIs (f operand) testTy
  | .unary op operand => .unary op (f operand)
  | .binary op left right => .binary op (f left) (f right)
  | .assign target value => .assign target (f value)
  | .lambda params body => .lambda params (f body)
  | .await task => .await (f task)
  | .newArray elem items => .newArray elem (items.map f)
  | .jump kind target value => .jump kind target (value.map f)
  | .label target default => .label target (default.map f)
  | .loop body breakLabel continueLabel => .loop (f body) breakLabel continueLabel

/-- The layer with every child replaced by the result of an action; the actions
run in the order of `children`. -/
def mapM {m : Type → Type} [Monad m] (f : α → m β) : Shape ν α → m (Shape ν β)
  | .empty => pure .empty
  | .constant v => pure (.constant v)
  | .parameter p => pure (.parameter p)
  | .block locals body => do
    let body ← body.mapM f
    pure (.block locals body)
  | .conditional test ifTrue ifFalse => do
    let test ← f test
    let ifTrue ← f ifTrue
    let ifFalse ← f ifFalse
    pure (.conditional test ifTrue ifFalse)
  | .switch value cases default comparer => do
    let value ← f value
    let cases ← cases.mapM (Case.mapM f)
    let default ← default.mapM f
    pure (.switch value cases default comparer)
  | .guarded body handlers cleanup => do
    let body ← f body
    let handlers ← handlers.mapM (Handler.mapM f)
    let cleanup ← cleanup.mapM f
    pure (.guarded body handlers cleanup)
  | .throw value => do
    let value ← value.mapM f
    pure (.throw value)
  | .call receiver method args => do
    let receiver ← receiver.mapM f
    let args ← args.mapM f
    pure (.call receiver method args)
  | .construct ctor args => do
    let args ← args.mapM f
    pure (.construct ctor args)
  | .invoke target args => do
    let target ← f target
    let args ← args.mapM f
    pure (.invoke target args)
  | .member target read => do
    let target ← target.mapM f
    pure (.member target read)
  | .convert kind operand => do
    let operand ← f operand
    pure (.convert kind operand)
  | .typeIs operand testTy => do
    let operand ← f operand
    pure (.typeIs operand testTy)
  | .unary op operand => do
    let operand ← f operand
    pure (.unary op operand)
  | .binary op left right => do
    let left ← f left
    let right ← f right
    pure (.binary op left right)
  | .assign target value => do
    let value ← f value
    pure (.assign target value)
  | .lambda params body => do
    let body ← f body
    pure (.lambda params body)
  | .await task => do
    let task ← f task
    pure (.await task)
  | .newArray elem items => do
    let items ← items.mapM f
    pure (.newArray elem items)
  | .jump kind target value => do
    let value ← value.mapM f
    pure (.jump kind target value)
  | .label target default => do
    let default ← default.mapM f
    pure (.label target default)
  | .loop body breakLabel continueLabel => do
    let body ← f body
    pure (.loop body breakLabel continueLabel)

/-- The variables that a layer declares for its children. -/
def bindings : Shape ν α → List Param
  | .block locals _ => locals
  | .lambda params _ => params
  | .guarded _ handlers _ => handlers.filterMap Handler.binder
  | _ => []

/-- The name of a shape. -/
def kindName : Shape ν α → String
  | .empty => "Empty"
  | .constant _ => "Constant"
  | .parameter _ => "Parameter"
  | .block .. => "Block"
  | .conditional .. => "Conditional"
  | .switch .. => "Switch"
  | .guarded .. => "Try"
  | .throw _ => "Throw"
  | .call .. => "Call"
  | .construct .. => "New"
  | .invoke .. => "Invoke"
  | .member .. => "Member"
  | .convert .. => "Convert"
  | .typeIs .. => "TypeIs"
  | .unary .. => "Unary"
  | .binary .. => "Binary"
  | .assign .. => "Assign"
  | .lambda .. => "Lambda"
  | .await _ => "Await"
  | .newArray .. => "NewArray"
  | .jump .. => "Goto"
  | .label .. => "Label"
  | .loop .. => "Loop"

/-! ## Laws of `map` -/

/-- Mapping a layer maps its children and keeps their order. -/
@[simp] theorem children_map (f : α → β) (s : Shape ν α) :
    (s.map f).children = s.children.map f := by
  have opt : ∀ o : Option α, (o.map f).toList = o.toList.map f := by
    intro o; cases o <;> rfl
  cases s <;> simp [map, children, opt, List.map_flatMap, List.flatMap_map]

/-- Mapping a layer leaves its declarations alone. -/
@[simp] theorem bindings_map (f : α → β) (s : Shape ν α) :
    (s.map f).bindings = s.bindings := by
  cases s <;> simp [map, bindings, List.filterMap_map, Function.comp_def, Handler.map]

end Shape

end CodeTree
