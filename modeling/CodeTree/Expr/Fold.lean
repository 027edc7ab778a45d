import CodeTree.Expr

/-!
# One recursion for all traversals

`Expr.fold` computes a result for every node from the node itself and from the
layer in which each child stands beside its own result. All traversals are
instances of it, and its one equation, `fold_mk`, is what their laws rest on.
-/

namespace CodeTree.Expr

variable {β : Type}

mutual
/-- The result of a tree: `f` sees the node, and its layer with each child paired
with the child's result. -/
def fold (f : Expr → Shape Value (Expr × β) → β) : Expr → β
  | .mk id shape ty => f (.mk id shape ty) (foldShape f shape)
/-- A layer with each child paired with its result. -/
def foldShape (f : Expr → Shape Value (Expr × β) → β) :
    Shape Value Expr → Shape Value (Expr × β)
  | .empty => .empty
  | .constant v => .constant v
  | .parameter p => .parameter p
  | .block locals body => .block locals (foldList f body)
  | .conditional test ifTrue ifFalse =>
    .conditional (test, fold f test) (ifTrue, fold f ifTrue) (ifFalse, fold f ifFalse)
  | .switch value cases default comparer =>
    .switch (value, fold f value) (foldCases f cases) (foldOption f default) comparer
  | .guarded body handlers cleanup =>
    .guarded (body, fold f body) (foldHandlers f handlers) (foldOption f cleanup)
  | .throw value => .throw (foldOption f value)
  | .call receiver method args => .call (foldOption f receiver) method (foldList f args)
  | .construct ctor args => .construct ctor (foldList f args)
  | .invoke target args => .invoke (target, fold f target) (foldList f args)
  | .member target read => .member (foldOption f target) read
  | .convert kind operand => .convert kind (operand, fold f operand)
  | .typeIs operand testTy => .typeIs (operand, fold f operand) testTy
  | .unary op operand => .unary op (operand, fold f operand)
  | .binary op left right => .binary op (left, fold f left) (right, fold f right)
  | .assign target value => .assign target (value, fold f value)
  | .lambda params body => .lambda params (body, fold f body)
  | .await task => .await (task, fold f task)
  | .newArray elem items => .newArray elem (foldList f items)
  | .jump kind target value => .jump kind target (foldOption f value)
  | .label target default => .label target (foldOption f default)
  | .loop body breakLabel continueLabel => .loop (body, fold f body) breakLabel continueLabel
/-- `fold` along a list. -/
def foldList (f : Expr → Shape Value (Expr × β) → β) : List Expr → List (Expr × β)
  | [] => []
  | e :: es => (e, fold f e) :: foldList f es
/-- `fold` on an optional child. -/
def foldOption (f : Expr → Shape Value (Expr × β) → β) : Option Expr → Option (Expr × β)
  | none => none
  | some e => some (e, fold f e)
/-- `fold` on the children of a switch arm. -/
def foldCase (f : Expr → Shape Value (Expr × β) → β) : Case Expr → Case (Expr × β)
  | ⟨tests, body⟩ => ⟨foldList f tests, (body, fold f body)⟩
/-- `fold` along the arms of a switch. -/
def foldCases (f : Expr → Shape Value (Expr × β) → β) :
    List (Case Expr) → List (Case (Expr × β))
  | [] => []
  | c :: cs => foldCase f c :: foldCases f cs
/-- `fold` on the children of a catch clause. -/
def foldHandler (f : Expr → Shape Value (Expr × β) → β) : Handler Expr → Handler (Expr × β)
  | ⟨exceptionTy, binder, filter, body⟩ =>
    ⟨exceptionTy, binder, foldOption f filter, (body, fold f body)⟩
/-- `fold` along catch clauses. -/
def foldHandlers (f : Expr → Shape Value (Expr × β) → β) :
    List (Handler Expr) → List (Handler (Expr × β))
  | [] => []
  | h :: hs => foldHandler f h :: foldHandlers f hs
end

section Laws

variable (f : Expr → Shape Value (Expr × β) → β)

theorem foldList_eq_map (es : List Expr) :
    foldList f es = es.map fun e => (e, fold f e) := by
  induction es with
  | nil => rfl
  | cons e es ih => rw [foldList, ih, List.map_cons]

theorem foldOption_eq_map (o : Option Expr) :
    foldOption f o = o.map fun e => (e, fold f e) := by
  cases o <;> rfl

theorem foldCases_eq_map (cs : List (Case Expr)) :
    foldCases f cs = cs.map (Case.map fun e => (e, fold f e)) := by
  induction cs with
  | nil => rfl
  | cons c cs ih =>
    rw [foldCases, ih, List.map_cons, foldCase, foldList_eq_map, Case.map]

theorem foldHandlers_eq_map (hs : List (Handler Expr)) :
    foldHandlers f hs = hs.map (Handler.map fun e => (e, fold f e)) := by
  induction hs with
  | nil => rfl
  | cons h hs ih =>
    rw [foldHandlers, ih, List.map_cons, foldHandler, foldOption_eq_map, Handler.map]

theorem foldShape_eq_map (s : Shape Value Expr) :
    foldShape f s = s.map fun e => (e, fold f e) := by
  cases s <;>
    simp only [foldShape, Shape.map, foldList_eq_map, foldOption_eq_map, foldCases_eq_map,
      foldHandlers_eq_map]

/-- The equation of `fold`: a node's result is made from its layer, with every
child beside its own result. -/
theorem fold_mk (id : Nat) (s : Shape Value Expr) (ty : Ty) :
    fold f (.mk id s ty) = f (.mk id s ty) (s.map fun e => (e, fold f e)) := by
  rw [fold, foldShape_eq_map]

end Laws

end CodeTree.Expr
