import CodeTree.Expr.Fold

/-!
# Free parameters

A reference to a variable is free in a tree unless some node above it declares
the variable. `freeParameters` lists the free variables without repetition, in
the order in which a walk first meets them; an assignment to a variable is not a
reference to it.

Main statement: `freeFrom_mk`, the equation of the walk.
-/

namespace CodeTree.Expr

/-- Whether a variable is among those given, by identity. -/
def isAmong (p : Param) (ps : List Param) : Bool := ps.any (· == p)

/-- One step of the walk. `bound` are the variables declared above the node, and
`seen` the free ones met so far. -/
def freeStep (_ : Expr) (layer : Shape Value (Expr × (List Param → List Param → List Param)))
    (bound seen : List Param) : List Param :=
  match layer with
  | .parameter p => if isAmong p bound || isAmong p seen then seen else seen ++ [p]
  | layer =>
    layer.children.foldl (fun seen child => child.2 (layer.bindings ++ bound) seen) seen

/-- The free variables met by walking a tree below the declarations `bound`,
after those already `seen`. -/
def freeFrom : Expr → List Param → List Param → List Param := fold freeStep

/-- The free variables of a tree that stands below the declarations `bound`. -/
def freeUnder (bound : List Param) (e : Expr) : List Param := e.freeFrom bound []

/-- The variables a tree refers to without declaring them. -/
def freeParameters (e : Expr) : List Param := e.freeUnder []

/-- Walking the children of a layer from left to right, below its declarations. -/
theorem foldl_freeFrom (s : Shape Value Expr) (bound seen : List Param) :
    (s.map fun e => (e, freeFrom e)).children.foldl
        (fun seen child => child.2 ((s.map fun e => (e, freeFrom e)).bindings ++ bound) seen) seen =
      s.children.foldl (fun seen child => child.freeFrom (s.bindings ++ bound) seen) seen := by
  simp only [Shape.children_map, Shape.bindings_map, List.foldl_map]

/-- A reference is counted when it is neither bound nor counted already; any other
node passes its declarations down and its children on from left to right. -/
theorem freeFrom_mk (id : Nat) (s : Shape Value Expr) (ty : Ty) (bound seen : List Param) :
    freeFrom (.mk id s ty) bound seen =
      match s with
      | .parameter p => if isAmong p bound || isAmong p seen then seen else seen ++ [p]
      | s =>
        s.children.foldl (fun seen child => child.freeFrom (s.bindings ++ bound) seen) seen := by
  rw [freeFrom, fold_mk]
  cases s with
  | parameter p => rfl
  | _ => exact foldl_freeFrom _ bound seen

end CodeTree.Expr
