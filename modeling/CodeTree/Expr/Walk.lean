import CodeTree.Expr.Fold

/-!
# Walking a tree

A walk enters a node, announces the variables it declares, then the variable it
refers to, then its children from left to right, and leaves it. `events` records
such a walk; `nodes`, `count` and `depth` are views of the same order.
-/

namespace CodeTree.Expr

/-- What a walk comes across. -/
inductive Event where
  | enter (e : Expr)
  | binding (p : Param)
  | reference (p : Param)
  | leave (e : Expr)

/-- An event as a line of a report. -/
def Event.text : Event → String
  | .enter e => "visit " ++ e.shape.kindName
  | .binding p => "binding " ++ p.displayName ++ ": " ++ p.ty.text
  | .reference p => "parameter " ++ p.displayName
  | .leave e => "leave " ++ e.shape.kindName

/-- A walk of the whole tree. -/
def events : Expr → List Event :=
  fold fun e layer =>
    [.enter e] ++ layer.bindings.map .binding ++
      (match layer with
        | .parameter p => [.reference p]
        | _ => []) ++
      layer.children.flatMap (·.2) ++ [.leave e]

/-- All nodes, each before its children. -/
def nodes : Expr → List Expr :=
  fold fun e layer => e :: layer.children.flatMap (·.2)

/-- Kind and type of every node, each before its children. -/
def outline (e : Expr) : List String :=
  e.nodes.map fun n => n.shape.kindName ++ ":" ++ n.ty.text

/-- The number of nodes; a shared node counts at each of its places. -/
def count : Expr → Nat :=
  fold fun _ layer => 1 + (layer.children.map (·.2)).foldl (· + ·) 0

/-- The number of nodes on the longest way down. -/
def depth : Expr → Nat :=
  fold fun _ layer => 1 + (layer.children.map (·.2)).foldl max 0

/-- Whether some node satisfies a test. -/
def someNode (test : Expr → Bool) : Expr → Bool :=
  fold fun e layer => test e || layer.children.any (·.2)

end CodeTree.Expr
