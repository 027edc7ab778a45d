import CodeTree.Rewrite

/-!
# Type-directed substitution

A `Substitution` replaces free parameter references by trees from a pool. A
reference is matched by the type of its variable, and the first tree of an equal
type is taken, so two trees of one type are never both used. References to
variables that the rewritten tree declares itself stay.

A collecting substitution puts every unmatched reference into the pool, so that
later references of the same type resolve to it.
-/

namespace CodeTree

structure Substitution where
  /-- What references are replaced by, in order of preference. -/
  pool : List Expr
  /-- Whether unmatched references join the pool. -/
  collecting : Bool := false
  /-- The variables declared around the current node, one entry per declaration. -/
  bound : List Param := []

namespace Substitution

/-- Actions of a substitution in progress. -/
abbrev Pass := StateT Substitution Make

def isBound (s : Substitution) (p : Param) : Bool := s.bound.any (· == p)

/-- Replaces one reference, or keeps it. -/
def replaceReference (e : Expr) (p : Param) : Pass Expr := do
  let s ← get
  if s.isBound p then pure e
  else
    match s.pool.find? (·.ty == p.ty) with
    | some replacement =>
      -- a reference to the variable itself leaves the node alone
      if replacement.asParameter? == some p then pure e else pure replacement
    | none =>
      if s.collecting then set { s with pool := s.pool ++ [e] }
      pure e

/-- The rewriting pass of a substitution. -/
def rewriter : Rewriter Pass where
  parameter := replaceReference
  enter declared := modify fun s => { s with bound := declared ++ s.bound }
  leave declared := modify fun s => { s with bound := s.bound.drop declared.length }

/-- Rewrites a tree. The pool persists, so a substitution may be used again. -/
def replace (e : Expr) : Pass Expr := do
  let s ← get
  if s.pool.isEmpty && !s.collecting then pure e else rewriter.rewrite e

end Substitution

/-- Replaces the free parameter references of a tree by type. -/
def Expr.replaceParameters (e : Expr) (pool : List Expr) : Make Expr := do
  let (result, _) ← (Substitution.replace e).run ⟨pool, false, []⟩
  pure result

end CodeTree
