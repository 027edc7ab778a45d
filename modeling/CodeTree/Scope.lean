import CodeTree.Expr

/-!
# Scopes

A scope is a chain of links, innermost first. Each link names a frame of the
store, where the bindings live: scopes share frames, so an assignment through one
scope is seen from every scope that shares the frame. The link of a catch clause
also carries the exception being handled, which never changes.

* `Store.lookup`, `Store.assign` — use the nearest frame on the chain that
  declares the variable;
* `Store.declare` — binds in the innermost frame, in front of outer bindings;
* `Scope.currentException?` — the exception of the nearest catch clause.

Main statement: `Frame.get?_set`, the law of a single frame.
-/

namespace CodeTree

/-- The bindings of one frame, by the identity of the variable. -/
abbrev Frame := List (Nat × Value)

namespace Frame

/-- The value of a variable. -/
def get? : Frame → Nat → Option Value
  | [], _ => none
  | (key, v) :: rest, id => if id = key then some v else get? rest id

/-- Binds a variable, in place of an earlier binding. -/
def set : Frame → Nat → Value → Frame
  | [], id, v => [(id, v)]
  | (key, old) :: rest, id, v => if id = key then (key, v) :: rest else (key, old) :: set rest id v

/-- Reading after binding: the new value of that variable, the old value of others. -/
theorem get?_set (frame : Frame) (id other : Nat) (v : Value) :
    (frame.set id v).get? other = if other = id then some v else frame.get? other := by
  induction frame with
  | nil => simp only [set, get?]
  | cons entry rest ih =>
    obtain ⟨key, old⟩ := entry
    by_cases hk : id = key
    · subst hk
      by_cases h : other = id <;> simp [set, get?, h]
    · by_cases h : other = key
      · subst h
        simp [set, get?, hk, Ne.symm hk]
      · simp [set, get?, hk, h, ih]

end Frame

/-- One link of a scope. -/
structure Link where
  frame : Nat
  /-- The exception being handled, on the link of a catch clause. -/
  handling : Option Value

/-- A chain of links, innermost first. -/
structure Scope where
  links : List Link

/-- The exception handled by the nearest enclosing catch clause. -/
def Scope.currentException? (s : Scope) : Option Value := s.links.findSome? Link.handling

/-- The frames of all scopes. -/
structure Store where
  frames : Array Frame

namespace Store

/-- No frames at all. -/
def empty : Store := ⟨#[]⟩

/-- The bindings of a frame; a frame that was never made has none. -/
def frame (s : Store) (n : Nat) : Frame := s.frames.getD n []

/-- A new frame in front of a chain. -/
def push (s : Store) (links : List Link) (handling : Option Value) : Scope × Store :=
  (⟨⟨s.frames.size, handling⟩ :: links⟩, ⟨s.frames.push []⟩)

/-- A scope with no parent. -/
def root (s : Store) : Scope × Store := s.push [] none

/-- A nested scope. -/
def child (s : Store) (scope : Scope) : Scope × Store := s.push scope.links none

/-- A nested scope for a catch clause that handles `exception`. -/
def childHandling (s : Store) (scope : Scope) (exception : Value) : Scope × Store :=
  s.push scope.links (some exception)

/-- Binds a variable in one frame. -/
def write (s : Store) (frame id : Nat) (v : Value) : Store :=
  ⟨s.frames.modify frame fun f => f.set id v⟩

/-- Binds a variable in the innermost frame. -/
def declare (s : Store) (scope : Scope) (id : Nat) (v : Value) : Store :=
  match scope.links with
  | [] => s
  | link :: _ => s.write link.frame id v

/-- The nearest frame on a chain that binds a variable. -/
def owner? (s : Store) (scope : Scope) (id : Nat) : Option Nat :=
  (scope.links.find? fun link => ((s.frame link.frame).get? id).isSome).map Link.frame

/-- The value of a variable in the nearest frame that binds it. -/
def lookup (s : Store) (scope : Scope) (id : Nat) : Option Value :=
  scope.links.findSome? fun link => (s.frame link.frame).get? id

/-- Overwrites the nearest binding of a variable, and says whether there was one. Without one,
nothing changes. -/
def assign (s : Store) (scope : Scope) (id : Nat) (v : Value) : Bool × Store :=
  match s.owner? scope id with
  | some frame => (true, s.write frame id v)
  | none => (false, s)

end Store

end CodeTree
