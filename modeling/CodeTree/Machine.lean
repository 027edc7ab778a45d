import CodeTree.Host
import CodeTree.Make
import CodeTree.Scope

/-!
# The machine

Evaluation works on a machine: the supply of identities, the frames of all scopes,
the closures made so far, the number of lambda activations in progress for each
interpreter, and the host's state.

An action is a `Step`: it changes the machine and gives a result, or gives nothing
when it did not finish within its fuel. A `Run` is a step that may leave early: by a
thrown value, by a jump, or by a fault. Being out of fuel is not an exit, so that
nothing can catch it.
-/

namespace CodeTree

/-- An evaluator: its limit on nested lambda calls, and the counter it shares with
the closures it makes. -/
structure Interp where
  /-- Which counter of the machine is its own. -/
  id : Nat
  limit : Nat

/-- A lambda together with the scope and the interpreter that made it. -/
structure Closure where
  params : List Param
  body : Expr
  ret : Ty
  scope : Scope
  interp : Interp

structure Machine (σ : Type) where
  /-- The next identity. -/
  next : Nat
  store : Store
  closures : Array Closure
  /-- Activations in progress, by interpreter. -/
  depths : Array Nat
  host : σ

/-- A machine that has done nothing yet. -/
def Machine.initial {σ : Type} (host : σ) : Machine σ := ⟨1, .empty, #[], #[], host⟩

/-- A way of leaving an evaluation other than by its value. -/
inductive Exit where
  | throw (value : Value)
  | jump (label : Label) (value : Value)
  | fault (fault : Fault)

/-- An action on the machine; nothing when it did not finish. -/
abbrev Step (σ : Type) := StateT (Machine σ) Option

/-- An action on the machine that may leave early. -/
abbrev Run (σ : Type) := ExceptT Exit (Step σ)

namespace Step

variable {σ α : Type}

/-- No answer within the fuel. -/
def outOfFuel : Step σ α := fun _ => none

/-- Draws identities from the machine's supply. -/
def make (act : Make α) : Step σ α := fun s =>
  let (a, next) := act s.next
  some (a, { s with next := next })

instance : MonadLift Make (Step σ) := ⟨make⟩

def fresh : Step σ Nat := make Make.fresh

/-- Works on the frames. -/
def onStore (act : Store → α × Store) : Step σ α := fun ⟨next, store, closures, depths, host⟩ =>
  let (a, store) := act store
  some (a, ⟨next, store, closures, depths, host⟩)

/-- A scope with no parent. -/
def rootScope : Step σ Scope := onStore Store.root

/-- A nested scope. -/
def childScope (scope : Scope) : Step σ Scope := onStore fun s => s.child scope

/-- A nested scope that handles an exception. -/
def handlingScope (scope : Scope) (exception : Value) : Step σ Scope :=
  onStore fun s => s.childHandling scope exception

/-- Binds a variable in the innermost frame. -/
def declare (scope : Scope) (p : Param) (v : Value) : Step σ Unit :=
  onStore fun s => ((), s.declare scope p.id v)

/-- Binds variables one after another. -/
def declareAll (scope : Scope) : List (Param × Value) → Step σ Unit
  | [] => pure ()
  | (p, v) :: rest => do
    declare scope p v
    declareAll scope rest

def lookup (scope : Scope) (p : Param) : Step σ (Option Value) := fun s =>
  some (s.store.lookup scope p.id, s)

/-- Overwrites the nearest binding, and says whether there was one. -/
def assign (scope : Scope) (p : Param) (v : Value) : Step σ Bool :=
  onStore fun s => s.assign scope p.id v

/-- Keeps a closure, and gives its index. -/
def addClosure (c : Closure) : Step σ Nat := fun ⟨next, store, closures, depths, host⟩ =>
  some (closures.size, ⟨next, store, closures.push c, depths, host⟩)

def closure? (index : Nat) : Step σ (Option Closure) := fun s => some (s.closures[index]?, s)

/-- A new interpreter, with no activation in progress. -/
def newInterp (limit : Nat) : Step σ Interp := fun s =>
  some (⟨s.depths.size, limit⟩, { s with depths := s.depths.push 0 })

/-- Starts an activation, and gives the number now in progress. -/
def enter (i : Interp) : Step σ Nat := fun s =>
  some (s.depths.getD i.id 0 + 1, { s with depths := s.depths.modify i.id (· + 1) })

/-- Ends an activation. -/
def leave (i : Interp) : Step σ Unit := fun s =>
  some ((), { s with depths := s.depths.modify i.id (· - 1) })

/-- The host's state. -/
def host : Step σ σ := fun s => some (s.host, s)

def setHost (h : σ) : Step σ Unit := fun s => some ((), { s with host := h })

/-- Plays a script; `apply` answers the calls it makes. -/
def play (apply : FuncRef → List Value → Step σ Reply) : Script σ α → Step σ α
  | .done a => pure a
  | .read next => do
    let h ← host
    play apply (next h)
  | .write h next => do
    setHost h
    play apply next
  | .fresh next => do
    let id ← fresh
    play apply (next id)
  | .call callee args next => do
    let reply ← apply callee args
    play apply (next reply)

end Step

namespace Run

variable {σ α : Type}

/-- A step that does not leave early. -/
def step (act : Step σ α) : Run σ α := ExceptT.lift act

/-- Leaves with a fault. -/
def fault (f : Fault) : Run σ α := throw (.fault f)

/-- Throws a new exception object. -/
def raise (cls : Ty) (message : String) : Run σ α := do
  let id ← step Step.fresh
  throw (.throw (.exception id cls message))

/-- Thrown where `null` stands in the place of an object. -/
def nullReference (what : String) : Run σ α :=
  raise .nullReference ("Object reference not set to an instance of an object (" ++ what ++ ")")

/-- What host code answered, seen from the tree: a fault that passed through host
code is a fault again, so that no catch clause gets hold of it. -/
def ofReply : Reply → Run σ Value
  | .ok v => pure v
  | .error (.object _ _ (.fault f)) => fault f
  | .error v => throw (.throw v)

/-- What an evaluation ended with, seen from host code: a fault travels as an object
that no clause is written for. -/
def toReply (act : Run σ Value) : Step σ Reply := do
  match ← act.run with
  | .ok v => pure (.ok v)
  | .error (.throw v) => pure (.error v)
  | .error (.jump l _) => faulted (.unresolvedLabel l.displayName)
  | .error (.fault f) => faulted f
where
  /-- The fault as an object. -/
  faulted (f : Fault) : Step σ Reply := do
    let id ← Step.fresh
    pure (.error (.object id .evaluationFault (.fault f)))

/-- Goes on with an outcome that was held back. -/
def resume : Except Exit α → Run σ α
  | .ok a => pure a
  | .error exit => throw exit

end Run

end CodeTree
