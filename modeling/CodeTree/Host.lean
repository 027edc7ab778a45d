import CodeTree.Expr.Text

/-!
# Host code

Trees call code that lives outside them. A `Script` is one run of such code: it may
look at and replace the host's own state, create identities, and call callable
values it was given, any number of times and at any moment; it ends with a result.
A `Host` assigns scripts to code numbers and to the members and methods of hosted
objects. Nothing else is assumed of a host.

* `Host.readMember`, `Host.send` — how any object answers a member read or a call;
* `Host.describe` — the text of a thrown value, which asks it for its message.
-/

namespace CodeTree

/-- One run of host code over the state `σ`, ending with an `α`. -/
inductive Script (σ α : Type) where
  | done (result : α)
  | read (next : σ → Script σ α)
  | write (state : σ) (next : Script σ α)
  /-- Draws an identity for something new. -/
  | fresh (next : Nat → Script σ α)
  /-- Calls a callable and goes on with what it returned or threw. -/
  | call (callee : FuncRef) (args : List Value) (next : Reply → Script σ α)

namespace Script

variable {σ α β : Type}

/-- One run after another. -/
def bind : Script σ α → (α → Script σ β) → Script σ β
  | .done a, f => f a
  | .read next, f => .read fun s => (next s).bind f
  | .write s next, f => .write s (next.bind f)
  | .fresh next, f => .fresh fun n => (next n).bind f
  | .call callee args next, f => .call callee args fun r => (next r).bind f

instance : Monad (Script σ) where
  pure := .done
  bind := bind

/-- The host's state. -/
def state : Script σ σ := .read .done

/-- Changes the host's state. -/
def modifyState (f : σ → σ) : Script σ Unit := .read fun s => .write (f s) (.done ())

/-- Throws a new exception object. -/
def raise (cls : Ty) (message : String) : Script σ Reply :=
  .fresh fun id => .done (.error (.exception id cls message))

/-- What objects throw for names they do not know. -/
def missingMember (cls : Ty) (name : String) : Script σ Reply :=
  raise .missingMember ("'" ++ cls.text ++ "' has no member '" ++ name ++ "'")

end Script

/-- Code outside the trees, with a state of its own. -/
structure Host (σ : Type) where
  /-- Runs code by number, with a receiver where the caller has one. -/
  run : CodeId → Option Value → List Value → Script σ Reply
  /-- Reads a member of the hosted object with the given handle. -/
  get : Nat → Value → String → Script σ Reply
  /-- Calls a method of the hosted object with the given handle. -/
  invoke : Nat → Value → String → List Value → Script σ Reply

namespace Host

variable {σ : Type} (H : Host σ)

/-- Reads a member of an object. A value that is no object has none to read. -/
def readMember (self : Value) (name : String) : Script σ Reply :=
  match self with
  | .object _ cls (.fields members) =>
    match members.lookup name with
    | some v => pure (.ok v)
    | none => .missingMember cls name
  | .object _ _ (.hosted handle) => H.get handle self name
  | .object _ cls (.fault _) => .missingMember cls name
  | _ => pure (.ok .null)

/-- Calls a method of an object by name. Only hosted objects have methods. -/
def send (self : Value) (name : String) (args : List Value) : Script σ Reply :=
  match self with
  | .object _ _ (.hosted handle) => H.invoke handle self name args
  | .object _ cls _ => .missingMember cls name
  | _ => pure (.ok .null)

/-- The message of a thrown value: an object's `message` member, if it is a string. -/
def messageOf (thrown : Value) : Script σ (Option String) :=
  match thrown with
  | .object .. => do
    match ← H.readMember thrown "message" with
    | .ok (.str s) => pure (some s)
    | _ => pure none
  | _ => pure none

/-- A thrown value in words: class and message where it has one, else its text. -/
def describe (thrown : Value) : Script σ String := do
  match thrown, ← H.messageOf thrown with
  | .object _ cls _, some message => pure (cls.text ++ ": " ++ message)
  | _, _ => pure thrown.text

end Host

end CodeTree
