import CodeTree.Double.Mock
import CodeTree.Phrase

/-!
# A host for trying trees

The bench is a host made of stubs, mocks and scripted objects. Every stub is defined by a
`Behaviour` and writes its calls into a log; scripted objects log their reads and calls, and mocks
keep records of their own.

* `Behaviour.script` — what a stub does with its arguments;
* `Bench.host` — the bench as a host.
-/

namespace CodeTree

/-- What a stub does. Missing arguments count as `null`. -/
inductive Behaviour where
  | const (v : Value)
  | arg (i : Nat)
  /-- The receiver, or `null`. -/
  | receiver
  /-- Throws a new exception at each call. -/
  | raise (cls : Ty) (message : String)
  | throw (v : Value)
  /-- The texts of all arguments. -/
  | text
  /-- The sum of all arguments; what is no integer counts as zero. -/
  | sum
  | equal
  /-- Whether two integers leave the same remainder. -/
  | congruent (modulus : Int)
  /-- Calls an argument with the other arguments. -/
  | callArg (i : Nat)
  /-- Calls an argument, and turns what it throws into text. -/
  | swallow (i : Nat)
  /-- A new object with the given members. -/
  | object (cls : Ty) (members : List (String × Value))
  /-- A new exception with its message from the first argument. -/
  | exception (cls : Ty)
  | fieldMock
  /-- Reads a member of the first argument. -/
  | get (name : String)
  deriving Inhabited

/-- A piece of host code: it logs its call and behaves as it is told to. -/
structure Stub where
  /-- The name in the log; without one, nothing is logged. -/
  key : Option String
  behaviour : Behaviour
  /-- How the result is taken. -/
  result : Embedding := .value

/-- What a stub writes into the log when it is called. -/
def Stub.line? (s : Stub) (self : Option Value) (args : List Value) : Option String :=
  s.key.map fun key =>
    match self with
    | some v => v.text ++ "." ++ callText key args
    | none => callText key args

/-- A hosted object of the bench. -/
inductive Double where
  | mock (state : Mock)
  /-- An object with fixed members and with methods that behave as they are told to. -/
  | scripted (key : String) (members : List (String × Value)) (methods : List (String × Behaviour))

/-- The stub that makes plain objects. -/
def Stub.plainObject : Stub := ⟨none, .object .object [], .value⟩

/-- The state of the bench. -/
structure Bench where
  /-- What was logged, newest first. -/
  log : List String := []
  /-- Code number zero makes plain objects. -/
  stubs : Array Stub := #[.plainObject]
  doubles : Array Double := #[]

namespace Bench

/-- Writes a line into the log. -/
def write (b : Bench) (line : String) : Bench := { b with log := line :: b.log }

/-- Writes lines into the log. -/
def writeAll (b : Bench) (lines : List String) : Bench := lines.foldl write b

/-- The log, oldest line first. -/
def lines (b : Bench) : List String := b.log.reverse

/-- Adds a stub, and gives its code number. -/
def addStub (b : Bench) (s : Stub) : CodeId × Bench :=
  (b.stubs.size, { b with stubs := b.stubs.push s })

/-- Adds a hosted object, and gives its handle. -/
def addDouble (b : Bench) (d : Double) : Nat × Bench :=
  (b.doubles.size, { b with doubles := b.doubles.push d })

/-- The mock with a handle. -/
def mock? (b : Bench) (handle : Nat) : Option Mock :=
  match b.doubles[handle]? with
  | some (.mock m) => some m
  | _ => none

/-- Replaces the state of a mock. -/
def setMock (b : Bench) (handle : Nat) (m : Mock) : Bench :=
  { b with doubles := b.doubles.modify handle fun _ => .mock m }

/-- Forgets what was logged and recorded. -/
def clear (b : Bench) : Bench :=
  { b with
    log := []
    doubles := b.doubles.map fun d =>
      match d with
      | .mock m => .mock { m with calls := [] }
      | d => d }

/-- Reads a member of a hosted object. -/
def get (handle : Nat) (self : Value) (name : String) : Script Bench Reply := do
  let b ← Script.state
  match b.doubles[handle]? with
  | some (.mock m) => do
    Script.modifyState fun b => b.setMock handle (m.record name)
    match m.property? self name with
    | some v => pure (.ok v)
    | none => Script.missingMember .mock name
  | some (.scripted key members _) => do
    Script.modifyState fun b => b.write (key ++ "." ++ name)
    match members.lookup name with
    | some v => pure (.ok v)
    | none => Script.missingMember (self.runtimeTy?.getD .object) name
  | none => Script.missingMember (self.runtimeTy?.getD .object) name

end Bench

namespace Behaviour

/-- An argument, or `null` in its place. -/
def argAt (args : List Value) (i : Nat) : Value := (args[i]?).getD .null

/-- The sum of the integers among some values, at 64 bits. -/
def total (args : List Value) : Int64 :=
  args.foldl (fun n v => n + v.asInt?.getD 0) 0

/-- Whether the first two arguments are equal modulo `n`. -/
def areCongruent (n : Int) (args : List Value) : Bool :=
  let value (i : Nat) : Int := ((argAt args i).asInt?.getD 0).toInt
  value 0 % n == value 1 % n

/-- What a stub does with its arguments. `describe` gives the text of a thrown value, and `read`
a member of an object. -/
def script (describe : Value → Script Bench String)
    (read : Value → String → Script Bench Reply) (self : Option Value) (args : List Value) :
    Behaviour → Script Bench Reply
  | .const v => pure (.ok v)
  | .arg i => pure (.ok (argAt args i))
  | .receiver => pure (.ok (self.getD .null))
  | .raise cls message => Script.raise cls message
  | .throw v => pure (.error v)
  | .text => pure (.ok (.str (Value.listText args)))
  | .sum => pure (.ok (.int (total args)))
  | .equal => pure (.ok (.bool ((argAt args 0).equals (argAt args 1))))
  | .congruent n => pure (.ok (.bool (areCongruent n args)))
  | .callArg i =>
    match argAt args i with
    | .func ref _ _ => .call ref (args.eraseIdx i) .done
    | _ => Script.raise .argument "not a function"
  | .swallow i =>
    match argAt args i with
    | .func ref _ _ => .call ref [] fun reply => do
      match reply with
      | .ok v => pure (.ok v)
      | .error v => do
        let text ← describe v
        pure (.ok (.str ("swallowed " ++ text)))
    | _ => pure (.ok .null)
  | .object cls members => .fresh fun id => pure (.ok (.object id cls (.fields members)))
  | .exception cls => .fresh fun id =>
    pure (.ok (.exception id cls ((argAt args 0).asStr?.getD "")))
  | .fieldMock => .fresh fun id =>
    pure (.ok (.fieldMock id ((argAt args 0).asInt?.getD 0)))
  | .get name =>
    match argAt args 0 with
    | .object id cls content => read (.object id cls content) name
    | _ => pure (.ok .null)

end Behaviour

namespace Bench

/-- The bench as far as its objects can be read; it runs no code. -/
def readOnly : Host Bench :=
  ⟨fun _ _ _ => pure (.ok .null), get, fun _ self name _ =>
    Script.missingMember (self.runtimeTy?.getD .object) name⟩

/-- What a stub does with its arguments. -/
def perform (behaviour : Behaviour) (self : Option Value) (args : List Value) :
    Script Bench Reply :=
  behaviour.script readOnly.describe readOnly.readMember self args

/-- Runs a stub: logs the call, then behaves. -/
def run (code : CodeId) (self : Option Value) (args : List Value) : Script Bench Reply := do
  let b ← Script.state
  match b.stubs[code]? with
  | some stub => do
    Script.modifyState fun b => b.writeAll (stub.line? self args).toList
    match ← perform stub.behaviour self args with
    | .ok v => pure (.ok (stub.result.coerce v))
    | .error v => pure (.error v)
  | none => pure (.ok .null)

/-- Calls a method of a hosted object. -/
def invoke (handle : Nat) (self : Value) (name : String) (args : List Value) :
    Script Bench Reply := do
  let b ← Script.state
  match b.doubles[handle]? with
  | some (.mock m) => do
    Script.modifyState fun b => b.setMock handle (m.record (callText name args))
    match m.method? name with
    | some reply => pure reply
    | none => Script.missingMember .mock name
  | some (.scripted key _ methods) => do
    Script.modifyState fun b => b.write (key ++ "." ++ callText name args)
    match methods.lookup name with
    | some behaviour => perform behaviour none args
    | none => Script.missingMember (self.runtimeTy?.getD .object) name
  | none => Script.missingMember (self.runtimeTy?.getD .object) name

/-- The bench as a host. -/
def host : Host Bench := ⟨run, get, invoke⟩

end Bench

/-- Makes plain objects, on a bench. -/
def Ctor.object : Ctor := ⟨.object, [], 0⟩

end CodeTree
