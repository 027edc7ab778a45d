/-!
# Evaluation faults

A fault ends an evaluation for a reason that no tree can handle: a variable
without a binding, an operand of the wrong type, too many nested calls. Catch
clauses never see one.
-/

namespace CodeTree

/-- Why an evaluation cannot go on. Types and labels are kept as they print. -/
inductive Fault where
  /-- A variable was read or assigned where no scope declares it. -/
  | unboundParameter (name : String)
  | typeMismatch (expected got : String)
  | notCallable (typeName : String)
  | notAwaitable (typeName : String)
  | arityMismatch (expected got : Nat)
  /-- A jump left its lambda without reaching its label. -/
  | unresolvedLabel (label : String)
  /-- As many lambda calls were in progress as the limit allows. -/
  | stackOverflow (limit : Nat)
  | unsupported (feature : String)
  deriving DecidableEq, Inhabited

/-- The kind of a fault, as a word. -/
def Fault.kind : Fault → String
  | .unboundParameter _ => "UnboundParameter"
  | .typeMismatch .. => "TypeMismatch"
  | .notCallable _ => "NotCallable"
  | .notAwaitable _ => "NotAwaitable"
  | .arityMismatch .. => "ArityMismatch"
  | .unresolvedLabel _ => "UnresolvedLabel"
  | .stackOverflow _ => "StackOverflow"
  | .unsupported _ => "Unsupported"

/-- The wording of a fault. -/
def Fault.message : Fault → String
  | .unboundParameter name => "parameter '" ++ name ++ "' is not bound"
  | .typeMismatch expected got => "type mismatch: expected " ++ expected ++ ", got " ++ got
  | .notCallable typeName => typeName ++ " is not callable"
  | .notAwaitable typeName => typeName ++ " is not awaitable"
  | .arityMismatch expected got =>
    "expected " ++ toString expected ++ (if expected = 1 then " argument" else " arguments") ++
      ", got " ++ toString got
  | .unresolvedLabel label => "jump to label '" ++ label ++ "' left its lambda"
  | .stackOverflow limit => "maximum call depth exceeded (limit: " ++ toString limit ++ ")"
  | .unsupported feature => "unsupported: " ++ feature

end CodeTree
