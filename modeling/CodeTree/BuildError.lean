import CodeTree.Make

/-!
# Construction errors

The builders never fail while parts are being set: they remember the first mistake,
and the finishing call reports it.
-/

namespace CodeTree

/-- What was wrong with a construction. Nodes and types are kept as they print. -/
inductive BuildError where
  /-- A node that has to be a parameter reference is something else. -/
  | notAParameter (node : String)
  /-- A conditional was finished without a condition. -/
  | conditionNotDefined
  /-- A guarded region was finished with neither a catch clause nor a last part. -/
  | noCatchBlock
  /-- A guarded region was finished without a body. -/
  | missingTryBody
  | comparerNotStatic (method : String)
  | comparerArity (method : String) (got : Nat)
  | comparerParamType (method expected got : String)
  /-- A closure that has to describe a property read describes something else. -/
  | notAProperty (closure : String)
  | notAField (closure : String)
  | notAMember (closure : String)
  /-- The result type of a switch was fixed after untyped cases were added. -/
  | mixedSwitchResult
  | switchResultMismatch (expected got : String)
  | conditionResultMismatch (expected got : String)
  /-- A constructor that has to take no parameters takes some. -/
  | notParameterless (ty : String) (params : Nat)
  deriving DecidableEq, Inhabited

/-- The kind of a construction error, as a word. -/
def BuildError.kind : BuildError → String
  | .notAParameter _ => "NotAParameter"
  | .conditionNotDefined => "ConditionNotDefined"
  | .noCatchBlock => "NoCatchBlock"
  | .missingTryBody => "MissingTryBody"
  | .comparerNotStatic _ => "ComparerNotStatic"
  | .comparerArity .. => "ComparerArity"
  | .comparerParamType .. => "ComparerParamType"
  | .notAProperty _ => "NotAProperty"
  | .notAField _ => "NotAField"
  | .notAMember _ => "NotAMember"
  | .mixedSwitchResult => "MixedSwitchResult"
  | .switchResultMismatch .. => "SwitchResultMismatch"
  | .conditionResultMismatch .. => "ConditionResultMismatch"
  | .notParameterless .. => "NotParameterless"

/-- The wording of a construction error. -/
def BuildError.message : BuildError → String
  | .notAParameter node => "`" ++ node ++ "` is not ParameterExpression"
  | .conditionNotDefined => "`if` statement is not defined"
  | .noCatchBlock => "No `catch` block provided"
  | .missingTryBody => "`try` body is not defined"
  | .comparerNotStatic method => "comparer `" ++ method ++ "` should be static"
  | .comparerArity method got =>
    "comparer `" ++ method ++ "` should accept two parameters, got " ++ toString got
  | .comparerParamType method expected got =>
    "comparer `" ++ method ++ "` should accept parameters of type " ++ expected ++ ", got " ++ got
  | .notAProperty closure => "expression '" ++ closure ++ "' does not refer to a property"
  | .notAField closure => "expression '" ++ closure ++ "' does not refer to a field"
  | .notAMember closure => "expression '" ++ closure ++ "' refers to a method, not a member"
  | .mixedSwitchResult => "switch mixes typed and untyped cases"
  | .switchResultMismatch expected got =>
    "switch case produces " ++ got ++ ", expected " ++ expected
  | .conditionResultMismatch expected got =>
    "conditional arm produces " ++ got ++ ", expected " ++ expected
  | .notParameterless ty params =>
    "constructor of " ++ ty ++ " takes " ++ toString params ++ " parameters, expected none"

/-- Actions that make nodes and may fail with a construction error. -/
abbrev Build := ExceptT BuildError Make

end CodeTree
