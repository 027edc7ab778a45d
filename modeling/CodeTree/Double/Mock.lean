import CodeTree.Host

/-!
# Recording mocks

A mock is an object of class `IMock` that records every member read, by name, and every call,
with its arguments. Its properties and the outcome of `MethodWithReturn` can be set. `FieldMock`
is an object with a field and a property of one value.
-/

namespace CodeTree

/-- The interface of mocks. -/
def Ty.mock : Ty := .nominal "IMock" none [.disposable] true

/-- The class of objects with one field and one property. -/
def Ty.fieldMock : Ty := .rootClass "MockWithField"

namespace Method

def withReturn : Method := virtual "MethodWithReturn" .mock [] .string

def voidWithParameter : Method := virtual "VoidMethodWithParameter" .mock [.string] .void

def voidWithoutParameters : Method := virtual "VoidMethodWithoutParameters" .mock [] .void

/-- The methods that a mock answers. -/
def ofMock : List Method := [dispose, withReturn, voidWithParameter, voidWithoutParameters]

end Method

namespace Member

def mockString : Member := ⟨"String", .mock, .string, .property⟩

def mockInt : Member := ⟨"Int", .mock, .int, .property⟩

def mockCondition : Member := ⟨"Condition", .mock, .bool, .property⟩

def mockSelf : Member := ⟨"Self", .mock, .mock, .property⟩

def fieldMockValue : Member := ⟨"Value", .fieldMock, .int, .field⟩

def fieldMockProperty : Member := ⟨"ValueProperty", .fieldMock, .int, .property⟩

/-- The members of mocks of both kinds. -/
def ofMock : List Member :=
  [mockString, mockInt, mockCondition, mockSelf, fieldMockValue, fieldMockProperty]

end Member

/-- An object whose field and property hold `n`. -/
def Value.fieldMock (id : Nat) (n : Int64) : Value :=
  .object id .fieldMock (.fields [("Value", .int n), ("ValueProperty", .int n)])

/-- The state of a mock. -/
structure Mock where
  /-- What was read and called, oldest first. -/
  calls : List String := []
  string : String := ""
  int : Int64 := 0
  condition : Bool := false
  /-- What `MethodWithReturn` answers. -/
  answer : Reply := .ok (.str "")

namespace Mock

/-- Writes one interaction down. -/
def record (m : Mock) (call : String) : Mock := { m with calls := m.calls ++ [call] }

/-- The value of a property; `self` is the mock as a value. -/
def property? (m : Mock) (self : Value) : String → Option Value
  | "String" => some (.str m.string)
  | "Int" => some (.int m.int)
  | "Condition" => some (.bool m.condition)
  | "Self" => some self
  | _ => none

/-- The outcome of a method. -/
def method? (m : Mock) : String → Option Reply
  | "MethodWithReturn" => some m.answer
  | "VoidMethodWithParameter" => some (.ok .void)
  | "VoidMethodWithoutParameters" => some (.ok .void)
  | "dispose" => some (.ok .void)
  | _ => none

/-- Whether a recorded interaction is a read or a call of the member. -/
def concerns (name call : String) : Bool :=
  call == name || (name.toList ++ ['(']).isPrefixOf call.toList

/-- How many times a member was read or called. -/
def received (m : Mock) (name : String) : Nat := (m.calls.filter (concerns name)).length

end Mock

/-- A call with its arguments, as it is written down. -/
def callText (name : String) (args : List Value) : String :=
  name ++ "(" ++ Value.listText args ++ ")"

end CodeTree
