import CodeTree.Expr
import CodeTree.Decimal.Text

/-!
# Printed trees and values

A tree prints as pseudo source. Statement-like nodes — blocks, switches, guarded
regions, loops, labels and conditionals without a value — are laid out over
several lines, four spaces per level; everything else prints inline. The current
level is an argument of every printer, so a node's text depends on nothing else.

* `Value.text` — the text of a value; a captured tree prints at level zero;
* `Expr.print` — the text of a tree at a level.
-/

namespace CodeTree

/-! ## Layout -/

/-- A line break followed by the indentation of `level`. -/
def newline (level : Nat) : String :=
  "\n" ++ String.ofList (List.replicate (4 * level) ' ')

namespace Expr

def isBlock (e : Expr) : Bool :=
  match e.shape with
  | .block .. => true
  | _ => false

def isEmpty (e : Expr) : Bool :=
  match e.shape with
  | .empty => true
  | _ => false

/-- Whether a node, standing as a statement, needs no closing semicolon. -/
def isStatementLike (e : Expr) : Bool :=
  match e.shape with
  | .block .. | .switch .. | .guarded .. | .loop .. | .label .. => true
  | .conditional .. => e.ty.isVoid
  | _ => false

/-- A printed node as a statement. -/
def asStatement (e : Expr) (printed : String) : String :=
  if e.isStatementLike then printed else printed ++ ";"

/-- A node as the body of a branch: a block prints as it is, anything else as a
block of one statement. `print` gives the node's text at a level. -/
def asBody (e : Expr) (print : Nat → String) (level : Nat) : String :=
  if e.isBlock then print level
  else
    "\x7b" ++
      (if e.isEmpty then "" else newline (level + 1) ++ e.asStatement (print (level + 1))) ++
      newline level ++ "\x7d"

/-- The declarations at the head of a block. -/
def declarations (level : Nat) (locals : List Param) : String :=
  String.join (locals.map fun v =>
    newline level ++ "var " ++ v.displayName ++ ": " ++ v.ty.text ++ ";")

/-- A jump target in front of, or behind, a loop. -/
def targetMark (l : Label) : String := "@" ++ l.displayName

end Expr

/-! ## Printing -/

mutual
/-- The text of a value. -/
def Value.text : Value → String
  | .void => "void"
  | .null => "null"
  | .bool b => if b then "true" else "false"
  | .int n => toString n.toInt
  | .float x => Decimal.floatText x
  | .str s => "\"" ++ s ++ "\""
  | .array _ elem items => "new " ++ elem.text ++ "[] \x7b" ++ Value.listText items ++ "\x7d"
  | .object _ cls _ => "<" ++ cls.text ++ ">"
  | .func _ params ret => "<" ++ (Ty.func params ret).text ++ ">"
  | .task _ result _ => "<" ++ (Ty.task result).text ++ ">"
  | .node tree => "Node(" ++ Expr.print tree 0 ++ ")"
/-- Values separated by commas. -/
def Value.listText : List Value → String
  | [] => ""
  | v :: vs => Value.text v ++ Value.tailText vs
/-- Values, each after a comma. -/
def Value.tailText : List Value → String
  | [] => ""
  | v :: vs => ", " ++ Value.text v ++ Value.tailText vs
/-- The text of a tree at an indentation level. -/
def Expr.print : Expr → Nat → String
  | .mk _ shape ty, level => Expr.printShape shape ty level
/-- The text of a node from its layer and its type. -/
def Expr.printShape : Shape Value Expr → Ty → Nat → String
  | .empty, _, _ => "default(void)"
  | .constant v, _, _ => Value.text v
  | .parameter p, _, _ => p.displayName
  | .block locals body, _, level =>
    "\x7b" ++ Expr.declarations (level + 1) locals ++
      (match body with
        | [] => ""
        | e :: es =>
          if es.isEmpty && e.isEmpty then ""
          else
            newline (level + 1) ++ e.asStatement (Expr.print e (level + 1)) ++
              Expr.printStatements es (level + 1)) ++
      newline level ++ "\x7d"
  | .conditional test ifTrue ifFalse, ty, level =>
    if ty.isVoid then
      "if (" ++ Expr.print test level ++ ") " ++
        ifTrue.asBody (fun k => Expr.print ifTrue k) level ++
        (if ifFalse.isEmpty then ""
          else " else " ++ ifFalse.asBody (fun k => Expr.print ifFalse k) level)
    else
      "(" ++ Expr.print test level ++ " ? " ++ Expr.print ifTrue level ++ " : " ++
        Expr.print ifFalse level ++ ")"
  | .switch value cases default comparer, _, level =>
    "switch (" ++ Expr.print value level ++
      (match comparer with
        | some method => ", " ++ method.name
        | none => "") ++
      ") \x7b" ++ Expr.printCases cases (level + 1) ++
      (match default with
        | some body =>
          newline (level + 1) ++ "default: " ++
            body.asBody (fun k => Expr.print body k) (level + 1)
        | none => "") ++
      newline level ++ "\x7d"
  | .guarded body handlers cleanup, _, level =>
    "try " ++ body.asBody (fun k => Expr.print body k) level ++
      Expr.printHandlers handlers level ++
      (match cleanup with
        | some last => " finally " ++ last.asBody (fun k => Expr.print last k) level
        | none => "")
  | .throw value, _, level =>
    match value with
    | none => "throw"
    | some e => "throw " ++ Expr.print e level
  | .call receiver method args, _, level =>
    (match receiver with
      | some e => Expr.print e level
      | none => method.declaring.text) ++
      "." ++ method.name ++ "(" ++ Expr.printList args level ++ ")"
  | .construct ctor args, _, level =>
    "new " ++ ctor.declaring.text ++ "(" ++ Expr.printList args level ++ ")"
  | .invoke target args, _, level =>
    "Invoke(" ++ Expr.print target level ++ Expr.printTail args level ++ ")"
  | .member target read, _, level =>
    (match target with
      | some e => Expr.print e level
      | none => read.declaring.text) ++
      "." ++ read.name
  | .convert .cast operand, ty, level => "(" ++ ty.text ++ ")" ++ Expr.print operand level
  | .convert .typeAs operand, ty, level =>
    "(" ++ Expr.print operand level ++ " as " ++ ty.text ++ ")"
  | .typeIs operand testTy, _, level =>
    "(" ++ Expr.print operand level ++ " is " ++ testTy.text ++ ")"
  | .unary op operand, _, level =>
    (match op with
      | .not => "!"
      | .negate => "-") ++
      Expr.print operand level
  | .binary op left right, _, level =>
    "(" ++ Expr.print left level ++ " " ++ op.symbol ++ " " ++ Expr.print right level ++ ")"
  | .assign target value, _, level => target.displayName ++ " = " ++ Expr.print value level
  | .lambda params body, _, level =>
    "(" ++ ", ".intercalate (params.map Param.displayName) ++ ") => " ++ Expr.print body level
  | .await task, _, level => "await " ++ Expr.print task level
  | .newArray elem items, _, level =>
    "new " ++ elem.text ++ "[] \x7b" ++ Expr.printList items level ++ "\x7d"
  | .jump kind target value, _, level =>
    kind.keyword ++ " " ++ Expr.targetMark target ++
      (match value with
        | some e => " " ++ Expr.print e level
        | none => "")
  | .label target default, _, level =>
    Expr.targetMark target ++ ":" ++
      (match default with
        | some e => " " ++ e.asStatement (Expr.print e level)
        | none => "")
  | .loop body breakLabel continueLabel, _, level =>
    "loop " ++
      (match continueLabel with
        | some l => Expr.targetMark l ++ " "
        | none => "") ++
      body.asBody (fun k => Expr.print body k) level ++
      (match breakLabel with
        | some l => " " ++ Expr.targetMark l
        | none => "")
/-- Trees separated by commas. -/
def Expr.printList : List Expr → Nat → String
  | [], _ => ""
  | e :: es, level => Expr.print e level ++ Expr.printTail es level
/-- Trees, each after a comma. -/
def Expr.printTail : List Expr → Nat → String
  | [], _ => ""
  | e :: es, level => ", " ++ Expr.print e level ++ Expr.printTail es level
/-- Statements, each on a line of its own. -/
def Expr.printStatements : List Expr → Nat → String
  | [], _ => ""
  | e :: es, level =>
    newline level ++ e.asStatement (Expr.print e level) ++ Expr.printStatements es level
/-- One arm of a switch. -/
def Expr.printCase : Case Expr → Nat → String
  | ⟨tests, body⟩, level =>
    newline level ++ "case " ++ Expr.printList tests level ++ ": " ++
      body.asBody (fun k => Expr.print body k) level
/-- The arms of a switch, each on a line of its own. -/
def Expr.printCases : List (Case Expr) → Nat → String
  | [], _ => ""
  | c :: cs, level => Expr.printCase c level ++ Expr.printCases cs level
/-- One catch clause. -/
def Expr.printHandler : Handler Expr → Nat → String
  | ⟨exceptionTy, binder, filter, body⟩, level =>
    " catch (" ++ exceptionTy.text ++
      (match binder with
        | some v => " " ++ v.displayName
        | none => "") ++
      ")" ++
      (match filter with
        | some e => " when (" ++ Expr.print e level ++ ")"
        | none => "") ++
      " " ++ body.asBody (fun k => Expr.print body k) level
/-- The catch clauses of a guarded region. -/
def Expr.printHandlers : List (Handler Expr) → Nat → String
  | [], _ => ""
  | h :: hs, level => Expr.printHandler h level ++ Expr.printHandlers hs level
end

/-- The text of a tree on its own. -/
def Expr.text (e : Expr) : String := e.print 0

end CodeTree
