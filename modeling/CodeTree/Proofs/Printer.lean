import CodeTree.Expr.Text
import CodeTree.Proofs.Layer

/-!
# Printing with a running indentation

`Expr.print` takes the level as an argument. A printer can also keep it: it writes a text piece by
piece, starts each new line at its current indentation, and raises and lowers that around what stands
inside braces. `Expr.emit` is such a printer. To lower the indentation when there is none ends without
a result, so that a printer that lowers more often than it raises does not go unnoticed.

* `Writes x k k' text` — the printer `x`, started at the level `k`, writes `text` and ends at the level
  `k'`; one rule for each way of building a printer;
* `printTail_eq`, `printBlock_eq` and the like — printed lists as lists of printed parts.

Main statement: `Expr.printed` — the two ways of printing write the same.
-/

namespace CodeTree

/-- What has been written, and the level at which the next line starts. -/
structure Page where
  out : String
  level : Nat

/-- A printer at work. It may fail, but gives nothing besides what it writes. -/
abbrev Emit := StateT Page Option Unit

namespace Emit

def write (s : String) : Emit := modify fun p => { p with out := p.out ++ s }

/-- Starts a new line. -/
def line : Emit := modify fun p => { p with out := p.out ++ newline p.level }

def raise : Emit := modify fun p => { p with level := p.level + 1 }

/-- Fails where the level is zero. -/
def lower : Emit := do
  let p ← get
  match p.level with
  | 0 => failure
  | k + 1 => set { p with level := k }

/-- Does nothing where the condition fails. -/
def given (b : Bool) (x : Emit) : Emit := if b then x else pure ()

/-- One after another, with commas between them. -/
def separated : List Emit → Emit
  | [] => pure ()
  | x :: xs => do
    x
    xs.forM fun x => do
      write ", "
      x

/-- A node as a statement. -/
def statement (e : Expr × Emit) : Emit := do
  e.2
  given (!e.1.isStatementLike) (write ";")

/-- A node as the body of a branch. -/
def body (e : Expr × Emit) : Emit :=
  if e.1.isBlock then e.2
  else do
    write "\x7b"
    raise
    given (!e.1.isEmpty) do
      line
      statement e
    lower
    line
    write "\x7d"

/-- A lone empty node has no line of its own. -/
def block (locals : List Param) (stmts : List (Expr × Emit)) : Emit := do
  write "\x7b"
  raise
  locals.forM fun v => do
    line
    write ("var " ++ v.displayName ++ ": " ++ v.ty.text ++ ";")
  stmts.forM fun stmt => do
    given (!(stmt.1.isEmpty && stmts.length == 1)) do
      line
      statement stmt
  lower
  line
  write "\x7d"

/-- A conditional is laid out as a statement when it has no value. -/
def conditional (hasValue : Bool) (test ifTrue ifFalse : Expr × Emit) : Emit :=
  if hasValue then do
    write "("
    test.2
    write " ? "
    ifTrue.2
    write " : "
    ifFalse.2
    write ")"
  else do
    write "if ("
    test.2
    write ") "
    body ifTrue
    given (!ifFalse.1.isEmpty) do
      write " else "
      body ifFalse

def arm (c : Case (Expr × Emit)) : Emit := do
  line
  write "case "
  separated (c.tests.map Prod.snd)
  write ": "
  body c.body

def switch (value : Expr × Emit) (cases : List (Case (Expr × Emit))) (default : Option (Expr × Emit))
    (comparer : Option Method) : Emit := do
  write "switch ("
  value.2
  comparer.forM fun method => write (", " ++ method.name)
  write ") \x7b"
  raise
  cases.forM arm
  default.forM fun last => do
    line
    write "default: "
    body last
  lower
  line
  write "\x7d"

def handler (h : Handler (Expr × Emit)) : Emit := do
  write (" catch (" ++ h.exceptionTy.text)
  h.binder.forM fun v => write (" " ++ v.displayName)
  write ")"
  h.filter.forM fun filter => do
    write " when ("
    filter.2
    write ")"
  write " "
  body h.body

def guarded (first : Expr × Emit) (handlers : List (Handler (Expr × Emit)))
    (cleanup : Option (Expr × Emit)) : Emit := do
  write "try "
  body first
  handlers.forM handler
  cleanup.forM fun last => do
    write " finally "
    body last

/-- Prints a node whose children have printers. -/
def step (e : Expr) (layer : Shape Value (Expr × Emit)) : Emit :=
  match layer with
  | .empty => write "default(void)"
  | .constant v => write v.text
  | .parameter p => write p.displayName
  | .block locals stmts => block locals stmts
  | .conditional test ifTrue ifFalse => conditional (!e.ty.isVoid) test ifTrue ifFalse
  | .switch value cases default comparer => switch value cases default comparer
  | .guarded first handlers cleanup => guarded first handlers cleanup
  | .throw none => write "throw"
  | .throw (some value) => do
    write "throw "
    value.2
  | .call receiver method args => do
    receiver.elim (write method.declaring.text) Prod.snd
    write ("." ++ method.name ++ "(")
    separated (args.map Prod.snd)
    write ")"
  | .construct ctor args => do
    write ("new " ++ ctor.declaring.text ++ "(")
    separated (args.map Prod.snd)
    write ")"
  | .invoke target args => do
    write "Invoke("
    target.2
    args.forM fun arg => do
      write ", "
      arg.2
    write ")"
  | .member target read => do
    target.elim (write read.declaring.text) Prod.snd
    write ("." ++ read.name)
  | .convert .cast operand => do
    write ("(" ++ e.ty.text ++ ")")
    operand.2
  | .convert .typeAs operand => do
    write "("
    operand.2
    write (" as " ++ e.ty.text ++ ")")
  | .typeIs operand testTy => do
    write "("
    operand.2
    write (" is " ++ testTy.text ++ ")")
  | .unary op operand => do
    write (match op with
      | .not => "!"
      | .negate => "-")
    operand.2
  | .binary op left right => do
    write "("
    left.2
    write (" " ++ op.symbol ++ " ")
    right.2
    write ")"
  | .assign target value => do
    write (target.displayName ++ " = ")
    value.2
  | .lambda params result => do
    write "("
    separated (params.map fun p => write p.displayName)
    write ") => "
    result.2
  | .await task => do
    write "await "
    task.2
  | .newArray elem items => do
    write ("new " ++ elem.text ++ "[] \x7b")
    separated (items.map Prod.snd)
    write "\x7d"
  | .jump kind target value => do
    write (kind.keyword ++ " " ++ Expr.targetMark target)
    value.forM fun v => do
      write " "
      v.2
  | .label target default => do
    write (Expr.targetMark target ++ ":")
    default.forM fun d => do
      write " "
      statement d
  | .loop inner breakLabel continueLabel => do
    write "loop "
    continueLabel.forM fun l => write (Expr.targetMark l ++ " ")
    body inner
    breakLabel.forM fun l => write (" " ++ Expr.targetMark l)

end Emit

/-- Prints a tree at the indentation of the page. -/
def Expr.emit : Expr → Emit := fold Emit.step

/-- A separator goes before every text but the first. -/
theorem intercalate_cons (sep s : String) (l : List String) :
    sep.intercalate (s :: l) = s ++ String.join (l.map (sep ++ ·)) := by
  induction l generalizing s with
  | nil => simp
  | cons t l ih =>
    rw [String.intercalate_cons_cons, ih, List.map_cons, String.join_cons]
    simp only [String.append_assoc]

/-! ## What is written -/

/-- The printer writes `text`, from the level `k` on, and ends at the level `k'`. -/
def Writes (x : Emit) (k k' : Nat) (text : String) : Prop :=
  ∀ out, x.run ⟨out, k⟩ = some ((), ⟨out ++ text, k'⟩)

namespace Writes

variable {x y : Emit} {k k' k'' : Nat} {s t : String}

theorem of_eq (h : Writes x k k' s) (hst : s = t) : Writes x k k' t := hst ▸ h

theorem write : Writes (.write s) k k s := fun _ => rfl

theorem line : Writes .line k k (newline k) := fun _ => rfl

theorem silent (h : ∀ out, x.run ⟨out, k⟩ = some ((), ⟨out, k'⟩)) : Writes x k k' "" := by
  intro out
  rw [String.append_empty]
  exact h out

theorem nothing : Writes (pure ()) k k "" := silent fun _ => rfl

theorem raise : Writes .raise k (k + 1) "" := silent fun _ => rfl

theorem lower : Writes .lower (k + 1) k "" := silent fun _ => rfl

theorem andThen (hx : Writes x k k' s) (hy : Writes y k' k'' t) :
    Writes (x >>= fun _ => y) k k'' (s ++ t) := by
  intro out
  rw [StateT.run_bind, hx, ← String.append_assoc]
  exact hy (out ++ s)

/-! ### Several printers -/

variable {α β : Type} {f : α → Emit} {text : α → String}

/-- Printers one after another, each of which comes back to the level. -/
theorem forM {l : List α} (h : ∀ a ∈ l, Writes (f a) k k (text a)) :
    Writes (l.forM f) k k (String.join (l.map text)) := by
  induction l with
  | nil => exact nothing
  | cons a l ih =>
    rw [List.forall_mem_cons] at h
    rw [List.map_cons, String.join_cons]
    exact andThen h.1 (ih h.2)

theorem forM_map {g : β → α} {l : List β} {text : β → String}
    (h : ∀ b ∈ l, Writes (f (g b)) k k (text b)) :
    Writes ((l.map g).forM f) k k (String.join (l.map text)) := by
  have hmap : (l.map g).forM f = l.forM fun b => f (g b) := List.forM_map
  rw [hmap]
  exact forM h

theorem option {o : Option α} (h : ∀ a ∈ o.toList, Writes (f a) k k (text a)) :
    Writes (o.forM f) k k (o.elim "" text) := by
  cases o with
  | none => exact nothing
  | some a => exact h a List.mem_cons_self

theorem option_map {g : β → α} {o : Option β} {text : β → String}
    (h : ∀ b ∈ o.toList, Writes (f (g b)) k k (text b)) :
    Writes ((o.map g).forM f) k k (o.elim "" text) := by
  cases o with
  | none => exact nothing
  | some b => exact h b List.mem_cons_self

/-- An optional printer, with another one in its absence. -/
theorem elim_map {g : β → α} {o : Option β} {text : β → String} (hx : Writes x k k s)
    (h : ∀ b ∈ o.toList, Writes (f (g b)) k k (text b)) :
    Writes ((o.map g).elim x f) k k (o.elim s text) := by
  cases o with
  | none => exact hx
  | some b => exact h b List.mem_cons_self

theorem separated {l : List α} (h : ∀ a ∈ l, Writes (f a) k k (text a)) :
    Writes (.separated (l.map f)) k k (", ".intercalate (l.map text)) := by
  cases l with
  | nil => exact nothing
  | cons a l =>
    rw [List.forall_mem_cons] at h
    rw [List.map_cons, List.map_cons, intercalate_cons, List.map_map]
    exact andThen h.1 (forM_map fun a ha => andThen write (h.2 a ha))

end Writes

/-! ## Printed lists -/

namespace Expr

theorem printTail_eq (es : List Expr) (k : Nat) :
    printTail es k = String.join (es.map fun e => ", " ++ e.print k) := by
  induction es with
  | nil => rfl
  | cons e es ih => rw [printTail, ih, List.map_cons, String.join_cons]

theorem printStatements_eq (es : List Expr) (k : Nat) :
    printStatements es k = String.join (es.map fun e => newline k ++ e.asStatement (e.print k)) := by
  induction es with
  | nil => rfl
  | cons e es ih => rw [printStatements, ih, List.map_cons, String.join_cons]

theorem printBlock_cons (locals : List Param) (e : Expr) (es : List Expr) (ty : Ty) (k : Nat) :
    printShape (.block locals (e :: es)) ty k =
      "\x7b" ++ declarations (k + 1) locals ++
        (if es.isEmpty && e.isEmpty then ""
          else newline (k + 1) ++ e.asStatement (e.print (k + 1)) ++ printStatements es (k + 1)) ++
        newline k ++ "\x7d" :=
  rfl

/-- The lines of a block are printed one by one, the only one as well. -/
theorem printBlock_eq (locals : List Param) (stmts : List Expr) (ty : Ty) (k : Nat) :
    printShape (.block locals stmts) ty k =
      "\x7b" ++ declarations (k + 1) locals ++
        String.join (stmts.map fun e =>
          if !(e.isEmpty && stmts.length == 1) then newline (k + 1) ++ e.asStatement (e.print (k + 1))
          else "") ++
        newline k ++ "\x7d" := by
  cases stmts with
  | nil => rfl
  | cons e es =>
    rw [printBlock_cons, printStatements_eq]
    cases es <;> cases hempty : e.isEmpty <;> simp [hempty]

theorem printCases_eq (cs : List (Case Expr)) (k : Nat) :
    printCases cs k = String.join (cs.map fun c => printCase c k) := by
  induction cs with
  | nil => rfl
  | cons c cs ih => rw [printCases, ih, List.map_cons, String.join_cons]

theorem printHandler_eq (exceptionTy : Ty) (binder : Option Param) (filter : Option Expr)
    (body : Expr) (k : Nat) :
    printHandler ⟨exceptionTy, binder, filter, body⟩ k =
      " catch (" ++ exceptionTy.text ++ binder.elim "" (fun v => " " ++ v.displayName) ++ ")" ++
        filter.elim "" (fun e => " when (" ++ e.print k ++ ")") ++ " " ++ body.asBody body.print k := by
  cases binder <;> cases filter <;> rfl

theorem printHandlers_eq (hs : List (Handler Expr)) (k : Nat) :
    printHandlers hs k = String.join (hs.map fun h => printHandler h k) := by
  induction hs with
  | nil => rfl
  | cons h hs ih => rw [printHandlers, ih, List.map_cons, String.join_cons]

theorem printList_eq (es : List Expr) (k : Nat) :
    printList es k = ", ".intercalate (es.map fun e => e.print k) := by
  cases es with
  | nil => rfl
  | cons e es =>
    rw [printList, printTail_eq, List.map_cons, intercalate_cons, List.map_map]
    rfl

/-! ### Nodes with optional parts -/

variable (ty : Ty) (k : Nat)

theorem printConditional_eq (test ifTrue ifFalse : Expr) :
    printShape (.conditional test ifTrue ifFalse) ty k =
      if !ty.isVoid then
        "(" ++ test.print k ++ " ? " ++ ifTrue.print k ++ " : " ++ ifFalse.print k ++ ")"
      else
        "if (" ++ test.print k ++ ") " ++ ifTrue.asBody ifTrue.print k ++
          (if !ifFalse.isEmpty then " else " ++ ifFalse.asBody ifFalse.print k else "") := by
  change (if ty.isVoid then _ ++ (if ifFalse.isEmpty then "" else _) else _) = _
  cases ty.isVoid <;> cases ifFalse.isEmpty <;> rfl

theorem printSwitch_eq (value : Expr) (cases : List (Case Expr)) (default : Option Expr)
    (comparer : Option Method) :
    printShape (.switch value cases default comparer) ty k =
      "switch (" ++ value.print k ++ comparer.elim "" (fun method => ", " ++ method.name) ++
        ") \x7b" ++ String.join (cases.map fun c => printCase c (k + 1)) ++
        default.elim "" (fun e =>
          newline (k + 1) ++ "default: " ++ e.asBody e.print (k + 1)) ++
        newline k ++ "\x7d" := by
  rw [← printCases_eq]
  cases comparer <;> cases default <;> rfl

theorem printGuarded_eq (body : Expr) (handlers : List (Handler Expr)) (cleanup : Option Expr) :
    printShape (.guarded body handlers cleanup) ty k =
      "try " ++ body.asBody body.print k ++
        String.join (handlers.map fun h => printHandler h k) ++
        cleanup.elim "" (fun e => " finally " ++ e.asBody e.print k) := by
  rw [← printHandlers_eq]
  cases cleanup <;> rfl

theorem printCall_eq (receiver : Option Expr) (method : Method) (args : List Expr) :
    printShape (.call receiver method args) ty k =
      receiver.elim method.declaring.text (fun e => e.print k) ++ "." ++ method.name ++ "(" ++
        printList args k ++ ")" := by
  cases receiver <;> rfl

theorem printMember_eq (target : Option Expr) (read : Member) :
    printShape (.member target read) ty k =
      target.elim read.declaring.text (fun e => e.print k) ++ "." ++ read.name := by
  cases target <;> rfl

theorem printJump_eq (kind : JumpKind) (target : Label) (value : Option Expr) :
    printShape (.jump kind target value) ty k =
      kind.keyword ++ " " ++ targetMark target ++ value.elim "" (fun e => " " ++ e.print k) := by
  cases value <;> rfl

theorem printLabel_eq (target : Label) (default : Option Expr) :
    printShape (.label target default) ty k =
      targetMark target ++ ":" ++
        default.elim "" (fun e => " " ++ e.asStatement (e.print k)) := by
  cases default <;> rfl

theorem printLoop_eq (body : Expr) (breakLabel continueLabel : Option Label) :
    printShape (.loop body breakLabel continueLabel) ty k =
      "loop " ++ continueLabel.elim "" (fun l => targetMark l ++ " ") ++
        body.asBody body.print k ++ breakLabel.elim "" (fun l => " " ++ targetMark l) := by
  cases breakLabel <;> cases continueLabel <;> rfl

end Expr

/-! ## Nodes -/

namespace Writes

variable {e : Expr} {x : Emit} {k : Nat} {text : Nat → String}

theorem choice {b : Bool} {y : Emit} {s t : String} (hx : Writes x k k s) (hy : Writes y k k t) :
    Writes (if b then x else y) k k (if b then s else t) := by
  cases b with
  | true => exact hx
  | false => exact hy

theorem given {b : Bool} {t : String} (h : Writes x k k t) :
    Writes (.given b x) k k (if b then t else "") :=
  choice h nothing

theorem statement {t : String} (h : Writes x k k t) :
    Writes (.statement (e, x)) k k (e.asStatement t) := by
  refine (andThen h (given write)).of_eq ?_
  cases hlike : e.isStatementLike <;> simp [Expr.asStatement, hlike]

/-- A body stands one level deeper, unless it is a block and brings its own braces. -/
theorem body (h : ∀ k, Writes x k k (text k)) : Writes (.body (e, x)) k k (e.asBody text k) := by
  rw [Emit.body, Expr.asBody]
  split
  · exact h k
  · have hinner := given (b := !e.isEmpty) (andThen line (statement (e := e) (h (k + 1))))
    refine of_eq
      (andThen write <| andThen raise <| andThen hinner <| andThen lower <| andThen line write) ?_
    cases e.isEmpty <;> simp [String.append_assoc]

end Writes

namespace Expr

/-- The printer of a node writes its text, at any level. -/
def Printed (e : Expr) : Prop := ∀ k, Writes e.emit k k (e.print k)

/-- A node beside its printer. -/
def withPrinter (e : Expr) : Expr × Emit := (e, e.emit)

end Expr

section Nodes

open Writes

variable {k : Nat}

theorem writes_list {es : List Expr} (h : ∀ e ∈ es, e.Printed) :
    Writes (.separated ((es.map Expr.withPrinter).map Prod.snd)) k k (Expr.printList es k) := by
  rw [Expr.printList_eq, List.map_map]
  exact separated fun e he => h e he k

theorem writes_tail {es : List Expr} (h : ∀ e ∈ es, e.Printed) :
    Writes ((es.map Expr.withPrinter).forM fun arg => do Emit.write ", "; arg.2) k k
      (Expr.printTail es k) := by
  rw [Expr.printTail_eq]
  exact forM_map fun e he => andThen write (h e he k)

theorem writes_arm {c : Case Expr} (h : ∀ e ∈ c.children, e.Printed) :
    Writes (.arm (c.map Expr.withPrinter)) k k (Expr.printCase c k) := by
  obtain ⟨tests, body⟩ := c
  rw [Case.children, List.forall_mem_append, List.forall_mem_singleton] at h
  refine of_eq (andThen line <| andThen write <| andThen (writes_list h.1) <| andThen write <|
    Writes.body h.2) ?_
  simp only [Expr.printCase, String.append_assoc]

theorem writes_handler {c : Handler Expr} (h : ∀ e ∈ c.children, e.Printed) :
    Writes (.handler (c.map Expr.withPrinter)) k k (Expr.printHandler c k) := by
  obtain ⟨exceptionTy, binder, filter, body⟩ := c
  rw [Handler.children, List.forall_mem_append, List.forall_mem_singleton] at h
  refine of_eq (andThen write <| andThen (option fun v _ => write) <| andThen write <|
    andThen (option_map fun e he => andThen write <| andThen (h.1 e he k) write) <|
    andThen write <| Writes.body h.2) ?_
  simp only [Expr.printHandler_eq, Handler.map, String.append_assoc]

variable {ty : Ty}

theorem writes_block {locals : List Param} {stmts : List Expr} (h : ∀ e ∈ stmts, e.Printed) :
    Writes (.block locals (stmts.map Expr.withPrinter)) k k
      (Expr.printShape (.block locals stmts) ty k) := by
  refine of_eq (andThen write <| andThen raise <| andThen (forM fun v _ => andThen line write) <|
    andThen (forM_map fun e he => given <| andThen line <| statement (h e he (k + 1))) <|
    andThen lower <| andThen line write) ?_
  simp only [Expr.printBlock_eq, Expr.declarations, Expr.withPrinter, List.length_map,
    String.append_assoc, String.empty_append]

theorem writes_conditional {test ifTrue ifFalse : Expr} (htest : test.Printed)
    (htrue : ifTrue.Printed) (hfalse : ifFalse.Printed) :
    Writes (.conditional (!ty.isVoid) test.withPrinter ifTrue.withPrinter ifFalse.withPrinter) k k
      (Expr.printShape (.conditional test ifTrue ifFalse) ty k) := by
  refine of_eq (choice
    (andThen write <| andThen (htest k) <| andThen write <| andThen (htrue k) <| andThen write <|
      andThen (hfalse k) write)
    (andThen write <| andThen (htest k) <| andThen write <| andThen (Writes.body htrue) <|
      given <| andThen write <| Writes.body hfalse)) ?_
  simp only [Expr.printConditional_eq, String.append_assoc]
  rfl

theorem writes_switch {value : Expr} {cases : List (Case Expr)} {default : Option Expr}
    {comparer : Option Method} (hvalue : value.Printed)
    (hcases : ∀ e ∈ cases.flatMap Case.children, e.Printed)
    (hdefault : ∀ e ∈ default.toList, e.Printed) :
    Writes (.switch value.withPrinter (cases.map (·.map Expr.withPrinter))
      (default.map Expr.withPrinter) comparer) k k
      (Expr.printShape (.switch value cases default comparer) ty k) := by
  have harms : ∀ c ∈ cases, Writes (.arm (c.map Expr.withPrinter)) (k + 1) (k + 1)
      (Expr.printCase c (k + 1)) :=
    fun c hc => writes_arm (List.forall_mem_flatMap.mp hcases c hc)
  refine of_eq (andThen write <| andThen (hvalue k) <| andThen (option fun m _ => write) <|
    andThen write <| andThen raise <| andThen (forM_map harms) <|
    andThen (option_map fun e he => andThen line <| andThen write <| Writes.body (hdefault e he)) <|
    andThen lower <| andThen line write) ?_
  simp only [Expr.printSwitch_eq, String.append_assoc, String.empty_append]

theorem writes_guarded {first : Expr} {handlers : List (Handler Expr)} {cleanup : Option Expr}
    (hfirst : first.Printed) (hhandlers : ∀ e ∈ handlers.flatMap Handler.children, e.Printed)
    (hcleanup : ∀ e ∈ cleanup.toList, e.Printed) :
    Writes (.guarded first.withPrinter (handlers.map (·.map Expr.withPrinter))
      (cleanup.map Expr.withPrinter)) k k
      (Expr.printShape (.guarded first handlers cleanup) ty k) := by
  have hclauses : ∀ c ∈ handlers, Writes (.handler (c.map Expr.withPrinter)) k k
      (Expr.printHandler c k) :=
    fun c hc => writes_handler (List.forall_mem_flatMap.mp hhandlers c hc)
  refine of_eq (andThen write <| andThen (Writes.body hfirst) <| andThen (forM_map hclauses) <|
    option_map fun e he => andThen write <| Writes.body (hcleanup e he)) ?_
  simp only [Expr.printGuarded_eq, String.append_assoc]

/-- A node is printed when its children are: one rule for each piece that is written. -/
theorem writes_step {id : Nat} {s : Shape Value Expr} (h : ∀ a ∈ s.children, a.Printed) (k : Nat) :
    Writes (Emit.step (.mk id s ty) (s.map Expr.withPrinter)) k k (Expr.printShape s ty k) := by
  cases s with
  | empty => exact write
  | constant v => exact write
  | parameter p => exact write
  | block locals stmts => exact writes_block h
  | conditional test ifTrue ifFalse =>
    rw [Shape.children, List.forall_mem_cons, List.forall_mem_cons, List.forall_mem_singleton] at h
    exact writes_conditional h.1 h.2.1 h.2.2
  | switch value cases default comparer =>
    rw [Shape.children, List.forall_mem_cons, List.forall_mem_append] at h
    exact writes_switch h.1 h.2.1 h.2.2
  | guarded first handlers cleanup =>
    rw [Shape.children, List.forall_mem_cons, List.forall_mem_append] at h
    exact writes_guarded h.1 h.2.1 h.2.2
  | throw value =>
    cases value with
    | none => exact write
    | some e => exact andThen write (h e List.mem_cons_self k)
  | call receiver method args =>
    rw [Shape.children, List.forall_mem_append] at h
    refine of_eq (andThen (elim_map write fun e he => h.1 e he k) <| andThen write <|
      andThen (writes_list h.2) write) ?_
    simp only [Expr.printCall_eq, String.append_assoc]
  | construct ctor args =>
    refine of_eq (andThen write <| andThen (writes_list h) write) ?_
    simp only [← String.append_assoc]
    rfl
  | invoke target args =>
    rw [Shape.children, List.forall_mem_cons] at h
    refine of_eq (andThen write <| andThen (h.1 k) <| andThen (writes_tail h.2) write) ?_
    simp only [← String.append_assoc]
    rfl
  | member target read =>
    refine of_eq (andThen (elim_map write fun e he => h e he k) write) ?_
    simp only [Expr.printMember_eq, String.append_assoc]
  | convert kind operand =>
    have hoperand := h operand List.mem_cons_self k
    cases kind with
    | cast => exact andThen write hoperand
    | typeAs =>
      refine of_eq (andThen write <| andThen hoperand write) ?_
      simp only [← String.append_assoc]
      rfl
  | typeIs operand testTy =>
    refine of_eq (andThen write <| andThen (h operand List.mem_cons_self k) write) ?_
    simp only [← String.append_assoc]
    rfl
  | unary op operand => exact andThen write (h operand List.mem_cons_self k)
  | binary op left right =>
    rw [Shape.children, List.forall_mem_cons, List.forall_mem_singleton] at h
    refine of_eq (andThen write <| andThen (h.1 k) <| andThen write <| andThen (h.2 k) write) ?_
    simp only [← String.append_assoc]
    rfl
  | assign target value => exact andThen write (h value List.mem_cons_self k)
  | lambda params body =>
    refine of_eq (andThen write <| andThen (separated fun p _ => write) <| andThen write <|
      h body List.mem_cons_self k) ?_
    simp only [← String.append_assoc]
    rfl
  | await task => exact andThen write (h task List.mem_cons_self k)
  | newArray elem items =>
    refine of_eq (andThen write <| andThen (writes_list h) write) ?_
    simp only [← String.append_assoc]
    rfl
  | jump kind target value =>
    refine of_eq (andThen write <| option_map fun e he => andThen write (h e he k)) ?_
    simp only [Expr.printJump_eq, String.append_assoc]
  | label target default =>
    refine of_eq (andThen write <| option_map fun e he => andThen write <| statement (h e he k)) ?_
    simp only [Expr.printLabel_eq, String.append_assoc]
  | loop body breakLabel continueLabel =>
    refine of_eq (andThen write <| andThen (option fun l _ => write) <|
      andThen (Writes.body (h body List.mem_cons_self)) <| option fun l _ => write) ?_
    simp only [Expr.printLoop_eq, String.append_assoc]

/-- Both ways of printing write the same, and the page comes back to the level it started at. -/
theorem Expr.printed : ∀ e : Expr, e.Printed :=
  induction fun e ih k => by
    obtain ⟨id, s, ty⟩ := e
    rw [emit, fold_mk, print]
    exact writes_step ih k

end Nodes

end CodeTree
