import CodeTree.Proofs.Printer

/-!
# Indentation

The level at which a tree is printed decides how far its lines are indented, and nothing else: every
line break in the text of a tree stands for a new line of the layout, unless a name or a constant
brings one of its own.

* `indented k s` — the text `s` with the indentation of `k` levels after every line break;
* `Indents text` — the levels of `text` differ in their indentation only; one rule for each way of
  putting texts together;
* `Expr.IsUnbroken` — no name and no constant in a tree has a line break.

Main statement: `printing_is_compositional` — the text of such a tree at a level is its text at level
zero, indented, and printing it leaves the level as it was.
-/

namespace CodeTree

/-! ## Texts -/

/-- The text stands on one line. -/
def Unbroken (s : String) : Prop := '\n' ∉ s.toList

instance (s : String) : Decidable (Unbroken s) := inferInstanceAs (Decidable (_ ∉ _))

/-- The text with four spaces for each of `k` levels after every line break. -/
def indented (k : Nat) (s : String) : String :=
  String.ofList (s.toList.flatMap fun c => if c = '\n' then c :: List.replicate (4 * k) ' ' else [c])

theorem Unbroken.append {s t : String} (hs : Unbroken s) (ht : Unbroken t) : Unbroken (s ++ t) := by
  rw [Unbroken, String.toList_append, List.mem_append]
  exact not_or.mpr ⟨hs, ht⟩

theorem unbroken_toString (n : Nat) : Unbroken (toString n) := by
  intro h
  have hdigits : (toString n).toList = Nat.toDigits 10 n := Nat.toList_repr
  rw [hdigits] at h
  exact absurd (Nat.isDigit_of_mem_toDigits (by decide) (by decide) h) (by decide)

theorem indented_append (k : Nat) (s t : String) :
    indented k (s ++ t) = indented k s ++ indented k t := by
  rw [indented, String.toList_append, List.flatMap_append, String.ofList_append]
  rfl

theorem indented_of_unbroken {s : String} (h : Unbroken s) (k : Nat) : indented k s = s := by
  have hself : ∀ c ∈ s.toList,
      (if c = '\n' then c :: List.replicate (4 * k) ' ' else [c]) = [c] := by
    intro c hc
    rw [if_neg]
    rintro rfl
    exact h hc
  rw [indented, List.flatMap_congr hself, List.flatMap_singleton', String.ofList_toList]

theorem indented_newline (k j : Nat) : indented k (newline j) = newline (k + j) := by
  have hspaces : Unbroken (String.ofList (List.replicate (4 * j) ' ')) := by
    rw [Unbroken, String.toList_ofList, List.mem_replicate]
    exact fun h => absurd h.2 (by decide)
  have hbreak : indented k "\n" = newline k := by
    rw [← String.toList_inj]
    simp [indented, newline]
  rw [newline, indented_append, indented_of_unbroken hspaces, hbreak, newline, newline,
    String.append_assoc, ← String.ofList_append, List.replicate_append_replicate, Nat.mul_add]

/-! ## Texts at all levels -/

/-- A text that has a version for every level, each of them indented from the ones below. -/
def Indents (text : Nat → String) : Prop := ∀ k j, text (k + j) = indented k (text j)

namespace Indents

variable {text text' : Nat → String} {s : String}

theorem of_eq (heq : ∀ k, text k = text' k) (h : Indents text') : Indents text := by
  rw [funext heq]
  exact h

theorem const (h : Unbroken s) : Indents fun _ => s := fun k _ => (indented_of_unbroken h k).symm

theorem newline : Indents newline := fun k j => (indented_newline k j).symm

/-- What stands one level deeper is indented with the rest. -/
theorem deeper (h : Indents text) : Indents fun k => text (k + 1) := fun k j => h k (j + 1)

theorem append (h : Indents text) (h' : Indents text') : Indents fun k => text k ++ text' k := by
  intro k j
  simp only [h k j, h' k j, indented_append]

/-- The same text at every level, after another one. -/
theorem word (h : Indents text) (hs : Unbroken s) : Indents fun k => text k ++ s :=
  h.append (const hs)

theorem choice {b : Bool} (h : Indents text) (h' : Indents text') :
    Indents fun k => if b then text k else text' k := by
  cases b with
  | true => exact h
  | false => exact h'

variable {α : Type} {f : α → Nat → String}

theorem option {o : Option α} (h : Indents text) (hf : ∀ a ∈ o.toList, Indents (f a)) :
    Indents fun k => o.elim (text k) fun a => f a k := by
  cases o with
  | none => exact h
  | some a => exact hf a List.mem_cons_self

theorem join {l : List α} (h : ∀ a ∈ l, Indents (f a)) :
    Indents fun k => String.join (l.map fun a => f a k) := by
  induction l with
  | nil => exact const (by decide)
  | cons a l ih =>
    rw [List.forall_mem_cons] at h
    refine of_eq (fun k => ?_) (h.1.append (ih h.2))
    rw [List.map_cons, String.join_cons]

/-- Texts with commas between them. -/
theorem separated {l : List α} (h : ∀ a ∈ l, Indents (f a)) :
    Indents fun k => ", ".intercalate (l.map fun a => f a k) := by
  cases l with
  | nil => exact const (by decide)
  | cons a l =>
    rw [List.forall_mem_cons] at h
    have htail : ∀ b ∈ l, Indents fun k => ", " ++ f b k := fun b hb =>
      const (by decide) |>.append (h.2 b hb)
    refine of_eq (fun k => ?_) (h.1.append (join htail))
    rw [List.map_cons, intercalate_cons, List.map_map]
    rfl

end Indents

/-! ## Names -/

mutual
/-- The names of the classes and interfaces in the text of a type. -/
def Ty.names : Ty → List String
  | .void | .bool | .int | .float | .string | .object => []
  | .nominal name _ _ _ => [name]
  | .array elem => names elem
  | .task result => names result
  | .func params ret => namesOfAll params ++ names ret
  | .node inner => names inner
/-- `names` along a list. -/
def Ty.namesOfAll : List Ty → List String
  | [] => []
  | ty :: tys => Ty.names ty ++ namesOfAll tys
end

mutual
theorem Ty.unbroken_text : ∀ ty : Ty, (∀ w ∈ ty.names, Unbroken w) → Unbroken ty.text
  | .void, _ | .bool, _ | .int, _ | .float, _ | .string, _ | .object, _ => by decide
  | .nominal name _ _ _, h => h name List.mem_cons_self
  | .array elem, h => (unbroken_text elem h).append (by decide)
  | .task result, h => (Unbroken.append (by decide) (unbroken_text result h)).append (by decide)
  | .func params ret, h => by
    rw [Ty.names, List.forall_mem_append] at h
    exact ((Unbroken.append (by decide) (unbroken_paramsText params h.1)).append
      (unbroken_text ret h.2)).append (by decide)
  | .node inner, h => (Unbroken.append (by decide) (unbroken_text inner h)).append (by decide)
theorem Ty.unbroken_paramsText :
    ∀ tys : List Ty, (∀ w ∈ Ty.namesOfAll tys, Unbroken w) → Unbroken (Ty.paramsText tys)
  | [], _ => by decide
  | ty :: tys, h => by
    rw [Ty.namesOfAll, List.forall_mem_append] at h
    exact ((unbroken_text ty h.1).append (by decide)).append (unbroken_paramsText tys h.2)
end

theorem Param.unbroken_displayName {p : Param} (h : ∀ w ∈ p.name.toList, Unbroken w) :
    Unbroken p.displayName := by
  rw [displayName]
  cases hname : p.name with
  | none => exact Unbroken.append (by decide) (unbroken_toString p.id)
  | some name => exact h name (by rw [hname]; exact List.mem_cons_self)

theorem Label.unbroken_targetMark {l : Label} (h : ∀ w ∈ l.name.toList, Unbroken w) :
    Unbroken (Expr.targetMark l) := by
  refine Unbroken.append (by decide) ?_
  rw [displayName]
  cases hname : l.name with
  | none => exact Unbroken.append (by decide) (unbroken_toString l.id)
  | some name =>
    have hunbroken := h name (by rw [hname]; exact List.mem_cons_self)
    exact (hunbroken.append (by decide)).append (unbroken_toString l.id)

/-! ## Trees -/

namespace Expr

/-- What a node brings into its text besides fixed words: names, and the text of a constant. -/
def words (e : Expr) : List String :=
  match e.shape with
  | .constant v => [v.text]
  | .parameter p => p.name.toList
  | .block locals _ => locals.flatMap fun v => v.name.toList ++ v.ty.names
  | .switch _ _ _ comparer => comparer.toList.map Method.name
  | .guarded _ handlers _ =>
    handlers.flatMap fun h => h.exceptionTy.names ++ h.binder.toList.flatMap (·.name.toList)
  | .call _ method _ => method.name :: method.declaring.names
  | .construct ctor _ => ctor.declaring.names
  | .member _ read => read.name :: read.declaring.names
  | .convert _ _ => e.ty.names
  | .typeIs _ testTy => testTy.names
  | .assign target _ => target.name.toList
  | .lambda params _ => params.flatMap (·.name.toList)
  | .newArray elem _ => elem.names
  | .jump _ target _ => target.name.toList
  | .label target _ => target.name.toList
  | .loop _ breakLabel continueLabel =>
    breakLabel.toList.flatMap (·.name.toList) ++ continueLabel.toList.flatMap (·.name.toList)
  | _ => []

/-- No name and no constant in the tree has a line break. -/
def IsUnbroken (e : Expr) : Prop := ∀ n ∈ e.nodes, ∀ w ∈ n.words, Unbroken w

instance (e : Expr) : Decidable e.IsUnbroken :=
  inferInstanceAs (Decidable (∀ n ∈ e.nodes, ∀ w ∈ n.words, Unbroken w))

theorem IsUnbroken.child {e a : Expr} (h : e.IsUnbroken) (ha : a ∈ e.children) : a.IsUnbroken :=
  fun n hn => h n (mem_nodes_of_child ha hn)

end Expr

namespace Indents

variable {e : Expr} {text : Nat → String} {es : List Expr}

theorem statement (h : Indents text) : Indents fun k => e.asStatement (text k) :=
  choice h (h.word (by decide))

theorem body (h : Indents text) : Indents (e.asBody text) :=
  choice h (const (by decide) |>.append
    (choice (const (by decide)) (newline.append h.statement).deeper) |>.append newline
    |>.word (by decide))

theorem tail (h : ∀ e ∈ es, Indents e.print) : Indents (Expr.printTail es) :=
  of_eq (Expr.printTail_eq es) (join fun e he => const (by decide) |>.append (h e he))

theorem list (h : ∀ e ∈ es, Indents e.print) : Indents (Expr.printList es) :=
  of_eq (Expr.printList_eq es) (separated h)

theorem arm {c : Case Expr} (h : ∀ e ∈ c.children, Indents e.print) :
    Indents (Expr.printCase c) := by
  obtain ⟨tests, result⟩ := c
  rw [Case.children, List.forall_mem_append, List.forall_mem_singleton] at h
  exact newline.word (by decide) |>.append (list h.1) |>.word (by decide) |>.append (body h.2)

theorem handler {c : Handler Expr} (hty : ∀ w ∈ c.exceptionTy.names, Unbroken w)
    (hbinder : ∀ v ∈ c.binder.toList, ∀ w ∈ v.name.toList, Unbroken w)
    (h : ∀ e ∈ c.children, Indents e.print) : Indents (Expr.printHandler c) := by
  obtain ⟨exceptionTy, binder, filter, result⟩ := c
  rw [Handler.children, List.forall_mem_append, List.forall_mem_singleton] at h
  refine of_eq (Expr.printHandler_eq exceptionTy binder filter result) ?_
  exact const (by decide) |>.word (Ty.unbroken_text _ hty)
    |>.append (option (const (by decide)) fun v hv =>
      const (by decide) |>.word (Param.unbroken_displayName (hbinder v hv)))
    |>.word (by decide)
    |>.append (option (const (by decide)) fun e he =>
      const (by decide) |>.append (h.1 e he) |>.word (by decide))
    |>.word (by decide) |>.append (body h.2)

theorem declarations {locals : List Param}
    (h : ∀ v ∈ locals, ∀ w ∈ v.name.toList ++ v.ty.names, Unbroken w) :
    Indents fun k => Expr.declarations k locals :=
  join fun v hv => by
    obtain ⟨hname, hty⟩ := List.forall_mem_append.mp (h v hv)
    exact newline.word (by decide) |>.word (Param.unbroken_displayName hname)
      |>.word (by decide) |>.word (Ty.unbroken_text _ hty) |>.word (by decide)

/-- The text of a node is indented as the texts of its children are. -/
theorem shape {id : Nat} {s : Shape Value Expr} {ty : Ty}
    (hwords : ∀ w ∈ (Expr.mk id s ty).words, Unbroken w)
    (h : ∀ a ∈ s.children, Indents a.print) : Indents (Expr.printShape s ty) := by
  cases s with
  | empty => exact const (by decide)
  | constant v => exact const (hwords _ List.mem_cons_self)
  | parameter p => exact const (Param.unbroken_displayName hwords)
  | block locals stmts =>
    refine of_eq (Expr.printBlock_eq locals stmts ty) ?_
    -- what stands between the braces is at the next level
    exact const (by decide) |>.append (declarations (List.forall_mem_flatMap.mp hwords)).deeper
      |>.append (join fun e he =>
        choice (newline.append (h e he).statement).deeper (const (by decide)))
      |>.append newline |>.word (by decide)
  | conditional test ifTrue ifFalse =>
    rw [Shape.children, List.forall_mem_cons, List.forall_mem_cons, List.forall_mem_singleton] at h
    obtain ⟨htest, htrue, hfalse⟩ := h
    refine of_eq (Expr.printConditional_eq ty · test ifTrue ifFalse) ?_
    exact choice
      (const (by decide) |>.append htest |>.word (by decide) |>.append htrue |>.word (by decide)
        |>.append hfalse |>.word (by decide))
      (const (by decide) |>.append htest |>.word (by decide) |>.append (body htrue)
        |>.append (choice (const (by decide) |>.append (body hfalse)) (const (by decide))))
  | switch value cases default comparer =>
    rw [Shape.children, List.forall_mem_cons, List.forall_mem_append] at h
    obtain ⟨hvalue, hcases, hdefault⟩ := h
    rw [List.forall_mem_flatMap] at hcases
    refine of_eq (Expr.printSwitch_eq ty · value cases default comparer) ?_
    exact const (by decide) |>.append hvalue
      |>.append (option (const (by decide)) fun m hm =>
        const (by decide) |>.word (List.forall_mem_map.mp hwords m hm))
      |>.word (by decide)
      |>.append (join fun c hc => (arm (hcases c hc)).deeper)
      |>.append (option (const (by decide)) fun e he =>
        newline.deeper.word (by decide) |>.append (body (hdefault e he)).deeper)
      |>.append newline |>.word (by decide)
  | guarded first handlers cleanup =>
    rw [Shape.children, List.forall_mem_cons, List.forall_mem_append] at h
    obtain ⟨hfirst, hhandlers, hcleanup⟩ := h
    rw [List.forall_mem_flatMap] at hhandlers
    refine of_eq (Expr.printGuarded_eq ty · first handlers cleanup) ?_
    refine const (by decide) |>.append (body hfirst) |>.append (join fun c hc => ?_)
      |>.append (option (const (by decide)) fun e he =>
        const (by decide) |>.append (body (hcleanup e he)))
    obtain ⟨hty, hbinder⟩ := List.forall_mem_append.mp (List.forall_mem_flatMap.mp hwords c hc)
    exact handler hty (List.forall_mem_flatMap.mp hbinder) (hhandlers c hc)
  | throw value =>
    cases value with
    | none => exact const (by decide)
    | some e => exact const (by decide) |>.append (h e List.mem_cons_self)
  | call receiver method args =>
    rw [Shape.children, List.forall_mem_append] at h
    obtain ⟨hname, hdeclaring⟩ := List.forall_mem_cons.mp hwords
    refine of_eq (Expr.printCall_eq ty · receiver method args) ?_
    exact option (const (Ty.unbroken_text _ hdeclaring)) h.1 |>.word (by decide) |>.word hname
      |>.word (by decide) |>.append (list h.2) |>.word (by decide)
  | construct ctor args =>
    exact const (by decide) |>.word (Ty.unbroken_text _ hwords) |>.word (by decide)
      |>.append (list h) |>.word (by decide)
  | invoke target args =>
    rw [Shape.children, List.forall_mem_cons] at h
    exact const (by decide) |>.append h.1 |>.append (tail h.2) |>.word (by decide)
  | member target read =>
    obtain ⟨hname, hdeclaring⟩ := List.forall_mem_cons.mp hwords
    refine of_eq (Expr.printMember_eq ty · target read) ?_
    exact option (const (Ty.unbroken_text _ hdeclaring)) h |>.word (by decide) |>.word hname
  | convert kind operand =>
    have htext := Ty.unbroken_text ty hwords
    have hoperand := h operand List.mem_cons_self
    cases kind with
    | cast => exact const (by decide) |>.word htext |>.word (by decide) |>.append hoperand
    | typeAs =>
      exact const (by decide) |>.append hoperand |>.word (by decide) |>.word htext
        |>.word (by decide)
  | typeIs operand testTy =>
    exact const (by decide) |>.append (h operand List.mem_cons_self) |>.word (by decide)
      |>.word (Ty.unbroken_text _ hwords) |>.word (by decide)
  | unary op operand =>
    refine append (const ?_) (h operand List.mem_cons_self)
    cases op <;> decide
  | binary op left right =>
    rw [Shape.children, List.forall_mem_cons, List.forall_mem_singleton] at h
    have hsymbol : Unbroken op.symbol := by cases op <;> decide
    exact const (by decide) |>.append h.1 |>.word (by decide) |>.word hsymbol |>.word (by decide)
      |>.append h.2 |>.word (by decide)
  | assign target value =>
    exact const (Param.unbroken_displayName hwords) |>.word (by decide)
      |>.append (h value List.mem_cons_self)
  | lambda params result =>
    have hparams : ∀ p ∈ params, Indents fun _ => p.displayName := fun p hp =>
      const (Param.unbroken_displayName (List.forall_mem_flatMap.mp hwords p hp))
    exact const (by decide) |>.append (separated hparams) |>.word (by decide)
      |>.append (h result List.mem_cons_self)
  | await task => exact const (by decide) |>.append (h task List.mem_cons_self)
  | newArray elem items =>
    exact const (by decide) |>.word (Ty.unbroken_text _ hwords) |>.word (by decide)
      |>.append (list h) |>.word (by decide)
  | jump kind target value =>
    have hkeyword : Unbroken kind.keyword := by cases kind <;> decide
    refine of_eq (Expr.printJump_eq ty · kind target value) ?_
    exact const hkeyword |>.word (by decide) |>.word (Label.unbroken_targetMark hwords)
      |>.append (option (const (by decide)) fun e he => const (by decide) |>.append (h e he))
  | label target default =>
    refine of_eq (Expr.printLabel_eq ty · target default) ?_
    exact const (Label.unbroken_targetMark hwords) |>.word (by decide)
      |>.append (option (const (by decide)) fun e he =>
        const (by decide) |>.append (h e he).statement)
  | loop result breakLabel continueLabel =>
    obtain ⟨hbreak, hcontinue⟩ := List.forall_mem_append.mp hwords
    refine of_eq (Expr.printLoop_eq ty · result breakLabel continueLabel) ?_
    exact const (by decide)
      |>.append (option (const (by decide)) fun l hl =>
        const (Label.unbroken_targetMark (List.forall_mem_flatMap.mp hcontinue l hl))
          |>.word (by decide))
      |>.append (body (h result List.mem_cons_self))
      |>.append (option (const (by decide)) fun l hl =>
        const (by decide)
          |>.word (Label.unbroken_targetMark (List.forall_mem_flatMap.mp hbreak l hl)))

end Indents

theorem Expr.indents : ∀ e : Expr, e.IsUnbroken → Indents e.print :=
  induction fun e ih h => by
    have hchildren : ∀ a ∈ e.children, Indents a.print := fun a ha => ih a ha (h.child ha)
    obtain ⟨id, s, ty⟩ := e
    refine Indents.of_eq (fun _ => rfl) ?_
    exact Indents.shape (h _ (mem_nodes_self _)) hchildren

/-- The text of a tree at a level is its text at level zero with the indentation of that level after
every line break, and the level is the same again once the tree is printed. -/
theorem printing_is_compositional (e : Expr) (h : e.IsUnbroken) (k : Nat) (out : String) :
    e.print k = indented k e.text ∧
      e.emit.run ⟨out, 0⟩ = some ((), ⟨out ++ e.text, 0⟩) ∧
        e.emit.run ⟨out, k⟩ = some ((), ⟨out ++ indented k e.text, k⟩) := by
  have hprint : e.print k = indented k e.text := e.indents h k 0
  have hlevel := e.printed k out
  rw [hprint] at hlevel
  exact ⟨hprint, e.printed 0 out, hlevel⟩

namespace Sample

/-- A block that declares a variable and sets it in a branch. -/
def settingBlock : Expr :=
  let flag : Param := ⟨1, some "flag", .bool⟩
  let set : Expr := .mk 3 (.assign flag (.mk 2 (.constant (.bool true)) .bool)) .bool
  let branch : Expr :=
    .mk 5 (.conditional (.mk 1 (.parameter flag) .bool) set (.mk 4 .empty .void)) .void
  .mk 6 (.block [flag] [branch]) .void

end Sample

theorem setting_block_indented :
    Sample.settingBlock.IsUnbroken ∧
      Sample.settingBlock.print 2 = indented 2 Sample.settingBlock.text ∧
        Sample.settingBlock.emit.run ⟨"try ", 2⟩ =
          some ((), ⟨"try " ++ indented 2 Sample.settingBlock.text, 2⟩) := by
  have hunbroken : Sample.settingBlock.IsUnbroken := by decide
  have hprinting := printing_is_compositional Sample.settingBlock hunbroken 2 "try "
  exact ⟨hunbroken, hprinting.1, hprinting.2.2⟩

/-- A line break in a constant is not the layout's: what follows it is not indented. -/
example :
    let poem : Expr := .mk 1 (.constant (.str "a\nb")) .string
    poem.print 1 = "\"a\nb\"" ∧ indented 1 poem.text = "\"a\n    b\"" := by
  decide

end CodeTree
