import CodeTree.Proofs.Strictness

/-!
# How evaluations are left

An exit travels outwards from the node that makes it. `Enters` says where the evaluation of a
construct comes to the evaluation of a part of it, after which other parts have done what; a
path of such steps (`Reaches`) lists the constructs that stand around a node, innermost first,
each with the last part it still has to run. Filters of catch clauses are the one place that is
left out: what leaves them early is dropped.

A jump passes all constructs that do not own its label, and a fault passes all of them
(`Exit.Passes`). What happens on the way is that the last parts run, innermost first, once each
(`Unwinds`), and nothing else does: the machine afterwards is the one that they leave.

* `Enters.passes` — one construct; `Reaches.passes` — by induction on the path, all of them;
* `Enters.stops` — a block resumes after its label, a loop ends or goes on;
* `fails_of_jump` — a jump that reaches the end of its activation is a fault to all callers.

Main statement: `jump_unwinds`.
-/

namespace CodeTree

open Filter (atTop)

variable {σ : Type}

/-! ## Labels and operands -/

/-- Whether a statement marks a label. -/
def Expr.marks (e : Expr) (l : Label) : Bool := e.label?.any (· == l)

/-- Whether a construct stops jumps to a label: a block that marks it among its statements, or a
loop whose break or continue label it is. -/
def Expr.owns (e : Expr) (l : Label) : Bool :=
  match e.shape with
  | .block _ body => body.any (·.marks l)
  | .loop _ breakLabel continueLabel => breakLabel == some l || continueLabel == some l
  | _ => false

/-- Whether an exit of a part leaves the construct too. -/
def Exit.Passes (e : Expr) : Exit → Prop
  | .throw _ => False
  | .jump l _ => e.owns l = false
  | .fault _ => True

/-- The children that a node evaluates in its own scope before anything else, in their order. -/
def Shape.operands {ν α : Type} : Shape ν α → List α
  | .conditional test _ _ => [test]
  | .switch value _ _ _ => [value]
  | .throw value => value.toList
  | .call receiver method args => (if method.isStatic then [] else receiver.toList) ++ args
  | .construct _ args => args
  | .invoke target args => target :: args
  | .member target _ => target.toList
  | .convert _ operand => [operand]
  | .typeIs operand _ => [operand]
  | .unary _ operand => [operand]
  | .binary op left right =>
    match op with
    | .andAlso | .orElse => [left]
    | _ => [left, right]
  | .assign _ value => [value]
  | .await task => [task]
  | .newArray _ items => items
  | .jump _ _ value => value.toList
  | .label _ default => default.toList
  | _ => []

/-- The operands of a strict node are all its children. -/
theorem Shape.operands_eq_children {ν α : Type} {s : Shape ν α} (h : s.isStrict = true) :
    s.operands = s.children := by
  cases s with
  | call receiver method args =>
    cases receiver with
    | none => simp [operands, children]
    | some r =>
      have hstatic : method.isStatic = false := by simpa [isStrict] using h
      simp [operands, children, hstatic]
  | binary op a b =>
    cases op <;> first
      | rfl
      | cases h
  | _ => first
    | rfl
    | cases h

/-- A node evaluates its operands and goes on with their values. -/
theorem evalNode_operands (H : Host σ) (E : Engine σ) (I : Interp) (scope : Scope) (e : Expr) :
    ∃ after : List Value → Run σ Value,
      evalNode H E I scope e = evalAll (E.eval I scope) e.shape.operands >>= after := by
  by_cases hstrict : e.shape.isStrict = true
  · rw [Shape.operands_eq_children hstrict]
    exact ⟨_, evalNode_of_isStrict H E I scope hstrict⟩
  have hone : ∀ (a : Expr) (k : Value → Run σ Value), ∃ after : List Value → Run σ Value,
      E.eval I scope a >>= k = evalAll (E.eval I scope) [a] >>= after := fun a k =>
    ⟨fun vs => k (vs.headD .void), by simp [evalAll]⟩
  have hnone : ∀ x : Run σ Value, ∃ after : List Value → Run σ Value,
      x = evalAll (E.eval I scope) [] >>= after := fun x => ⟨fun _ => x, rfl⟩
  unfold evalNode
  cases hs : e.shape with
  | empty => exact hnone _
  | constant v => exact hnone _
  | parameter p => exact hnone _
  | block locals body => exact hnone _
  | conditional test a b => exact hone test _
  | switch value cases default comparer => exact hone value _
  | guarded body handlers cleanup => exact hnone _
  | call receiver method args =>
    -- a static method does not have its receiver evaluated
    cases receiver with
    | none => simp [hs, Shape.isStrict] at hstrict
    | some r =>
      have hstatic : method.isStatic = true := by simpa [hs, Shape.isStrict] using hstrict
      simp only [Shape.operands, hstatic, if_true, List.nil_append]
      exact ⟨dispatch H E method none, rfl⟩
  | member target read =>
    cases target with
    | some target => simp [hs, Shape.isStrict] at hstrict
    | none => exact hnone _
  | binary op a b =>
    cases op with
    | andAlso => exact hone a _
    | orElse => exact hone a _
    | _ => simp [hs, Shape.isStrict] at hstrict
  | lambda params body => exact hnone _
  | label target default =>
    cases default with
    | some value =>
      obtain ⟨after, h⟩ := hone value pure
      exact ⟨after, (bind_pure _).symm.trans h⟩
    | none => exact hnone _
  | loop body breakLabel continueLabel => exact hnone _
  | _ => simp [hs, Shape.isStrict] at hstrict

/-! ## Where evaluations come to -/

section Coming

variable (H : Host σ) (I : Interp)

/-- A body that has still to run `rest` comes to where it has still to run another part of it. -/
inductive BodyComes (scope : Scope) (body : List Expr) :
    List Expr → Machine σ → List Expr → Machine σ → Prop
  | here (rest : List Expr) (m : Machine σ) : BodyComes scope body rest m rest m
  | next {e rest v m m₁ rest' m'} (h : Evaluates H I scope e m (.ok v, m₁))
      (later : BodyComes scope body rest m₁ rest' m') :
      BodyComes scope body (e :: rest) m rest' m'
  | resumed {e rest l v m m₁ after rest' m'}
      (h : Evaluates H I scope e m (.error (.jump l v), m₁))
      (hafter : afterLabel? l body = some after) (later : BodyComes scope body after m₁ rest' m') :
      BodyComes scope body (e :: rest) m rest' m'

/-- Whether a loop starts another round after one that ended with `r`. -/
def GoesRound (breakLabel continueLabel : Option Label) : Except Exit Value → Prop
  | .ok _ => True
  | .error (.jump l _) => (breakLabel == some l) = false ∧ (continueLabel == some l) = true
  | .error _ => False

/-- A loop comes to one of its rounds. -/
inductive LoopComes (scope : Scope) (body : Expr) (breakLabel continueLabel : Option Label) :
    Machine σ → Machine σ → Prop
  | here (m : Machine σ) : LoopComes scope body breakLabel continueLabel m m
  | next {r m m₁ m'} (h : Evaluates H I scope body m (r, m₁))
      (hr : GoesRound breakLabel continueLabel r)
      (later : LoopComes scope body breakLabel continueLabel m₁ m') :
      LoopComes scope body breakLabel continueLabel m m'

/-- What the tests of an arm answer, up to the first one that matches. -/
def TestsEnd (scope : Scope) (comparer : Option Method) (scrutinee : Value) (tests : List Expr)
    (m : Machine σ) (y : Except Exit Bool × Machine σ) : Prop :=
  Ends (fun n => (matchesSome (eval H n I scope) (accepts H (engine H n) comparer scrutinee)
    tests).run) m y

/-- Which body the arms of a switch give. -/
def ArmsEnd (scope : Scope) (comparer : Option Method) (scrutinee : Value)
    (arms : List (Case Expr)) (m : Machine σ) (y : Except Exit (Option Expr) × Machine σ) : Prop :=
  Ends (fun n => (selectCase (eval H n I scope) (accepts H (engine H n) comparer scrutinee)
    arms).run) m y

/-- The machine on which a catch clause starts: a new frame binds its variable. -/
def Machine.caught (m : Machine σ) (h : Handler Expr) (exception : Value) : Machine σ :=
  { m with store := m.store.opened (h.binder.toList.map fun p => (p, exception)) }

/-- The scope of a catch clause. -/
def Machine.catching (m : Machine σ) (scope : Scope) (exception : Value) : Scope :=
  scope.extended m.store.frames.size (some exception)

/-- What a filter answers. -/
def FilterEnds (scope : Scope) (filter : Option Expr) (m : Machine σ) (accepted : Bool)
    (m' : Machine σ) : Prop :=
  Ends (fun n => (filterAccepts (eval H n I scope) filter).run) m (.ok accepted, m')

/-- The clause that takes an exception, its scope, and the machine on which its body starts. -/
inductive Takes (scope : Scope) (exception : Value) (thrownTy : Ty) :
    List (Handler Expr) → Machine σ → Handler Expr → Scope → Machine σ → Prop
  | here {h hs m m'} (hty : h.exceptionTy.isAssignableFrom thrownTy = true)
      (hfilter : FilterEnds H I (m.catching scope exception) h.filter (m.caught h exception) true m') :
      Takes scope exception thrownTy (h :: hs) m h (m.catching scope exception) m'
  | other {h hs m k inner m'} (hty : h.exceptionTy.isAssignableFrom thrownTy = false)
      (later : Takes scope exception thrownTy hs m k inner m') :
      Takes scope exception thrownTy (h :: hs) m k inner m'
  | declined {h hs m m₁ k inner m'} (hty : h.exceptionTy.isAssignableFrom thrownTy = true)
      (hfilter : FilterEnds H I (m.catching scope exception) h.filter (m.caught h exception) false m₁)
      (later : Takes scope exception thrownTy hs m₁ k inner m') :
      Takes scope exception thrownTy (h :: hs) m k inner m'

/-- The evaluation of a construct comes to the evaluation of one of its parts: the scope of the
construct, the construct, the machine before it, the last part that it has still to run; the
scope of the part, the part, and the machine before that. -/
inductive Enters : Scope → Expr → Machine σ → Option Expr → Scope → Expr → Machine σ → Prop
  | operand {scope e m before c after vs m'} (hshape : e.shape.operands = before ++ c :: after)
      (hbefore : EvaluatesAll H I scope before m (.ok vs, m')) :
      Enters scope e m none scope c m'
  | branch {scope e m test a b v t m'} (hshape : e.shape = .conditional test a b)
      (htest : Evaluates H I scope test m (.ok v, m')) (hbool : v.asBool? = some t) :
      Enters scope e m none scope (if t then a else b) m'
  /-- The right operand of `&&` after `true`, and of `||` after `false`. -/
  | second {scope e m op a b v m'} (hshape : e.shape = .binary op a b)
      (ha : Evaluates H I scope a m (.ok v, m'))
      (hv : op = .andAlso ∧ v.asBool? = some true ∨ op = .orElse ∧ v.asBool? = some false) :
      Enters scope e m none scope b m'
  | test {scope e m value arms arm arms' default comparer x m₁ m₂ before c after m'}
      (hshape : e.shape = .switch value (arms ++ arm :: arms') default comparer)
      (hvalue : Evaluates H I scope value m (.ok x, m₁))
      (harms : ArmsEnd H I scope comparer x arms m₁ (.ok none, m₂))
      (htests : arm.tests = before ++ c :: after)
      (hbefore : TestsEnd H I scope comparer x before m₂ (.ok false, m')) :
      Enters scope e m none scope c m'
  | arm {scope e m value arms default comparer x m₁ chosen body m'}
      (hshape : e.shape = .switch value arms default comparer)
      (hvalue : Evaluates H I scope value m (.ok x, m₁))
      (harms : ArmsEnd H I scope comparer x arms m₁ (.ok chosen, m'))
      (hbody : (chosen <|> default) = some body) :
      Enters scope e m none scope body m'
  | statement {scope e m locals body c rest m'} (hshape : e.shape = .block locals body)
      (hcomes : BodyComes H I (scope.extended m.store.frames.size none) body body
        { m with store := m.store.opened (locals.map fun p => (p, .default p.ty)) } (c :: rest) m') :
      Enters scope e m none (scope.extended m.store.frames.size none) c m'
  | round {scope e m body breakLabel continueLabel m'}
      (hshape : e.shape = .loop body breakLabel continueLabel)
      (hcomes : LoopComes H I scope body breakLabel continueLabel m m') :
      Enters scope e m none scope body m'
  | guarded {scope e m body handlers cleanup} (hshape : e.shape = .guarded body handlers cleanup) :
      Enters scope e m cleanup scope body m
  | clause {scope e m body handlers cleanup exception thrownTy m₁ h inner m'}
      (hshape : e.shape = .guarded body handlers cleanup)
      (hbody : Evaluates H I scope body m (.error (.throw exception), m₁))
      (hty : exception.runtimeTy? = some thrownTy)
      (htakes : Takes H I scope exception thrownTy handlers m₁ h inner m') :
      Enters scope e m cleanup inner h.body m'
  /-- The last part itself, after the region would have ended without it. -/
  | last {scope e m id body handlers c ty r m'} (he : e = .mk id (.guarded body handlers (some c)) ty)
      (hregion : Evaluates H I scope (.mk id (.guarded body handlers none) ty) m (r, m')) :
      Enters scope e m none scope c m'

/-- A construct that stands around a node. -/
structure Surrounding where
  scope : Scope
  tree : Expr
  /-- What is still to run when the construct is left. -/
  last : Option Expr

/-- The evaluation of a tree comes to the evaluation of a node in it. The constructs around the
node are listed innermost first. -/
inductive Reaches :
    Scope → Expr → Machine σ → List Surrounding → Scope → Expr → Machine σ → Prop
  | here (scope : Scope) (e : Expr) (m : Machine σ) : Reaches scope e m [] scope e m
  | into {scope e m last inner c m₁ path scope' g m'} (first : Enters H I scope e m last inner c m₁)
      (rest : Reaches inner c m₁ path scope' g m') :
      Reaches scope e m (path ++ [⟨scope, e, last⟩]) scope' g m'

/-- A last part ends normally, or there is none. -/
def Concludes (scope : Scope) : Option Expr → Machine σ → Machine σ → Prop
  | none, m, m' => m' = m
  | some last, m, m' => ∃ v, Evaluates H I scope last m (.ok v, m')

/-- The last parts of constructs end normally, one after another. -/
inductive Unwinds : List Surrounding → Machine σ → Machine σ → Prop
  | nil (m : Machine σ) : Unwinds [] m m
  | cons {s path m m₁ m'} (first : Concludes H I s.scope s.last m m₁) (rest : Unwinds path m₁ m') :
      Unwinds (s :: path) m m'

variable {H I}

theorem Unwinds.of_append {path path' : List Surrounding} {m m' : Machine σ}
    (h : Unwinds H I (path ++ path') m m') :
    ∃ m₁, Unwinds H I path m m₁ ∧ Unwinds H I path' m₁ m' := by
  induction path generalizing m with
  | nil => exact ⟨m, .nil m, h⟩
  | cons s path ih =>
    cases h with
    | cons first rest =>
      obtain ⟨m₁, hpath, hpath'⟩ := ih rest
      exact ⟨m₁, .cons first hpath, hpath'⟩

end Coming

/-! ## One construct -/

section Constructs

variable {H : Host σ} {I : Interp} {scope : Scope} {e : Expr} {m : Machine σ}

theorem expectBool_of {v : Value} {b : Bool} (h : v.asBool? = some b) :
    (expectBool v : Run σ Bool) = pure b := by
  unfold expectBool
  rw [h]

/-- A body looks for a label among its own statements. -/
theorem afterLabel?_eq_none {l : Label} {body : List Expr} (h : body.any (·.marks l) = false) :
    afterLabel? l body = none := by
  induction body with
  | nil => rfl
  | cons a body ih =>
    rw [List.any_cons, Bool.or_eq_false_iff] at h
    have ha : a.label?.any (· == l) = false := h.1
    rw [Setting.afterLabel?_cons, ha]
    exact ih h.2

/-- It takes the first of them that marks the label. -/
theorem afterLabel?_eq_some {l : Label} {body : List Expr} (h : body.any (·.marks l) = true) :
    ∃ before mark rest, body = before ++ mark :: rest ∧ mark.marks l = true ∧
      (∀ a ∈ before, a.marks l = false) ∧ afterLabel? l body = some rest := by
  induction body with
  | nil => cases h
  | cons a body ih =>
    cases ha : a.marks l with
    | true =>
      refine ⟨[], a, body, rfl, ha, List.forall_mem_nil _, ?_⟩
      have ha : a.label?.any (· == l) = true := ha
      rw [Setting.afterLabel?_cons, if_pos ha]
    | false =>
      rw [List.any_cons, ha, Bool.false_or] at h
      obtain ⟨before, mark, rest, rfl, hmark, hbefore, hafter⟩ := ih h
      refine ⟨a :: before, mark, rest, rfl, hmark, List.forall_mem_cons.mpr ⟨ha, hbefore⟩, ?_⟩
      have ha : ¬(a.label?.any (· == l) = true) := Bool.eq_false_iff.mp ha
      rw [Setting.afterLabel?_cons, if_neg ha]
      exact hafter

/-- A body ends as what it comes to. -/
theorem BodyComes.ends {body rest rest' : List Expr} {c : Expr} {m' : Machine σ}
    {y : Except Exit Value × Machine σ}
    (h : BodyComes H I scope body rest m (c :: rest') m') (last last' : Value) :
    BodyEnds H I scope body rest last m y ↔ BodyEnds H I scope body (c :: rest') last' m' y := by
  generalize hcs : c :: rest' = cs at h
  induction h generalizing last with
  | here =>
    subst hcs
    -- the value of the statement before plays no part
    have hlast : ∀ n k, runBody (eval H n I scope) body k (c :: rest') last =
        runBody (eval H n I scope) body k (c :: rest') last' := by
      intro n k
      cases k with
      | zero => rfl
      | succ k => rfl
    simp only [BodyEnds, hlast]
  | next h _ ih => exact (bodyEnds_of_ok h).trans (ih _ hcs)
  | resumed h hafter _ ih => exact (bodyEnds_of_jump h hafter).trans (ih _ hcs)

/-- A loop ends as it does from any of its rounds on. -/
theorem LoopComes.evaluates {body : Expr} {breakLabel continueLabel : Option Label}
    (hshape : e.shape = .loop body breakLabel continueLabel) {m' : Machine σ}
    {y : Except Exit Value × Machine σ}
    (h : LoopComes H I scope body breakLabel continueLabel m m') :
    Evaluates H I scope e m y ↔ Evaluates H I scope e m' y := by
  induction h with
  | here => exact Iff.rfl
  | @next r _ _ _ h hr _ ih =>
    refine (evaluates_loop_again hshape h fun exit hexit => ?_).trans ih
    subst hexit
    cases exit with
    | throw v => exact absurd hr id
    | jump l v => exact ⟨l, v, rfl, hr⟩
    | fault f => exact absurd hr id

theorem matchesSome_append {ev : Expr → Run σ Value} {accept : Value → Run σ Bool}
    {before tests : List Expr} {m₁ : Machine σ}
    (h : (matchesSome ev accept before).run m = some (.ok false, m₁)) :
    (matchesSome ev accept (before ++ tests)).run m = (matchesSome ev accept tests).run m₁ := by
  induction before generalizing m with
  | nil =>
    cases h
    rfl
  | cons a before ih =>
    obtain ⟨v, m₂, ha, hrest⟩ := ok_of_run_bind h
    obtain ⟨b, m₃, haccept, hmore⟩ := ok_of_run_bind hrest
    rw [List.cons_append, matchesSome, run_bind_of_ok ha, run_bind_of_ok haccept]
    cases b with
    | true => cases hmore
    | false => exact ih hmore

theorem selectCase_append {ev : Expr → Run σ Value} {accept : Value → Run σ Bool}
    {before arms : List (Case Expr)} {m₁ : Machine σ}
    (h : (selectCase ev accept before).run m = some (.ok none, m₁)) :
    (selectCase ev accept (before ++ arms)).run m = (selectCase ev accept arms).run m₁ := by
  induction before generalizing m with
  | nil =>
    cases h
    rfl
  | cons c before ih =>
    obtain ⟨b, m₂, htests, hmore⟩ := ok_of_run_bind h
    rw [List.cons_append, selectCase, run_bind_of_ok htests]
    cases b with
    | true => cases hmore
    | false => exact ih hmore

theorem TestsEnd.eventually {comparer : Option Method} {scrutinee : Value} {tests : List Expr}
    {y : Except Exit Bool × Machine σ} (h : TestsEnd H I scope comparer scrutinee tests m y) :
    ∀ᶠ n in atTop, (matchesSome (eval H n I scope) (accepts H (engine H n) comparer scrutinee)
      tests).run m = some y :=
  Ends.eventually (grows_matchesSome H I scope comparer scrutinee tests) h

theorem ArmsEnd.eventually {comparer : Option Method} {scrutinee : Value} {arms : List (Case Expr)}
    {y : Except Exit (Option Expr) × Machine σ} (h : ArmsEnd H I scope comparer scrutinee arms m y) :
    ∀ᶠ n in atTop, (selectCase (eval H n I scope) (accepts H (engine H n) comparer scrutinee)
      arms).run m = some y :=
  Ends.eventually (grows_selectCase H I scope comparer scrutinee arms) h

/-- The clause that takes an exception runs its body. -/
theorem Takes.run {exception : Value} {thrownTy : Ty} {hs : List (Handler Expr)} {h : Handler Expr}
    {inner : Scope} {m' : Machine σ} (htakes : Takes H I scope exception thrownTy hs m h inner m') :
    ∀ᶠ n in atTop, (runHandlers (eval H n I) scope exception thrownTy hs).run m =
      (eval H n I inner h.body).run m' := by
  -- going into the scope of a clause
  have hopened : ∀ n (h : Handler Expr) hs (m : Machine σ),
      h.exceptionTy.isAssignableFrom thrownTy = true →
      (runHandlers (eval H n I) scope exception thrownTy (h :: hs)).run m =
        (filterAccepts (eval H n I (m.catching scope exception)) h.filter >>= fun accepted =>
          if accepted then eval H n I (m.catching scope exception) h.body
          else runHandlers (eval H n I) scope exception thrownTy hs).run (m.caught h exception) := by
    intro n h hs m hty
    rw [runHandlers, if_pos hty]
    exact Lockstep.opening_run scope (some exception) _ _ m
  induction htakes with
  | @here h hs m m' hty hfilter =>
    filter_upwards [Ends.eventually (grows_filterAccepts H I _ h.filter) hfilter] with n hn
    rw [hopened n h hs m hty, run_bind_of_ok hn]
    rfl
  | other hty _ ih =>
    filter_upwards [ih] with n hn
    rw [runHandlers, hty]
    exact hn
  | @declined h hs m m₁ _ _ _ hty hfilter _ ih =>
    filter_upwards [Ends.eventually (grows_filterAccepts H I _ h.filter) hfilter, ih] with n hn hrest
    rw [hopened n h hs m hty, run_bind_of_ok hn]
    exact hrest

/-- What a region has come to before its last part. -/
def regionOutcome (ev : Scope → Expr → Run σ Value) (scope : Scope) (body : Expr)
    (handlers : List (Handler Expr)) : Run σ (Except Exit Value) := do
  match ← Run.step (ev scope body).run with
  | .error (.throw exception) =>
    match exception.runtimeTy? with
    | some thrownTy => Run.step (runHandlers ev scope exception thrownTy handlers).run
    | none => pure (.error (.throw exception))
  | outcome => pure outcome

theorem evalGuarded_eq (ev : Scope → Expr → Run σ Value) (scope : Scope) (ty : Ty) (body : Expr)
    (handlers : List (Handler Expr)) (cleanup : Option Expr) :
    evalGuarded ev scope ty body handlers cleanup =
      regionOutcome ev scope body handlers >>= Setting.concluded (ev scope) ty cleanup := by
  unfold evalGuarded regionOutcome
  rw [bind_assoc]
  refine congrArg _ (funext fun r => ?_)
  cases r with
  | ok v => rfl
  | error exit =>
    cases exit with
    | throw exception =>
      dsimp only
      cases exception.runtimeTy? <;> rfl
    | jump l v => rfl
    | fault f => rfl

/-- Before its last part, a region does not leave early. -/
theorem regionOutcome_ok {ev : Scope → Expr → Run σ Value} {body : Expr}
    {handlers : List (Handler Expr)} {r : Except Exit (Except Exit Value)} {m' : Machine σ}
    (h : (regionOutcome ev scope body handlers).run m = some (r, m')) : ∃ r', r = .ok r' := by
  unfold regionOutcome at h
  rw [run_held_bind] at h
  obtain ⟨⟨o, m₁⟩, -, h⟩ := Option.bind_eq_some_iff.mp h
  cases o with
  | ok v =>
    cases h
    exact ⟨_, rfl⟩
  | error exit =>
    cases exit with
    | throw exception =>
      dsimp only at h
      split at h
      · obtain ⟨⟨o, m₂⟩, -, h⟩ := Option.bind_eq_some_iff.mp h
        cases h
        exact ⟨_, rfl⟩
      · cases h
        exact ⟨_, rfl⟩
    | jump l v =>
      cases h
      exact ⟨_, rfl⟩
    | fault f =>
      cases h
      exact ⟨_, rfl⟩

/-- The last part of a region that is left. -/
theorem Concludes.run {cleanup : Option Expr} {m' : Machine σ}
    (h : Concludes H I scope cleanup m m') (ty : Ty) (exit : Exit) :
    ∀ᶠ n in atTop, (Setting.concluded (eval H n I scope) ty cleanup (.error exit)).run m =
      some (.error exit, m') := by
  cases cleanup with
  | none =>
    obtain rfl : m' = m := h
    exact .of_forall fun _ => rfl
  | some last =>
    obtain ⟨v, hv⟩ := h
    filter_upwards [hv.eventually] with n hn
    show (eval H n I scope last >>= _).run m = _
    rw [run_bind_of_ok hn]
    rfl

/-- The last part of a region that is left early runs after the rest. -/
theorem guarded_run {body : Expr} {handlers : List (Handler Expr)} {cleanup : Option Expr}
    (hshape : e.shape = .guarded body handlers cleanup) {exit : Exit} {m₁ m' : Machine σ}
    (hregion : ∀ᶠ n in atTop, (regionOutcome (eval H n I) scope body handlers).run m =
      some (.ok (.error exit), m₁))
    (hlast : Concludes H I scope cleanup m₁ m') : Evaluates H I scope e m (.error exit, m') := by
  rw [evaluates_iff]
  obtain ⟨n, hn, hlast⟩ := (hregion.and (hlast.run e.ty exit)).exists
  refine ⟨n, ?_⟩
  unfold evalNode
  rw [hshape]
  show (evalGuarded (eval H n I) scope e.ty body handlers cleanup).run m = _
  rw [evalGuarded_eq, run_bind_of_ok hn]
  exact hlast

/-- An exit that a construct lets pass leaves it once the last part has run. -/
theorem Enters.passes {last : Option Expr} {inner : Scope} {c : Expr} {m₁ m₂ m₃ : Machine σ}
    {exit : Exit} (h : Enters H I scope e m last inner c m₁)
    (hc : Evaluates H I inner c m₁ (.error exit, m₂)) (hpass : exit.Passes e)
    (hlast : Concludes H I scope last m₂ m₃) : Evaluates H I scope e m (.error exit, m₃) := by
  cases h with
  | operand hshape hbefore =>
    obtain rfl : m₃ = m₂ := hlast
    have hall : EvaluatesAll H I scope e.shape.operands m (.error exit, m₃) := by
      rw [hshape]
      exact hbefore.append (EvaluatesAll.of_error hc _)
    obtain ⟨n, hn⟩ := hall
    obtain ⟨rest, hnode⟩ := evalNode_operands H (engine H n) I scope e
    exact evaluates_iff.mpr ⟨n, by rw [hnode]; exact run_bind_of_error hn⟩
  | @branch _ _ _ _ t _ hshape htest hbool =>
    obtain rfl : m₃ = m₂ := hlast
    obtain ⟨n, ht, hc⟩ := (htest.eventually.and hc.eventually).exists
    refine evaluates_iff.mpr ⟨n, ?_⟩
    unfold evalNode
    rw [hshape]
    refine (run_bind_of_ok ht).trans ?_
    dsimp only
    rw [expectBool_of hbool, pure_bind]
    cases t with
    | true => exact run_bind_of_error hc
    | false => exact run_bind_of_error hc
  | second hshape ha hv =>
    obtain rfl : m₃ = m₂ := hlast
    obtain ⟨n, ha, hc⟩ := (ha.eventually.and hc.eventually).exists
    refine evaluates_iff.mpr ⟨n, ?_⟩
    unfold evalNode
    rw [hshape]
    refine (run_bind_of_ok ha).trans ?_
    rcases hv with ⟨rfl, hv⟩ | ⟨rfl, hv⟩
    · dsimp only
      rw [expectBool_of hv, pure_bind]
      exact run_bind_of_error hc
    · dsimp only
      rw [expectBool_of hv, pure_bind]
      exact run_bind_of_error hc
  | test hshape hvalue harms htests hbefore =>
    obtain rfl : m₃ = m₂ := hlast
    obtain ⟨n, ⟨⟨hvalue, harms⟩, hbefore⟩, hc⟩ := (((hvalue.eventually.and harms.eventually).and
      hbefore.eventually).and hc.eventually).exists
    refine evaluates_iff.mpr ⟨n, ?_⟩
    unfold evalNode
    rw [hshape]
    refine (run_bind_of_ok hvalue).trans ?_
    refine run_bind_of_error ((selectCase_append harms).trans ?_)
    rw [selectCase, htests]
    exact run_bind_of_error ((matchesSome_append hbefore).trans (run_bind_of_error hc))
  | arm hshape hvalue harms hbody =>
    obtain rfl : m₃ = m₂ := hlast
    obtain ⟨n, ⟨hvalue, harms⟩, hc⟩ := ((hvalue.eventually.and harms.eventually).and
      hc.eventually).exists
    refine evaluates_iff.mpr ⟨n, ?_⟩
    unfold evalNode
    rw [hshape]
    refine (run_bind_of_ok hvalue).trans ((run_bind_of_ok harms).trans ?_)
    rw [hbody]
    exact run_bind_of_error hc
  | statement hshape hcomes =>
    obtain rfl : m₃ = m₂ := hlast
    refine (evaluates_block hshape).mpr ⟨.error exit, ?_, rfl⟩
    refine (hcomes.ends .void .void).mpr ((bodyEnds_of_exit hc fun l v hexit => ?_).mpr rfl)
    subst hexit
    refine afterLabel?_eq_none ?_
    simpa only [Exit.Passes, Expr.owns, hshape] using hpass
  | round hshape hcomes =>
    obtain rfl : m₃ = m₂ := hlast
    refine (hcomes.evaluates hshape).mpr (evaluates_loop_exit hshape hc fun l v hexit => ?_)
    subst hexit
    simpa only [Exit.Passes, Expr.owns, hshape, Bool.or_eq_false_iff] using hpass
  | guarded hshape =>
    refine guarded_run hshape ?_ hlast
    filter_upwards [hc.eventually] with n hc
    unfold regionOutcome
    rw [run_held_bind_of_some hc]
    cases exit with
    | throw v => exact absurd hpass id
    | jump l v => rfl
    | fault f => rfl
  | clause hshape hbody hty htakes =>
    refine guarded_run hshape ?_ hlast
    filter_upwards [hbody.eventually, htakes.run, hc.eventually] with n hbody htakes hc
    unfold regionOutcome
    rw [run_held_bind_of_some hbody]
    dsimp only
    rw [hty]
    rw [hc] at htakes
    exact run_held_of_some htakes
  | @last id body handlers _ ty r _ he hregion =>
    obtain rfl : m₃ = m₂ := hlast
    subst he
    obtain ⟨n, hregion, hc⟩ := (hregion.node.and hc.eventually).exists
    -- the region without its last part shows what it has come to
    have hrun : (evalGuarded (eval H n I) scope ty body handlers none).run m = some (r, m₁) := hregion
    rw [evalGuarded_eq, run_bind] at hrun
    obtain ⟨⟨o, m₄⟩, houtcome, hrun⟩ := Option.bind_eq_some_iff.mp hrun
    obtain ⟨o, rfl⟩ := regionOutcome_ok houtcome
    have hm : m₄ = m₁ := by
      cases o <;> cases hrun <;> rfl
    subst hm
    refine evaluates_iff.mpr ⟨n, ?_⟩
    show (evalGuarded (eval H n I) scope ty body handlers (some c)).run m = _
    rw [evalGuarded_eq, run_bind_of_ok houtcome]
    exact run_bind_of_error hc

/-- All constructs of a path let an exit pass. -/
theorem Reaches.passes {path : List Surrounding} {inner : Scope} {g : Expr} {m₁ m₂ m₃ : Machine σ}
    {exit : Exit} (h : Reaches H I scope e m path inner g m₁)
    (hg : Evaluates H I inner g m₁ (.error exit, m₂)) (hpass : ∀ s ∈ path, exit.Passes s.tree)
    (hlast : Unwinds H I path m₂ m₃) : Evaluates H I scope e m (.error exit, m₃) := by
  induction h generalizing m₃ with
  | here =>
    cases hlast
    exact hg
  | into first rest ih =>
    obtain ⟨k, hinner, houter⟩ := hlast.of_append
    cases houter with
    | cons hconcludes hnil =>
      cases hnil
      rw [List.forall_mem_append, List.forall_mem_singleton] at hpass
      exact first.passes (ih hg hpass.1 hinner) hpass.2 hconcludes

/-! ## Owners of labels -/

/-- What a construct does with a jump to one of its labels that leaves a part on the machine `m'`:
a block goes on after the first statement that marks the label, a loop ends with the value of the
jump or starts another round. -/
def Stops (H : Host σ) (I : Interp) (scope : Scope) (e : Expr) (m : Machine σ) (l : Label) (v : Value)
    (m' : Machine σ) : Prop :=
  match e.shape with
  | .block _ body =>
    ∃ before mark rest, body = before ++ mark :: rest ∧ mark.marks l = true ∧
      (∀ a ∈ before, a.marks l = false) ∧
      ∀ r k, Evaluates H I scope e m (r, k) ↔
        ∃ r', BodyEnds H I (scope.extended m.store.frames.size none) body rest v m' (r', k) ∧
          r = r'.map (settle e.ty)
  | .loop _ breakLabel _ =>
    if breakLabel == some l then Evaluates H I scope e m (.ok v, m')
    else ∀ y, Evaluates H I scope e m y ↔ Evaluates H I scope e m' y
  | _ => False

/-- A jump stops at the construct that owns its label. -/
theorem Enters.stops {last : Option Expr} {inner : Scope} {c : Expr} {m₁ m₂ : Machine σ}
    {l : Label} {v : Value} (h : Enters H I scope e m last inner c m₁)
    (hc : Evaluates H I inner c m₁ (.error (.jump l v), m₂)) (howns : e.owns l = true) :
    Stops H I scope e m l v m₂ := by
  unfold Expr.owns at howns
  unfold Stops
  cases h with
  | operand hshape _ =>
    -- blocks and loops have no operands
    exfalso
    cases hs : e.shape with
    | block locals body => simp [hs, Shape.operands] at hshape
    | loop body breakLabel continueLabel => simp [hs, Shape.operands] at hshape
    | _ => simp [hs] at howns
  | statement hshape hcomes =>
    rw [hshape] at howns ⊢
    obtain ⟨before, mark, rest, hbody, hmark, hbefore, hafter⟩ := afterLabel?_eq_some howns
    refine ⟨before, mark, rest, hbody, hmark, hbefore, fun r k => ?_⟩
    rw [evaluates_block hshape]
    refine exists_congr fun r' => and_congr_left' ?_
    exact (hcomes.ends .void .void).trans (bodyEnds_of_jump hc hafter)
  | round hshape hcomes =>
    rw [hshape] at howns ⊢
    dsimp only at howns ⊢
    split
    · rename_i hbreak
      exact (hcomes.evaluates hshape).mpr (evaluates_loop_break hshape hc hbreak)
    · rename_i hbreak
      have hbreak := Bool.eq_false_iff.mpr hbreak
      rw [hbreak, Bool.false_or] at howns
      refine fun y => (hcomes.evaluates hshape).trans (evaluates_loop_again hshape hc fun exit h => ?_)
      cases h
      exact ⟨l, v, rfl, hbreak, howns⟩
  | branch hshape | second hshape | test hshape | arm hshape | guarded hshape | clause hshape =>
    simp [hshape] at howns
  | last he =>
    subst he
    cases howns

end Constructs

/-! ## Ends of activations -/

section Activations

/-- A node invokes a closure: its operands have given the closure and the arguments. -/
def Calls (H : Host σ) (I : Interp) (scope : Scope) (e : Expr) (m : Machine σ) (c : Closure)
    (args : List Value) (m' : Machine σ) : Prop :=
  ∃ target operands index params ret m₁, e.shape = .invoke target operands ∧
    Evaluates H I scope target m (.ok (.func (.closure index) params ret), m₁) ∧
    EvaluatesAll H I scope operands m₁ (.ok args, m') ∧
    params.length = operands.length ∧ m'.closures[index]? = some c

/-- An activation ends in a fault, and it is a fault to all that called it. -/
structure Fails (H : Host σ) (c : Closure) (args : List Value) (m : Machine σ) (f : Fault)
    (m' : Machine σ) : Prop where
  ends : Activates H c args m (.error (.fault f), m')
  /-- To the user of a compiled lambda. -/
  escapes : Ends (fun n => finish H n (callClosure (engine H n) c args)) m
    (.error (.fault f), m')
  /-- To the constructs around a node that invokes the closure. None of them goes on, whichever
  labels they own. -/
  leaves : ∀ {I scope e m₀ path inner g k k'}, Reaches H I scope e m₀ path inner g k →
    Calls H I inner g k c args m → Unwinds H I path { m' with next := m'.next + 1 } k' →
    Evaluates H I scope e m₀ (.error (.fault f), k')

variable {H : Host σ} {I : Interp} {scope : Scope} {e : Expr} {m m₁ m' : Machine σ}
variable {c : Closure} {args : List Value} {f : Fault}

theorem Calls.fault (hcall : Calls H I scope e m c args m₁)
    (h : Activates H c args m₁ (.error (.fault f), m')) :
    Evaluates H I scope e m (.error (.fault f), { m' with next := m'.next + 1 }) := by
  obtain ⟨target, operands, index, params, ret, m₀, hshape, htarget, hargs, harity, hc⟩ := hcall
  exact (evaluates_invoke hshape htarget harity).mpr (.inr ⟨_, _, _, hargs, h.applies_fault hc, rfl⟩)

theorem Activates.fails (h : Activates H c args m (.error (.fault f), m')) :
    Fails H c args m f m' where
  ends := h
  escapes := (ends_finish_iff (grows_callClosure H c args)).mpr ⟨_, _, h, 0, rfl⟩
  leaves hreach hcall hlast := hreach.passes (hcall.fault h) (fun _ _ => trivial) hlast

/-- A jump that leaves the body of a closure ends the activation in a fault. -/
theorem fails_of_jump {inner : Scope} {m₂ : Machine σ} {l : Label} {v : Value}
    (hstart : c.Starts args m inner m₁)
    (hbody : Evaluates H c.interp inner c.body m₁ (.error (.jump l v), m₂)) :
    Fails H c args m (.unresolvedLabel l.displayName) (m₂.left c.interp) :=
  ((activates_iff hstart).mpr ⟨_, _, hbody, rfl, rfl⟩).fails

end Activations

/-! ## Jumps -/

section Jumps

variable {H : Host σ} {I : Interp} {scope : Scope} {e : Expr} {m : Machine σ}

/-- The value that a jump carries, and the machine that its operand leaves. -/
def Carries (H : Host σ) (I : Interp) (scope : Scope) (m : Machine σ) :
    Option Expr → Value → Machine σ → Prop
  | none, v, m' => v = .void ∧ m' = m
  | some operand, v, m' => Evaluates H I scope operand m (.ok v, m')

theorem evaluates_jump {kind : JumpKind} {l : Label} {value : Option Expr} {v : Value}
    {m' : Machine σ} (hshape : e.shape = .jump kind l value) (hvalue : Carries H I scope m value v m') :
    Evaluates H I scope e m (.error (.jump l v), m') := by
  rw [evaluates_iff]
  cases value with
  | none =>
    obtain ⟨rfl, rfl⟩ := hvalue
    refine ⟨0, ?_⟩
    unfold evalNode
    rw [hshape]
    rfl
  | some operand =>
    obtain ⟨n, hn⟩ := hvalue
    refine ⟨n, ?_⟩
    unfold evalNode
    rw [hshape]
    exact run_bind_of_ok hn

/-- How a jump unwinds. The evaluation of a tree comes to a jump whose operand gives the value
`v`; no construct between the tree and the jump owns the label, and the last parts between them
end normally, innermost first, one after another from the machine `m₂` that the operand leaves to
`m₃`. Then the tree is left with the jump on `m₃`: what else there is between the tree and the
jump does nothing. And

* a construct around the tree that owns the label stops the jump: a block goes on behind the
  first statement that marks the label, with `v` as its value so far, a loop ends with `v` or
  starts its next round;
* an activation whose body the tree is ends in a fault, which no construct of a caller stops;
* a tree that is evaluated for itself ends in a fault. -/
theorem jump_unwinds {path : List Surrounding} {inner : Scope} {g : Expr} {kind : JumpKind}
    {l : Label} {value : Option Expr} {v : Value} {m₁ m₂ m₃ : Machine σ}
    (hreach : Reaches H I scope e m path inner g m₁) (hjump : g.shape = .jump kind l value)
    (hvalue : Carries H I inner m₁ value v m₂) (hfree : ∀ s ∈ path, s.tree.owns l = false)
    (hlast : Unwinds H I path m₂ m₃) :
    Evaluates H I scope e m (.error (.jump l v), m₃) ∧
      (∀ {outer owner m₀ last}, Enters H I outer owner m₀ last scope e m → owner.owns l = true →
        Stops H I outer owner m₀ l v m₃) ∧
      (∀ {c args m₀}, Closure.Starts c args m₀ scope m → c.body = e → c.interp = I →
        Fails H c args m₀ (.unresolvedLabel l.displayName) (m₃.left I)) ∧
      Ends (fun n => finish H n (eval H n I scope e)) m
        (.error (.fault (.unresolvedLabel l.displayName)), m₃) := by
  have hleft : Evaluates H I scope e m (.error (.jump l v), m₃) :=
    hreach.passes (evaluates_jump hjump hvalue) hfree hlast
  refine ⟨hleft, fun henters howns => henters.stops hleft howns, ?_,
    (ends_finish_iff (grows_eval H I scope e)).mpr ⟨_, _, hleft, 0, rfl⟩⟩
  intro c args m₀ hstart hbody hinterp
  subst hbody hinterp
  exact fails_of_jump hstart hleft

end Jumps

namespace Sample

/-- A host that writes down which code it ran. -/
def noting : Host (List CodeId) where
  run code _ _ := .read fun log => .write (log ++ [code]) (.done (.ok .void))
  get _ _ _ := .done (.ok .null)
  invoke _ _ _ _ := .done (.ok .null)

/-- A call of host code. -/
def note (id : Nat) (code : CodeId) : Expr :=
  .mk id (.call none (.static "note" .object [] .void code) []) .void

/-- Where the jump goes. -/
def done : Label := ⟨1, some "done", .int⟩

/-- A jump that carries a number. -/
def jumpNode : Expr := .mk 3 (.jump .goto done (some (.mk 2 (.constant (.int 7)) .int))) .void

/-- The jump in the place of an operand. -/
def negatedJump : Expr := .mk 4 (.unary .negate jumpNode) .int

/-- A region that the jump leaves. -/
def leftRegion : Expr := .mk 6 (.guarded negatedJump [] (some (note 5 1))) .int

/-- The second statement is skipped. -/
def skippingBlock : Expr :=
  .mk 9 (.block [] [leftRegion, note 7 2, .mk 8 (.label done none) .int]) .int

/-- A machine without frames, with as many activations in progress. -/
def noted (depth : Nat) : Machine (List CodeId) := ⟨10, .empty, #[], #[depth], []⟩

/-- A machine with an empty frame and one activation in progress, on which host code has run as
listed. -/
def framed (log : List CodeId) : Machine (List CodeId) := ⟨10, ⟨#[[]]⟩, #[], #[1], log⟩

end Sample

open Sample in
/-- The jump leaves the negation and then the region, whose last part runs once; the block goes on
behind the label; and the region as the body of a closure ends it in a fault. -/
theorem negated_jump_unwinds :
    Evaluates noting ⟨0, 8⟩ ⟨[⟨0, none⟩]⟩ leftRegion (framed [])
        (.error (.jump done (.int 7)), framed [1]) ∧
      Stops noting ⟨0, 8⟩ ⟨[]⟩ skippingBlock (noted 1) done (.int 7) (framed [1]) ∧
      Evaluates noting ⟨0, 8⟩ ⟨[]⟩ skippingBlock (noted 1) (.ok (.int 7), framed [1]) ∧
      ∃ m', Fails noting ⟨[], leftRegion, .int, ⟨[]⟩, ⟨0, 8⟩⟩ [] (noted 0)
        (.unresolvedLabel "done#1") m' ∧ m'.host = [1] := by
  have hoperand : Enters noting ⟨0, 8⟩ ⟨[⟨0, none⟩]⟩ negatedJump (framed []) none ⟨[⟨0, none⟩]⟩
      jumpNode (framed []) := by
    have hshape : negatedJump.shape.operands = [] ++ jumpNode :: [] := rfl
    exact .operand hshape (evaluatesAll_nil.mpr rfl)
  have hreach : Reaches noting ⟨0, 8⟩ ⟨[⟨0, none⟩]⟩ leftRegion (framed [])
      ([⟨⟨[⟨0, none⟩]⟩, negatedJump, none⟩] ++ [⟨⟨[⟨0, none⟩]⟩, leftRegion, some (note 5 1)⟩])
      ⟨[⟨0, none⟩]⟩ jumpNode (framed []) :=
    .into (.guarded rfl) (.into hoperand (.here _ _ _))
  have hlast : Concludes noting ⟨0, 8⟩ ⟨[⟨0, none⟩]⟩ (some (note 5 1)) (framed []) (framed [1]) :=
    ⟨.void, 2, rfl⟩
  have hcarries : Carries noting ⟨0, 8⟩ ⟨[⟨0, none⟩]⟩ (framed []) (some (.mk 2 (.constant (.int 7)) .int))
      (.int 7) (framed []) := ⟨1, rfl⟩
  obtain ⟨hleft, hstops, hfails, -⟩ := jump_unwinds hreach rfl hcarries
    (by simp only [List.forall_mem_append, List.forall_mem_singleton]; exact ⟨rfl, rfl⟩)
    (.cons rfl (.cons hlast (.nil _)))
  refine ⟨hleft, hstops (.statement rfl (.here _ _)) rfl, ⟨5, rfl⟩, ?_⟩
  exact ⟨_, hfails ⟨by decide, rfl, rfl, rfl⟩ rfl rfl, rfl⟩

end CodeTree
