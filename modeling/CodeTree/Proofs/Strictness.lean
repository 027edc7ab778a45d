import CodeTree.Proofs.Fuel

/-!
# Nodes that evaluate all their children first

A node is strict if it evaluates all its children, in its own scope, before it does anything
itself (`Shape.isStrict`). What it then does is its effect on their values (`takeEffect`), which
is told by the node without its children (`Expr.bare`) and an engine that evaluates nothing
(`Engine.muted`): it may run host code and call closures, and evaluates no child again.

* `evalNode_of_isStrict` — a strict node is its children from left to right, and then its effect;
* `evaluates_iff_of_isStrict` — without fuel: a child leaves early, or the effect ends it;
* `evaluates_iff_takesEffect`, `evaluates_iff_eq` — once the children have given values, the
  effect decides.
-/

namespace CodeTree

open Filter (atTop)

variable {σ : Type}

/-! ## Strict nodes and their effects -/

/-- Whether a node evaluates all its children before it does anything itself. A static method has no
receiver, so that one that is given to it is not evaluated. -/
def Shape.isStrict {ν α : Type} : Shape ν α → Bool
  | .call receiver method _ => !(method.isStatic && receiver.isSome)
  | .member target _ => target.isSome
  | .binary op _ _ =>
    match op with
    | .andAlso | .orElse => false
    | _ => true
  | .construct .. | .invoke .. | .convert .. | .typeIs .. | .unary .. | .assign .. | .await _
  | .newArray .. | .throw _ | .jump .. => true
  | _ => false

/-- A node without its children. -/
def Expr.bare (e : Expr) : Shape Value Unit := e.shape.map fun _ => ()

/-- An engine that calls callables and evaluates nothing. -/
def Engine.muted (E : Engine σ) : Engine σ := ⟨0, fun _ _ _ => .step .outOfFuel, E.apply⟩

/-- What a strict node of type `ty` does with the values of its children. -/
def takeEffect (H : Host σ) (E : Engine σ) (scope : Scope) (ty : Ty) (s : Shape Value Unit)
    (vs : List Value) : Run σ Value :=
  match s, vs with
  | .call (some _) method _, self :: args => dispatch H E method (some self) args
  | .call none method _, args => dispatch H E method none args
  | .construct ctor _, args => runScript E (H.run ctor.code none args)
  | .invoke _ _, callee :: args => invokeValue E callee args
  | .member _ read, [v] => readMember H E read v
  | .convert kind _, [v] =>
    match convert kind v ty with
    | .ok v => pure v
    | .error failure => .raise failure.cls failure.message
  | .typeIs _ testTy, [v] => pure (.bool (v.isInstance testTy))
  | .unary op _, [v] => Setting.computed (op.apply v)
  | .binary op _ _, [l, r] => Setting.computed (op.apply l r)
  | .assign target _, [v] => do
    if ← Run.step (Step.assign scope target v) then pure v
    else .fault (.unboundParameter target.displayName)
  | .await _, [v] => awaitValue v
  | .newArray elem _, items => do
    let id ← Run.step Step.fresh
    pure (.array id elem items)
  | .throw none, _ =>
    match scope.currentException? with
    | some v => throwValue v
    | none => .fault (.unsupported "rethrow outside a catch clause")
  | .throw (some _), [v] => throwValue v
  | .jump _ target none, _ => throw (.jump target .void)
  | .jump _ target (some _), [v] => throw (.jump target v)
  | _, _ => pure .void

/-- A strict node evaluates its children from left to right, and then takes effect. -/
theorem evalNode_of_isStrict (H : Host σ) (E : Engine σ) (I : Interp) (scope : Scope) {e : Expr}
    (hstrict : e.shape.isStrict = true) :
    evalNode H E I scope e =
      evalAll (E.eval I scope) e.children >>= takeEffect H E.muted scope e.ty e.bare := by
  have hone : ∀ (a : Expr) (s : Shape Value Unit),
      (E.eval I scope a >>= fun v => takeEffect H E.muted scope e.ty s [v]) =
        evalAll (E.eval I scope) [a] >>= takeEffect H E.muted scope e.ty s := by
    intro a s
    simp [evalAll]
  unfold evalNode Expr.bare Expr.children
  cases hs : e.shape with
  | call receiver method args =>
    cases receiver with
    | none => rfl
    | some r =>
      have hstatic : method.isStatic = false := by simpa [hs, Shape.isStrict] using hstrict
      simp [Shape.children, hstatic, evalAll]
      rfl
  | construct ctor args => rfl
  | invoke target args =>
    simp [Shape.children, evalAll]
    rfl
  | member target read =>
    cases target with
    | some target => exact hone target (.member (some ()) read)
    | none => simp [hs, Shape.isStrict] at hstrict
  | convert kind a => exact hone a (.convert kind ())
  | typeIs a testTy => exact hone a (.typeIs () testTy)
  | unary op a => exact hone a (.unary op ())
  | binary op a b =>
    have hne : op ≠ .andAlso ∧ op ≠ .orElse := by
      cases op <;> simp_all [Shape.isStrict]
    refine (Setting.evalBinary_of_ne hne.1 hne.2 (E.eval I scope) a b).trans ?_
    simp [Shape.children, evalAll]
    rfl
  | assign target a => exact hone a (.assign target ())
  | await a => exact hone a (.await ())
  | newArray elem items => rfl
  | throw value =>
    cases value with
    | some value => exact hone value (.throw (some ()))
    | none => rfl
  | jump kind target value =>
    cases value with
    | some value => exact hone value (.jump kind target (some ()))
    | none => rfl
  | _ => simp [hs, Shape.isStrict] at hstrict

/-! ## Without fuel -/

section Evaluations

variable {H : Host σ} {I : Interp} {scope : Scope} {e : Expr} {m : Machine σ}

/-- What a strict node ends with when its children have given these values. -/
def TakesEffect (H : Host σ) (scope : Scope) (e : Expr) (vs : List Value) (m : Machine σ)
    (y : Except Exit Value × Machine σ) : Prop :=
  Ends (fun n => (takeEffect H (engine H n).muted scope e.ty e.bare vs).run) m y

/-- An action on which engines that go in step agree. -/
theorem grows_of_runs {α : Type} (H : Host σ) {x : Engine σ → Run σ α}
    (h : ∀ d E₁ E₂, exact.Engines d E₁ E₂ → exact.Runs d ⟨⟩ Eq (x E₁) (x E₂)) :
    Grows fun n => (x (engine H n)).run :=
  fun _ _ hn _ _ => eq_some_of_runs fun d => h d _ _ (exact_engines H hn d)

theorem grows_takeEffect (H : Host σ) (scope : Scope) (ty : Ty) (s : Shape Value Unit)
    (vs : List Value) : Grows fun n => (takeEffect H (engine H n).muted scope ty s vs).run := by
  unfold takeEffect
  split
  · exact grows_of_runs H fun _ _ _ hE => Lockstep.Runs.dispatch hE H _ _ _
  · exact grows_of_runs H fun _ _ _ hE => Lockstep.Runs.dispatch hE H _ _ _
  · exact grows_of_runs H fun _ _ _ hE => Lockstep.Runs.runScript hE _
  · exact grows_of_runs H fun _ _ _ hE => Lockstep.Runs.invokeValue hE _ _
  · exact grows_of_runs H fun _ _ _ hE => Lockstep.Runs.readMember hE H _ _
  -- the others ask the engine for nothing
  all_goals exact grows_const _

/-- A strict node ends as the first child that leaves early, or else by its effect. -/
theorem evaluates_iff_of_isStrict (hstrict : e.shape.isStrict = true) {r : Except Exit Value}
    {m' : Machine σ} :
    Evaluates H I scope e m (r, m') ↔
      (∃ exit, EvaluatesAll H I scope e.children m (.error exit, m') ∧ r = .error exit) ∨
      ∃ vs m₁, EvaluatesAll H I scope e.children m (.ok vs, m₁) ∧
        TakesEffect H scope e vs m₁ (r, m') := by
  rw [evaluates_iff]
  simp only [evalNode_of_isStrict H _ I scope hstrict]
  exact ends_run_bind_iff (grows_evalAll H I scope e.children)
    fun vs => grows_takeEffect H scope e.ty e.bare vs

/-- A strict node whose children have given values ends by its effect. -/
theorem evaluates_iff_takesEffect (hstrict : e.shape.isStrict = true) {vs : List Value}
    {m₁ : Machine σ} (h : EvaluatesAll H I scope e.children m (.ok vs, m₁))
    {y : Except Exit Value × Machine σ} :
    Evaluates H I scope e m y ↔ TakesEffect H scope e vs m₁ y := by
  obtain ⟨r, m'⟩ := y
  rw [evaluates_iff_of_isStrict hstrict]
  have hunique : ∀ z, EvaluatesAll H I scope e.children m z → z = (.ok vs, m₁) :=
    fun z hz => Ends.unique (grows_evalAll H I scope e.children) hz h
  constructor
  · rintro (⟨exit, hexit, -⟩ | ⟨vs', m₂, hvs, heffect⟩)
    · cases hunique _ hexit
    · cases hunique _ hvs
      exact heffect
  · intro heffect
    exact .inr ⟨vs, m₁, h, heffect⟩

/-- An effect that needs no fuel ends a strict node in one way only. -/
theorem evaluates_iff_eq (hstrict : e.shape.isStrict = true) {vs : List Value} {m₁ : Machine σ}
    (h : EvaluatesAll H I scope e.children m (.ok vs, m₁)) {y z : Except Exit Value × Machine σ}
    (heffect : ∀ n, (takeEffect H (engine H n).muted scope e.ty e.bare vs).run m₁ = some z) :
    Evaluates H I scope e m y ↔ y = z := by
  rw [evaluates_iff_takesEffect hstrict h]
  constructor
  · intro hy
    obtain ⟨n, hn⟩ := hy
    exact Option.some.inj (hn.symm.trans (heffect n))
  · intro hy
    subst hy
    exact ⟨0, heffect 0⟩

end Evaluations

end CodeTree
