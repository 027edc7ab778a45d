import CodeTree.Compile
import CodeTree.Proofs.Lockstep
import Mathlib.Order.Filter.AtTopBot.Basic

/-!
# Evaluations without their fuel

More fuel changes no answer (`Grows`), so that what an evaluation ends with is a relation
without fuel: `Ends x m y` says that the actions `x`, one for each amount of fuel, end with `y`
once there is enough of it. It has one answer at most (`Ends.unique`), and holds for all but
finitely many amounts of fuel (`Ends.eventually`), so that several evaluations can be run with
one amount.

* `ends_bind_iff`, `ends_run_bind_iff` — a sequence ends as its actions do, one after another;
* `Evaluates` — a tree in a scope; `Applies` — a callable;
* `BodyEnds` — the rest of a block's body, with one equation for each way in which its next
  statement ends;
* `evaluates_loop` — a loop is its first round and, unless that leaves it, the loop again.
-/

namespace CodeTree

open Filter (atTop eventually_atTop eventually_ge_atTop)

variable {σ : Type}

/-! ## Actions for every amount of fuel -/

section Ends

variable {α β : Type}

/-- More fuel changes no answer. -/
def Grows (x : Nat → Step σ α) : Prop :=
  ∀ n n', n ≤ n' → ∀ (m : Machine σ) y, x n m = some y → x n' m = some y

/-- What the actions end with, given enough fuel. -/
def Ends (x : Nat → Step σ α) (m : Machine σ) (y : α × Machine σ) : Prop := ∃ n, x n m = some y

theorem Ends.unique {x : Nat → Step σ α} (hx : Grows x) {m : Machine σ} {y z : α × Machine σ}
    (hy : Ends x m y) (hz : Ends x m z) : y = z := by
  obtain ⟨n, hn⟩ := hy
  obtain ⟨k, hk⟩ := hz
  have hn' := hx _ _ (Nat.le_max_left n k) m y hn
  rw [hx _ _ (Nat.le_max_right n k) m z hk] at hn'
  exact (Option.some.inj hn').symm

theorem Ends.eventually {x : Nat → Step σ α} (hx : Grows x) {m : Machine σ} {y : α × Machine σ}
    (h : Ends x m y) : ∀ᶠ n in atTop, x n m = some y := by
  obtain ⟨k, hk⟩ := h
  exact eventually_atTop.mpr ⟨k, fun n hn => hx k n hn m y hk⟩

theorem Ends.of_eventually {x : Nat → Step σ α} {m : Machine σ} {y : α × Machine σ}
    (h : ∀ᶠ n in atTop, x n m = some y) : Ends x m y :=
  h.exists

theorem grows_const (x : Step σ α) : Grows fun _ => x := fun _ _ _ _ _ h => h

section Sequences

variable {x : Nat → Step σ α} {f : Nat → α → Step σ β}

theorem Grows.bind (hx : Grows x) (hf : ∀ a, Grows fun n => f n a) :
    Grows fun n => x n >>= f n := by
  intro n n' hn m y h
  obtain ⟨⟨a, m₁⟩, hfirst, hrest⟩ := Option.bind_eq_some_iff.mp h
  exact Option.bind_eq_some_iff.mpr ⟨(a, m₁), hx n n' hn m _ hfirst, hf a n n' hn m₁ y hrest⟩

/-- A sequence ends as its second action does where the first one has ended. -/
theorem ends_bind_iff (hx : Grows x) (hf : ∀ a, Grows fun n => f n a) {m : Machine σ}
    {y : β × Machine σ} :
    Ends (fun n => x n >>= f n) m y ↔
      ∃ a m₁, Ends x m (a, m₁) ∧ Ends (fun n => f n a) m₁ y := by
  constructor
  · intro h
    obtain ⟨n, hn⟩ := h
    obtain ⟨⟨a, m₁⟩, hfirst, hrest⟩ := Option.bind_eq_some_iff.mp hn
    exact ⟨a, m₁, ⟨n, hfirst⟩, n, hrest⟩
  · intro h
    obtain ⟨a, m₁, hfirst, hrest⟩ := h
    obtain ⟨n, hfirst, hrest⟩ :=
      ((hfirst.eventually hx).and (hrest.eventually (hf a))).exists
    exact ⟨n, Option.bind_eq_some_iff.mpr ⟨(a, m₁), hfirst, hrest⟩⟩

end Sequences

section Exits

variable {x : Nat → Run σ α} {f : Nat → α → Run σ β}

theorem run_bind_eq (n : Nat) :
    (x n >>= f n).run = (x n).run >>= fun r => (Run.resume r >>= f n).run :=
  funext fun m => run_bind (x n) (f n) m

theorem grows_resume_bind (hf : ∀ a, Grows fun n => (f n a).run) (r : Except Exit α) :
    Grows fun n => (Run.resume r >>= f n).run := by
  cases r with
  | ok a => exact hf a
  | error exit => exact grows_const _

theorem Grows.run_bind (hx : Grows fun n => (x n).run) (hf : ∀ a, Grows fun n => (f n a).run) :
    Grows fun n => (x n >>= f n).run := by
  simp only [run_bind_eq]
  exact hx.bind (grows_resume_bind hf)

/-- A sequence ends where its first action leaves early, or as its second one does. -/
theorem ends_run_bind_iff (hx : Grows fun n => (x n).run) (hf : ∀ a, Grows fun n => (f n a).run)
    {m m' : Machine σ} {r : Except Exit β} :
    Ends (fun n => (x n >>= f n).run) m (r, m') ↔
      (∃ exit, Ends (fun n => (x n).run) m (.error exit, m') ∧ r = .error exit) ∨
      ∃ a m₁, Ends (fun n => (x n).run) m (.ok a, m₁) ∧
        Ends (fun n => (f n a).run) m₁ (r, m') := by
  simp only [run_bind_eq]
  rw [ends_bind_iff hx (grows_resume_bind hf)]
  constructor
  · intro h
    obtain ⟨first, m₁, hfirst, hrest⟩ := h
    cases first with
    | error exit =>
      obtain ⟨n, hn⟩ := hrest
      cases hn
      exact .inl ⟨exit, hfirst, rfl⟩
    | ok a => exact .inr ⟨a, m₁, hfirst, hrest⟩
  · rintro (⟨exit, hfirst, rfl⟩ | ⟨a, m₁, hfirst, hrest⟩)
    · exact ⟨.error exit, m', hfirst, 0, rfl⟩
    · exact ⟨.ok a, m₁, hfirst, hrest⟩

end Exits

end Ends

/-! ## More fuel changes no answer -/

section Growth

variable {α : Type}

/-- Two evaluations that differ in their fuel only. -/
abbrev exact : Lockstep Still := Lockstep.diagonal False (fun _ => True) fun _ => True

theorem exact_invariant : Lockstep.Invariant (fun _ => True) fun _ => True :=
  ⟨fun _ _ _ => trivial, fun _ _ _ _ _ _ _ _ => trivial, fun _ _ _ _ => trivial,
    fun _ _ _ _ _ => trivial⟩

theorem exact_engines (H : Host σ) {n n' : Nat} (h : n ≤ n') (d : Array Nat) :
    exact.Engines d (engine H n) (engine H n') :=
  Lockstep.engines (exact_invariant.lawful H) h (fun hboth : False => hboth.elim) d

/-- An action in step with another one ends as that does. -/
theorem eq_some_of_steps {x y : Step σ α} (h : ∀ d, exact.Steps d ⟨⟩ Eq x y) {m : Machine σ}
    {a : α × Machine σ} (hx : x m = some a) : y m = some a := by
  have hsimilar : exact.Similar ⟨⟩ m.depths m m :=
    exact_invariant.similar trivial fun _ _ _ => trivial
  obtain ⟨⟨b, m₂⟩, hy, _, _, hafter, hab⟩ := (h m.depths m m hsimilar).of_some hx
  obtain ⟨a, m₁⟩ := a
  have heq : (a, m₁) = (b, m₂) := congrArg₂ Prod.mk hab hafter.eq
  rw [hy, heq]

theorem eq_some_of_runs {x y : Run σ α} (h : ∀ d, exact.Runs d ⟨⟩ Eq x y) {m : Machine σ}
    {a : Except Exit α × Machine σ} (hx : x.run m = some a) : y.run m = some a :=
  eq_some_of_steps (fun d => (h d).imp fun _ _ hr => hr.eq) hx

variable (H : Host σ) (I : Interp) (scope : Scope)

theorem exact_eval {n n' : Nat} (h : n ≤ n') (d : Array Nat) (w : Still) (e : Expr) :
    exact.Runs d w Eq (eval H n I scope e) (eval H n' I scope e) :=
  (exact_engines H h d).eval w ⟨I, scope, e⟩ ⟨I, scope, e⟩ ⟨rfl, trivial⟩

theorem grows_eval (e : Expr) : Grows fun n => (eval H n I scope e).run :=
  fun _ _ hn _ _ => eq_some_of_runs fun d => exact_eval H I scope hn d ⟨⟩ e

theorem grows_apply (ref : FuncRef) (args : List Value) : Grows fun n => apply H n ref args :=
  fun _ _ hn _ _ => eq_some_of_steps fun d => (exact_engines H hn d).apply ⟨⟩ ref args

theorem grows_evalAll (es : List Expr) : Grows fun n => (evalAll (eval H n I scope) es).run :=
  fun _ _ hn _ _ => eq_some_of_runs fun d => Lockstep.Runs.evalAll
    (List.forall₂_same.mpr fun e _ w _ => exact_eval H I scope hn d w e)

/-- Rounds may be added apart from fuel. -/
theorem runBody_mono {body rest : List Expr} {last : Value} {n n' k k' : Nat} (hn : n ≤ n')
    (hk : k ≤ k') {m : Machine σ} {y : Except Exit Value × Machine σ}
    (h : (runBody (eval H n I scope) body k rest last).run m = some y) :
    (runBody (eval H n' I scope) body k' rest last).run m = some y := by
  have hlike : ∀ d, ∀ es : List Expr, List.Forall₂
      (exact.StatementLike d ⟨⟩ (eval H n I scope) (eval H n' I scope)) es es := fun d es =>
    List.forall₂_same.mpr fun e _ => ⟨rfl, fun w _ => exact_eval H I scope hn d w e⟩
  exact eq_some_of_runs (fun d => Lockstep.Runs.runBody hk (fun hboth : False => hboth.elim) last
    (hlike d body) (hlike d rest)) h

/-- Rounds may be added apart from fuel. -/
theorem iterate_mono {e : Expr} {breakLabel continueLabel : Option Label} {n n' k k' : Nat}
    (hn : n ≤ n') (hk : k ≤ k') {m : Machine σ} {y : Except Exit Value × Machine σ}
    (h : (iterate (eval H n I scope e) breakLabel continueLabel k).run m = some y) :
    (iterate (eval H n' I scope e) breakLabel continueLabel k').run m = some y :=
  eq_some_of_runs (fun d => Lockstep.Runs.iterate hk (fun hboth : False => hboth.elim) ⟨⟩
    fun w _ => exact_eval H I scope hn d w e) h

theorem grows_callClosure (c : Closure) (args : List Value) :
    Grows fun n => (callClosure (engine H n) c args).run := by
  refine fun n n' hn _ _ => eq_some_of_runs fun d => ?_
  refine Lockstep.Runs.callClosure (exact_engines H hn _) ⟨rfl, rfl, rfl, ?_⟩ args
  intro _ _ st _ hst _ _ _
  obtain ⟨rfl, -⟩ := hst
  exact ⟨⟨⟩, trivial, ⟨rfl, trivial⟩, rfl, trivial⟩

/-- How a switch tests a candidate: by its method, or by equality. -/
def accepts (E : Engine σ) (comparer : Option Method) (scrutinee candidate : Value) : Run σ Bool :=
  match comparer with
  | some method => do
    let v ← dispatch H E method none [scrutinee, candidate]
    expectBool v
  | none => pure (scrutinee.equals candidate)

theorem grows_matchesSome (comparer : Option Method) (scrutinee : Value) (tests : List Expr) :
    Grows fun n => (matchesSome (eval H n I scope) (accepts H (engine H n) comparer scrutinee)
      tests).run :=
  fun _ _ hn _ _ => eq_some_of_runs fun d => Lockstep.Runs.matchesSome
    (fun _ v => Lockstep.Runs.accepts (exact_engines H hn d) H comparer scrutinee v)
    (List.forall₂_same.mpr fun e _ w _ => exact_eval H I scope hn d w e)

theorem grows_selectCase (comparer : Option Method) (scrutinee : Value) (cases : List (Case Expr)) :
    Grows fun n => (selectCase (eval H n I scope) (accepts H (engine H n) comparer scrutinee)
      cases).run := by
  intro n n' hn m y
  refine eq_some_of_runs fun d => ?_
  have hcases : List.Forall₂ (CaseLike Eq) cases cases :=
    casesLike_self fun _ _ => rfl
  refine (Lockstep.Runs.selectCase
    (fun _ v => Lockstep.Runs.accepts (exact_engines H hn d) H comparer scrutinee v) hcases
    fun a b hab w _ => hab ▸ exact_eval H I scope hn d w a).imp fun r r' hr => ?_
  cases hr with
  | ok value =>
    cases value with
    | none => exact .ok rfl
    | some hab => exact .ok (by rw [hab])
  | error exit => exact .error exit

theorem grows_filterAccepts (filter : Option Expr) :
    Grows fun n => (filterAccepts (eval H n I scope) filter).run :=
  fun _ _ hn _ _ => eq_some_of_runs fun d => Lockstep.Runs.filterAccepts
    (optionRel_self fun e _ => exact_eval H I scope hn d ⟨⟩ e)

theorem grows_play {β : Type} (script : Script σ β) :
    Grows fun n => Step.play (apply H n) script :=
  fun _ _ hn _ _ => eq_some_of_steps fun d =>
    Lockstep.Steps.play (fun w ref args => (exact_engines H hn d).apply w ref args) script ⟨⟩

end Growth

/-! ## Trees -/

section Trees

variable (H : Host σ) (I : Interp) (scope : Scope)

/-- What a tree evaluates to in a scope. -/
def Evaluates (e : Expr) (m : Machine σ) (y : Except Exit Value × Machine σ) : Prop :=
  Ends (fun n => (eval H n I scope e).run) m y

/-- What a call of a callable answers. -/
def Applies (ref : FuncRef) (args : List Value) (m : Machine σ) (y : Reply × Machine σ) : Prop :=
  Ends (fun n => apply H n ref args) m y

/-- What operands evaluate to, from left to right. -/
def EvaluatesAll (es : List Expr) (m : Machine σ)
    (y : Except Exit (List Value) × Machine σ) : Prop :=
  Ends (fun n => (evalAll (eval H n I scope) es).run) m y

/-- What the rest of a block's body ends with. -/
def BodyEnds (body rest : List Expr) (last : Value) (m : Machine σ)
    (y : Except Exit Value × Machine σ) : Prop :=
  ∃ n k, (runBody (eval H n I scope) body k rest last).run m = some y

variable {H I scope}
variable {e : Expr} {m : Machine σ} {y : Except Exit Value × Machine σ}

theorem Evaluates.unique {z : Except Exit Value × Machine σ} (hy : Evaluates H I scope e m y)
    (hz : Evaluates H I scope e m z) : y = z :=
  Ends.unique (grows_eval H I scope e) hy hz

/-- A tree evaluates as its topmost node does. -/
theorem evaluates_iff :
    Evaluates H I scope e m y ↔ ∃ n, (evalNode H (engine H n) I scope e).run m = some y := by
  have hzero : eval H 0 I scope e = .step .outOfFuel := by rw [eval]
  have hsucc : ∀ n, eval H (n + 1) I scope e = evalNode H (engine H n) I scope e := by
    intro n
    rw [eval]
    rfl
  constructor
  · intro h
    obtain ⟨n, hn⟩ := h
    cases n with
    | zero =>
      simp only [hzero] at hn
      cases hn
    | succ n =>
      simp only [hsucc] at hn
      exact ⟨n, hn⟩
  · intro h
    obtain ⟨n, hn⟩ := h
    refine ⟨n + 1, ?_⟩
    simp only [hsucc]
    exact hn

theorem Evaluates.node (h : Evaluates H I scope e m y) :
    ∀ᶠ n in atTop, (evalNode H (engine H n) I scope e).run m = some y := by
  obtain ⟨k, hk⟩ := h
  refine eventually_atTop.mpr ⟨k, fun n hn => ?_⟩
  have hsucc := grows_eval H I scope e k (n + 1) (Nat.le_succ_of_le hn) m y hk
  simp only [eval] at hsucc
  exact hsucc

theorem Evaluates.eventually (h : Evaluates H I scope e m y) :
    ∀ᶠ n in atTop, (eval H n I scope e).run m = some y :=
  Ends.eventually (grows_eval H I scope e) h

/-- A tree evaluates as actions do with which its topmost node agrees, once there is enough fuel. -/
theorem evaluates_iff_ends {x : Nat → Run σ Value} {m₀ : Machine σ}
    (hx : Grows fun n => (x n).run)
    (hrun : ∀ᶠ n in atTop, (evalNode H (engine H n) I scope e).run m = (x n).run m₀) :
    Evaluates H I scope e m y ↔ Ends (fun n => (x n).run) m₀ y := by
  constructor
  · intro h
    obtain ⟨n, hn, hnode⟩ := (hrun.and h.node).exists
    exact ⟨n, hn.symm.trans hnode⟩
  · intro h
    obtain ⟨n, hn, hend⟩ := (hrun.and (Ends.eventually hx h)).exists
    exact evaluates_iff.mpr ⟨n, hn.trans hend⟩

theorem EvaluatesAll.eventually {es : List Expr} {y : Except Exit (List Value) × Machine σ}
    (h : EvaluatesAll H I scope es m y) :
    ∀ᶠ n in atTop, (evalAll (eval H n I scope) es).run m = some y :=
  Ends.eventually (grows_evalAll H I scope es) h

/-- A callable does as `applyRef` says. -/
theorem applies_iff {ref : FuncRef} {args : List Value} {y : Reply × Machine σ} :
    Applies H ref args m y ↔ ∃ n, applyRef H (engine H n) ref args m = some y := by
  constructor
  · intro h
    obtain ⟨n, hn⟩ := h
    cases n with
    | zero =>
      simp only [apply] at hn
      cases hn
    | succ n =>
      simp only [apply] at hn
      exact ⟨n, hn⟩
  · intro h
    obtain ⟨n, hn⟩ := h
    refine ⟨n + 1, ?_⟩
    simp only [apply]
    exact hn

/-- A variable that is bound gives its value, whatever the engine is. -/
theorem evalNode_reference {p : Param} {v : Value} (hshape : e.shape = .parameter p)
    (hv : m.store.lookup scope p.id = some v) (E : Engine σ) :
    (evalNode H E I scope e).run m = some (.ok v, m) := by
  unfold evalNode
  rw [hshape, run_step_bind]
  show ((some (m.store.lookup scope p.id, m)).bind _ : Option (Except Exit Value × Machine σ)) = _
  rw [hv]
  rfl

/-! ## Operands -/

theorem evaluatesAll_nil {y : Except Exit (List Value) × Machine σ} :
    EvaluatesAll H I scope [] m y ↔ y = (.ok [], m) := by
  constructor
  · intro h
    obtain ⟨n, hn⟩ := h
    exact (Option.some.inj hn).symm
  · intro h
    exact ⟨0, by rw [h]; rfl⟩

/-- After the first operand has given its value, the others follow. -/
theorem evaluatesAll_cons {v : Value} {m₁ m' : Machine σ} (h : Evaluates H I scope e m (.ok v, m₁))
    {es : List Expr} {r : Except Exit (List Value)} :
    EvaluatesAll H I scope (e :: es) m (r, m') ↔
      ∃ r', EvaluatesAll H I scope es m₁ (r', m') ∧ r = r'.map (v :: ·) := by
  have hrun : ∀ᶠ n in atTop, (evalAll (eval H n I scope) (e :: es)).run m =
      ((evalAll (eval H n I scope) es).run m₁).map fun x => (x.1.map (v :: ·), x.2) := by
    filter_upwards [h.eventually] with n hn
    rw [evalAll, run_bind_of_ok hn, run_bind, Option.map_eq_bind]
    congr 1
    funext x
    obtain ⟨r, k⟩ := x
    cases r <;> rfl
  constructor
  · intro hall
    obtain ⟨n, hn, hall⟩ := (hrun.and hall.eventually).exists
    rw [hn] at hall
    obtain ⟨⟨r', k⟩, hes, hr⟩ := Option.map_eq_some_iff.mp hall
    cases hr
    exact ⟨r', ⟨n, hes⟩, rfl⟩
  · intro hes
    obtain ⟨r', hes, rfl⟩ := hes
    refine Ends.of_eventually ?_
    filter_upwards [hrun, hes.eventually] with n hn hes
    rw [hn, hes]
    rfl

/-- Operands that have all given values did so one after another. -/
theorem EvaluatesAll.ok_cons {es : List Expr} {vs : List Value} {m' : Machine σ}
    (h : EvaluatesAll H I scope (e :: es) m (.ok vs, m')) :
    ∃ v m₁ vs', Evaluates H I scope e m (.ok v, m₁) ∧
      EvaluatesAll H I scope es m₁ (.ok vs', m') ∧ vs = v :: vs' := by
  obtain ⟨n, hn⟩ := h
  obtain ⟨v, m₁, he, hrest⟩ := ok_of_run_bind hn
  obtain ⟨vs', m₂, hes, hpure⟩ := ok_of_run_bind hrest
  cases hpure
  exact ⟨v, m₁, vs', ⟨n, he⟩, ⟨n, hes⟩, rfl⟩

/-- Operands after others that have given values. -/
theorem EvaluatesAll.append {before : List Expr} {vs : List Value} {m₁ m' : Machine σ}
    (hbefore : EvaluatesAll H I scope before m (.ok vs, m₁)) {es : List Expr}
    {r : Except Exit (List Value)} (h : EvaluatesAll H I scope es m₁ (r, m')) :
    EvaluatesAll H I scope (before ++ es) m (r.map (vs ++ ·), m') := by
  induction before generalizing m vs with
  | nil =>
    cases evaluatesAll_nil.mp hbefore
    have hmap : r.map ([] ++ ·) = r := by cases r <;> rfl
    rw [List.nil_append, hmap]
    exact h
  | cons a before ih =>
    obtain ⟨v, m₀, vs', ha, hrest, rfl⟩ := hbefore.ok_cons
    refine (evaluatesAll_cons ha).mpr ⟨_, ih hrest, ?_⟩
    cases r <;> rfl

/-- Operands that give their values without an effect. -/
theorem evaluatesAll_of_values {es : List Expr} {vs : List Value}
    (h : List.Forall₂ (fun a v => Evaluates H I scope a m (.ok v, m)) es vs) :
    EvaluatesAll H I scope es m (.ok vs, m) := by
  induction h with
  | nil => exact evaluatesAll_nil.mpr rfl
  | @cons a v es vs ha _ ih => exact (evaluatesAll_cons ha).mpr ⟨.ok vs, ih, rfl⟩

theorem evaluatesAll_one {v : Value} {m₁ : Machine σ} (h : Evaluates H I scope e m (.ok v, m₁)) :
    EvaluatesAll H I scope [e] m (.ok [v], m₁) :=
  (evaluatesAll_cons h).mpr ⟨.ok [], evaluatesAll_nil.mpr rfl, rfl⟩

/-- An operand that leaves early ends them all. -/
theorem EvaluatesAll.of_error {exit : Exit} {m₁ : Machine σ}
    (h : Evaluates H I scope e m (.error exit, m₁)) (es : List Expr) :
    EvaluatesAll H I scope (e :: es) m (.error exit, m₁) := by
  obtain ⟨n, hn⟩ := h
  exact ⟨n, run_bind_of_error hn⟩

/-! ## Calls of callables -/

/-- What the reply of a callable is to the tree that called it. -/
def answered : Reply → Except Exit Value
  | .ok v => .ok v
  | .error (.object _ _ (.fault f)) => .error (.fault f)
  | .error v => .error (.throw v)

theorem ofReply_run (reply : Reply) (m : Machine σ) :
    (Run.ofReply reply).run m = some (answered reply, m) := by
  cases reply with
  | ok v => rfl
  | error v =>
    cases v with
    | object id cls content => cases content <;> rfl
    | _ => rfl

theorem evalAll_bind_congr {α : Type} {ev : Expr → Run σ Value} {es : List Expr}
    {f g : List Value → Run σ α} (h : ∀ vs, vs.length = es.length → f vs = g vs) :
    evalAll ev es >>= f = evalAll ev es >>= g := by
  induction es generalizing f g with
  | nil =>
    simp only [evalAll, pure_bind]
    exact h [] rfl
  | cons a es ih =>
    simp only [evalAll, bind_assoc, pure_bind]
    refine congrArg _ (funext fun v => ?_)
    exact ih fun vs hvs => h (v :: vs) (congrArg Nat.succ hvs)

/-- A node that comes to evaluate operands, on the machine `m₀`, and then asks for a reply: either
the operands leave early, or it ends with what the reply to their values is to it. -/
theorem evaluates_of_replies {operands : List Expr} {replies : Nat → List Value → Step σ Reply}
    {m₀ : Machine σ}
    (hgrows : ∀ vs, Grows fun n => replies n vs)
    (hrun : ∀ᶠ n in atTop, (evalNode H (engine H n) I scope e).run m =
      (evalAll (eval H n I scope) operands >>= fun vs =>
        Run.step (replies n vs) >>= Run.ofReply).run m₀)
    {r : Except Exit Value} {m' : Machine σ} :
    Evaluates H I scope e m (r, m') ↔
      (∃ exit, EvaluatesAll H I scope operands m₀ (.error exit, m') ∧ r = .error exit) ∨
      ∃ vs m₁ reply, EvaluatesAll H I scope operands m₀ (.ok vs, m₁) ∧
        Ends (fun n => replies n vs) m₁ (reply, m') ∧ r = answered reply := by
  have hreply : ∀ n vs, (Run.step (replies n vs) >>= Run.ofReply).run =
      replies n vs >>= fun reply => (Run.ofReply reply).run :=
    fun n vs => funext (run_step_bind (replies n vs) Run.ofReply)
  have hsame : ∀ reply, Grows fun _ => (Run.ofReply reply : Run σ Value).run :=
    fun reply => grows_const (Run.ofReply reply).run
  have hanswer : ∀ vs, Grows fun n => (Run.step (replies n vs) >>= Run.ofReply).run := by
    intro vs
    simp only [hreply]
    exact (hgrows vs).bind hsame
  rw [evaluates_iff_ends ((grows_evalAll H I scope operands).run_bind hanswer) hrun,
    ends_run_bind_iff (grows_evalAll H I scope operands) hanswer]
  refine or_congr_right (exists_congr fun vs => exists_congr fun m₁ => ?_)
  simp only [hreply]
  rw [ends_bind_iff (hgrows vs) hsame]
  constructor
  · intro h
    obtain ⟨hall, reply, m₂, hx, n, hn⟩ := h
    cases (ofReply_run reply m₂).symm.trans hn
    exact ⟨reply, hall, hx, rfl⟩
  · intro h
    obtain ⟨reply, hall, hx, rfl⟩ := h
    exact ⟨hall, reply, m', hx, 0, ofReply_run reply m'⟩

/-- An invocation whose target gives a callable that takes as many arguments. -/
theorem evaluates_invoke {target : Expr} {operands : List Expr} {ref : FuncRef} {params : List Ty}
    {ret : Ty} {m₁ m' : Machine σ} {r : Except Exit Value} (hshape : e.shape = .invoke target operands)
    (htarget : Evaluates H I scope target m (.ok (.func ref params ret), m₁))
    (harity : params.length = operands.length) :
    Evaluates H I scope e m (r, m') ↔
      (∃ exit, EvaluatesAll H I scope operands m₁ (.error exit, m') ∧ r = .error exit) ∨
      ∃ vs m₂ reply, EvaluatesAll H I scope operands m₁ (.ok vs, m₂) ∧
        Applies H ref vs m₂ (reply, m') ∧ r = answered reply := by
  refine evaluates_of_replies (fun vs => grows_apply H ref vs) ?_
  filter_upwards [htarget.eventually] with n hn
  unfold evalNode
  rw [hshape]
  refine (run_bind_of_ok hn).trans (congrArg (fun x : Run σ Value => x.run m₁) ?_)
  exact evalAll_bind_congr fun vs hvs => if_neg (not_not.mpr (harity.trans hvs.symm))

/-! ## Blocks -/

section Bodies

variable {body rest : List Expr} {last : Value}

/-- How a body goes on after a statement has ended with `r`. -/
def goOn (ev : Expr → Run σ Value) (body : List Expr) (rounds : Nat) (rest : List Expr) :
    Except Exit Value → Run σ Value
  | .ok v => runBody ev body (rounds + 1) rest v
  | .error (.jump l v) =>
    match afterLabel? l body with
    | some resumed => runBody ev body rounds resumed v
    | none => throw (.jump l v)
  | .error exit => throw exit

theorem runBody_cons {ev : Expr → Run σ Value} {r : Except Exit Value} {m₁ : Machine σ}
    (h : (ev e).run m = some (r, m₁)) (rounds : Nat) :
    (runBody ev body (rounds + 1) (e :: rest) last).run m =
      (goOn ev body rounds rest r).run m₁ := by
  rw [runBody, runStatements, run_held_bind_of_some h]
  cases r with
  | ok v => rfl
  | error exit => cases exit <;> rfl

theorem bodyEnds_cons {r : Except Exit Value} {m₁ : Machine σ}
    (h : Evaluates H I scope e m (r, m₁)) :
    BodyEnds H I scope body (e :: rest) last m y ↔
      ∃ k, ∀ᶠ n in atTop, (goOn (eval H n I scope) body k rest r).run m₁ = some y := by
  constructor
  · intro hbody
    obtain ⟨n, k, hrun⟩ := hbody
    refine ⟨k, ?_⟩
    filter_upwards [h.eventually, eventually_ge_atTop n] with n' hn' hle
    rw [← runBody_cons hn']
    exact runBody_mono H I scope hle (Nat.le_succ k) hrun
  · intro hnext
    obtain ⟨k, hnext⟩ := hnext
    obtain ⟨n, hn, hrun⟩ := (h.eventually.and hnext).exists
    exact ⟨n, k + 1, by rw [runBody_cons hn]; exact hrun⟩

/-- A statement that gives a value is followed by the next one. -/
theorem bodyEnds_of_ok {v : Value} {m₁ : Machine σ} (h : Evaluates H I scope e m (.ok v, m₁)) :
    BodyEnds H I scope body (e :: rest) last m y ↔ BodyEnds H I scope body rest v m₁ y := by
  rw [bodyEnds_cons h]
  constructor
  · intro hnext
    obtain ⟨k, hnext⟩ := hnext
    obtain ⟨n, hn⟩ := hnext.exists
    exact ⟨n, k + 1, hn⟩
  · intro hb
    obtain ⟨n, k, hn⟩ := hb
    refine ⟨k, ?_⟩
    filter_upwards [eventually_ge_atTop n] with n' hle
    exact runBody_mono H I scope hle (Nat.le_succ k) hn

/-- A statement that jumps to a label of the body is followed by what comes after the label. -/
theorem bodyEnds_of_jump {l : Label} {v : Value} {m₁ : Machine σ} {resumed : List Expr}
    (h : Evaluates H I scope e m (.error (.jump l v), m₁)) (hl : afterLabel? l body = some resumed) :
    BodyEnds H I scope body (e :: rest) last m y ↔ BodyEnds H I scope body resumed v m₁ y := by
  rw [bodyEnds_cons h]
  simp only [goOn, hl]
  constructor
  · intro hnext
    obtain ⟨k, hnext⟩ := hnext
    obtain ⟨n, hn⟩ := hnext.exists
    exact ⟨n, k, hn⟩
  · intro hb
    obtain ⟨n, k, hn⟩ := hb
    refine ⟨k, ?_⟩
    filter_upwards [eventually_ge_atTop n] with n' hle
    exact runBody_mono H I scope hle (Nat.le_refl k) hn

/-- A statement that leaves early otherwise leaves the body. -/
theorem bodyEnds_of_exit {exit : Exit} {m₁ : Machine σ}
    (h : Evaluates H I scope e m (.error exit, m₁))
    (hl : ∀ l v, exit = .jump l v → afterLabel? l body = none) :
    BodyEnds H I scope body (e :: rest) last m y ↔ y = (.error exit, m₁) := by
  have hthrown : ∀ n k, (goOn (eval H n I scope) body k rest (.error exit)).run m₁ =
      some (.error exit, m₁) := by
    intro n k
    cases exit with
    | throw v => rfl
    | jump l v =>
      simp only [goOn, hl l v rfl]
      rfl
    | fault f => rfl
  rw [bodyEnds_cons h]
  simp only [hthrown, Option.some.injEq]
  exact ⟨fun hy => hy.choose_spec.exists.choose_spec.symm, fun hy => ⟨0, .of_forall fun _ => hy.symm⟩⟩

/-- A block evaluates as its body does, in a scope of its own with its variables in it. -/
theorem evaluates_block {locals : List Param} (hshape : e.shape = .block locals body)
    {r : Except Exit Value} {m' : Machine σ} :
    Evaluates H I scope e m (r, m') ↔
      ∃ r', BodyEnds H I (scope.extended m.store.frames.size none) body body .void
        { m with store := m.store.opened (locals.map fun p => (p, .default p.ty)) } (r', m') ∧
        r = r'.map (settle e.ty) := by
  have hrun : ∀ n, (evalNode H (engine H n) I scope e).run m =
      ((runBody (eval H n I (scope.extended m.store.frames.size none)) body n body .void).run
        { m with store := m.store.opened (locals.map fun p => (p, .default p.ty)) }).map
        fun x => (x.1.map (settle e.ty), x.2) := by
    intro n
    unfold evalNode
    rw [hshape]
    show (evalBlock (engine H n) I scope e.ty locals body).run m = _
    unfold evalBlock
    refine (Lockstep.opening_run scope none _ _ m).trans ?_
    rw [run_bind, Option.map_eq_bind]
    congr 1
    funext x
    obtain ⟨r, k⟩ := x
    cases r <;> rfl
  rw [evaluates_iff]
  constructor
  · intro h
    obtain ⟨n, hn⟩ := h
    obtain ⟨⟨r', k⟩, hbody, hr⟩ := Option.map_eq_some_iff.mp ((hrun n).symm.trans hn)
    cases hr
    exact ⟨r', ⟨n, n, hbody⟩, rfl⟩
  · intro h
    obtain ⟨r', hbody, rfl⟩ := h
    obtain ⟨n, k, hbody⟩ := hbody
    refine ⟨max n k, ?_⟩
    rw [hrun, runBody_mono H I _ (Nat.le_max_left n k) (Nat.le_max_right n k) hbody]
    rfl

end Bodies

/-! ## Loops -/

section Loops

variable {body : Expr} {breakLabel continueLabel : Option Label}

theorem iterate_succ {x : Run σ Value} {r : Except Exit Value} {m₁ : Machine σ}
    (h : x.run m = some (r, m₁)) (rounds : Nat) :
    (iterate x breakLabel continueLabel (rounds + 1)).run m =
      (match r with
        | .ok _ => iterate x breakLabel continueLabel rounds
        | .error (.jump l v) =>
          if breakLabel == some l then pure v
          else if continueLabel == some l then iterate x breakLabel continueLabel rounds
          else throw (.jump l v)
        | .error exit => throw exit : Run σ Value).run m₁ := by
  rw [iterate, run_held_bind_of_some h]
  cases r with
  | ok v => rfl
  | error exit => cases exit <;> rfl

theorem evaluates_loop (hshape : e.shape = .loop body breakLabel continueLabel) :
    Evaluates H I scope e m y ↔
      ∃ n k, (iterate (eval H n I scope body) breakLabel continueLabel k).run m = some y := by
  have hnode : ∀ n, evalNode H (engine H n) I scope e =
      iterate (eval H n I scope body) breakLabel continueLabel n := by
    intro n
    unfold evalNode
    rw [hshape]
    rfl
  rw [evaluates_iff]
  constructor
  · intro h
    obtain ⟨n, hn⟩ := h
    exact ⟨n, n, by rw [← hnode]; exact hn⟩
  · intro h
    obtain ⟨n, k, hrun⟩ := h
    refine ⟨max n k, ?_⟩
    rw [hnode]
    exact iterate_mono H I scope (Nat.le_max_left n k) (Nat.le_max_right n k) hrun

/-- A loop whose round gives a value, or jumps to the continue label, starts again. -/
theorem evaluates_loop_again (hshape : e.shape = .loop body breakLabel continueLabel)
    {r : Except Exit Value} {m₁ : Machine σ} (h : Evaluates H I scope body m (r, m₁))
    (hr : ∀ exit, r = .error exit → ∃ l v, exit = .jump l v ∧ (breakLabel == some l) = false ∧
      (continueLabel == some l) = true) :
    Evaluates H I scope e m y ↔ Evaluates H I scope e m₁ y := by
  have hstep : ∀ᶠ n in atTop, ∀ k, (iterate (eval H n I scope body) breakLabel continueLabel
      (k + 1)).run m = (iterate (eval H n I scope body) breakLabel continueLabel k).run m₁ := by
    filter_upwards [h.eventually] with n hn k
    rw [iterate_succ hn]
    cases r with
    | ok v => rfl
    | error exit =>
      obtain ⟨l, v, rfl, hbreak, hcontinue⟩ := hr exit rfl
      simp only [hbreak, hcontinue, if_true, Bool.false_eq_true, if_false]
  rw [evaluates_loop hshape, evaluates_loop hshape]
  constructor
  · intro hloop
    obtain ⟨n, k, hrun⟩ := hloop
    obtain ⟨n', hn', hle⟩ := (hstep.and (eventually_ge_atTop n)).exists
    refine ⟨n', k, ?_⟩
    rw [← hn']
    exact iterate_mono H I scope hle (Nat.le_succ k) hrun
  · intro hloop
    obtain ⟨n, k, hrun⟩ := hloop
    obtain ⟨n', hn', hle⟩ := (hstep.and (eventually_ge_atTop n)).exists
    refine ⟨n', k + 1, ?_⟩
    rw [hn']
    exact iterate_mono H I scope hle (Nat.le_refl k) hrun

/-- A jump to the break label ends a loop with the value it carries. -/
theorem evaluates_loop_break (hshape : e.shape = .loop body breakLabel continueLabel) {l : Label}
    {v : Value} {m₁ : Machine σ} (h : Evaluates H I scope body m (.error (.jump l v), m₁))
    (hbreak : (breakLabel == some l) = true) : Evaluates H I scope e m (.ok v, m₁) := by
  obtain ⟨n, hn⟩ := h
  refine (evaluates_loop hshape).mpr ⟨n, 1, ?_⟩
  rw [iterate_succ hn]
  simp only [hbreak, if_true]
  rfl

/-- Other exits leave a loop. -/
theorem evaluates_loop_exit (hshape : e.shape = .loop body breakLabel continueLabel) {exit : Exit}
    {m₁ : Machine σ} (h : Evaluates H I scope body m (.error exit, m₁))
    (hl : ∀ l v, exit = .jump l v → (breakLabel == some l) = false ∧
      (continueLabel == some l) = false) : Evaluates H I scope e m (.error exit, m₁) := by
  obtain ⟨n, hn⟩ := h
  refine (evaluates_loop hshape).mpr ⟨n, 1, ?_⟩
  rw [iterate_succ hn]
  cases exit with
  | throw v => rfl
  | jump l v =>
    obtain ⟨hbreak, hcontinue⟩ := hl l v rfl
    simp only [hbreak, hcontinue, Bool.false_eq_true, if_false]
    rfl
  | fault f => rfl

end Loops

/-! ## Activations -/

/-- An activation of a closure that is neither refused nor called with too many or too few
arguments: its scope, and the machine on which its body starts. -/
structure Closure.Starts (c : Closure) (args : List Value) (m : Machine σ) (inner : Scope)
    (m₁ : Machine σ) : Prop where
  limit : m.depths.getD c.interp.id 0 < c.interp.limit
  arity : c.params.length = args.length
  scope : inner = c.scope.extended m.store.frames.size none
  machine : m₁ = { m with
    store := m.store.opened (c.params.zip args)
    depths := m.depths.modify c.interp.id (· + 1) }

/-- What is made of the end of a closure's body. -/
def Closure.outcome (c : Closure) : Except Exit Value → Except Exit Value
  | .ok v => .ok (settle c.ret v)
  | .error (.jump l _) => .error (.fault (.unresolvedLabel l.displayName))
  | .error exit => .error exit

/-- A machine after an activation. -/
def Machine.left (m : Machine σ) (I : Interp) : Machine σ :=
  { m with depths := m.depths.modify I.id (· - 1) }

/-- What a call of a closure ends with. -/
def Activates (H : Host σ) (c : Closure) (args : List Value) (m : Machine σ)
    (y : Except Exit Value × Machine σ) : Prop :=
  Ends (fun n => (callClosure (engine H n) c args).run) m y

/-- The part of an activation that is counted: the body in a scope of its own. -/
theorem runClosure_run (E : Engine σ) {c : Closure} {args : List Value} {depth : Nat}
    (hlimit : ¬c.interp.limit < depth) (harity : c.params.length = args.length) (m : Machine σ) :
    (runClosure E c args depth).run m =
      ((E.eval c.interp (c.scope.extended m.store.frames.size none) c.body).run
        { m with store := m.store.opened (c.params.zip args) }).map fun x => (c.outcome x.1, x.2) := by
  rw [runClosure, if_neg hlimit, if_neg (not_not.mpr harity)]
  refine (Lockstep.opening_run c.scope none _ _ m).trans ((run_held_bind _ _ _).trans ?_)
  rw [Option.map_eq_bind]
  congr 1
  funext x
  obtain ⟨r, k⟩ := x
  cases r with
  | ok v => rfl
  | error exit => cases exit <;> rfl

/-- An activation ends as its body does. -/
theorem activates_iff {c : Closure} {args : List Value} {inner : Scope} {m₁ m' : Machine σ}
    (h : c.Starts args m inner m₁) {r : Except Exit Value} :
    Activates H c args m (r, m') ↔ ∃ r' m₂, Evaluates H c.interp inner c.body m₁ (r', m₂) ∧
      r = c.outcome r' ∧ m' = m₂.left c.interp := by
  obtain ⟨hlimit, harity, rfl, rfl⟩ := h
  have hrun : ∀ n, (callClosure (engine H n) c args).run m =
      ((eval H n c.interp (c.scope.extended m.store.frames.size none) c.body).run
        { m with
          store := m.store.opened (c.params.zip args)
          depths := m.depths.modify c.interp.id (· + 1) }).map
        fun x => (c.outcome x.1, x.2.left c.interp) := by
    intro n
    rw [Setting.callClosure_run, runClosure_run _ (Nat.not_lt.mpr hlimit) harity, Option.map_map]
    rfl
  constructor
  · intro hcall
    obtain ⟨n, hn⟩ := hcall
    obtain ⟨⟨r', m₂⟩, hbody, hr⟩ := Option.map_eq_some_iff.mp ((hrun n).symm.trans hn)
    cases hr
    exact ⟨r', m₂, ⟨n, hbody⟩, rfl, rfl⟩
  · intro hbody
    obtain ⟨r', m₂, hbody, rfl, rfl⟩ := hbody
    obtain ⟨n, hn⟩ := hbody
    have hn : (eval H n c.interp (c.scope.extended m.store.frames.size none) c.body).run _ = _ := hn
    exact ⟨n, (hrun n).trans (by rw [hn]; rfl)⟩

/-- To the code that called it, a closure that ends in a fault answers with a new object. -/
theorem Activates.applies_fault {c : Closure} {index : Nat} {args : List Value} {f : Fault}
    {m' : Machine σ} (hc : m.closures[index]? = some c)
    (h : Activates H c args m (.error (.fault f), m')) :
    Applies H (.closure index) args m
      (.error (.object m'.next .evaluationFault (.fault f)), { m' with next := m'.next + 1 }) := by
  obtain ⟨n, hn⟩ := h
  refine applies_iff.mpr ⟨n, ?_⟩
  rw [Setting.applyRef_of_some H (engine H n) hc]
  unfold Run.toReply
  show ((callClosure (engine H n) c args).run m).bind _ = _
  have hn : (callClosure (engine H n) c args).run m = _ := hn
  rw [hn]
  rfl

end Trees

/-! ## Whole evaluations -/

section Whole

variable (H : Host σ)

/-- What a whole evaluation gives when its outermost frame is left with an outcome. -/
def reported (fuel : Nat) : Except Exit Value → Step σ (Except EvalError Value)
  | .ok v => pure (.ok v)
  | .error exit => do
    let error ← escaped H fuel exit
    pure (.error error)

theorem grows_reported (r : Except Exit Value) : Grows fun n => reported H n r := by
  intro n n' hn m z hz
  cases r with
  | ok v => exact hz
  | error exit =>
    cases exit with
    | throw v =>
      obtain ⟨⟨error, k⟩, herror, hz⟩ := Option.bind_eq_some_iff.mp hz
      obtain ⟨⟨text, k'⟩, hplay, herror⟩ := Option.bind_eq_some_iff.mp herror
      refine Option.bind_eq_some_iff.mpr ⟨(error, k), ?_, hz⟩
      exact Option.bind_eq_some_iff.mpr ⟨(text, k'), grows_play H _ n n' hn m _ hplay, herror⟩
    | jump l v => exact hz
    | fault f => exact hz

variable {H}

theorem finish_eq (n : Nat) (x : Run σ Value) : finish H n x = x.run >>= reported H n := by
  refine congrArg (x.run >>= ·) (funext fun r => ?_)
  cases r <;> rfl

theorem grows_finish {x : Nat → Run σ Value} (hx : Grows fun n => (x n).run) :
    Grows fun n => finish H n (x n) := by
  simp only [finish_eq]
  exact hx.bind (grows_reported H)

/-- A whole evaluation ends its frame and then reports. -/
theorem ends_finish_iff {x : Nat → Run σ Value} (hx : Grows fun n => (x n).run) {m : Machine σ}
    {z : Except EvalError Value × Machine σ} :
    Ends (fun n => finish H n (x n)) m z ↔ ∃ r m', Ends (fun n => (x n).run) m (r, m') ∧
      Ends (fun n => reported H n r) m' z := by
  simp only [finish_eq]
  exact ends_bind_iff hx (grows_reported H)

end Whole

end CodeTree
