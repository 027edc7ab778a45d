import CodeTree.Proofs.Independence

/-!
# The compiled path and the interpreted one

A lambda can be run in two ways: compiled and then invoked, or as the target of an invocation
whose operands are the arguments. The second way makes one more closure, and its outcome passes
through host code on the way out.

* `crossed` — an outcome that has passed through host code, and the machine it is found on;
* `delivered` — what that does to the result of a whole evaluation: nothing, unless what escapes is
  an object that carries a fault (`escapedFault?`), which host code has kept from an earlier call.
  Passing through host code makes it the fault again, while a compiled lambda reports it as a thrown
  value;
* `evaluateClosed_of_invoke`, `invoke_of_evaluateClosed` — on the machine on which the lambda has
  become a closure, the two paths activate the same closure.

Main statement: `compiled_agrees_with_interpreted`. What it leaves out is there:
`kept_fault_escapes_differently`.
-/

namespace CodeTree

open Filter (atTop)

variable {σ : Type}

/-! ## The two paths -/

/-- Compiles a lambda and runs it. -/
def compileAndInvoke (H : Host σ) (fuel : Nat) (I : Interp) (f : Expr) (args : List Value) :
    Step σ (Except EvalError Value) :=
  match compile I f with
  | .ok c => c.invoke H fuel args
  | .error error => pure (.error error)

/-- An invocation with values for operands, as constants. -/
def Expr.invokedOn (f : Expr) (args : List Value) : Make Expr := do
  let operands ← args.mapM Expr.constant
  Expr.invoke f operands

/-- Constants that hold the given values. -/
abbrev Holding (operands : List Expr) (args : List Value) : Prop :=
  List.Forall₂ (fun a v => a.shape = .constant v) operands args

theorem constants_mapM : ∀ (args : List Value) (next : Nat),
    Holding (args.mapM Expr.constant next).1 args
  | [], _ => .nil
  | v :: args, next => by
    rw [List.mapM_cons]
    exact .cons rfl (constants_mapM args (next + 1))

theorem shape_invokedOn (f : Expr) (args : List Value) (next : Nat) :
    ∃ operands, (f.invokedOn args next).1.shape = .invoke f operands ∧ Holding operands args :=
  ⟨_, rfl, constants_mapM args next⟩

/-! ## Free parameters -/

theorem foldl_freeFrom_constants {operands : List Expr} {args : List Value}
    (h : Holding operands args) (bound seen : List Param) :
    operands.foldl (fun seen child => child.freeFrom bound seen) seen = seen := by
  induction h with
  | nil => rfl
  | @cons a v operands args ha _ ih =>
    obtain ⟨id, s, ty⟩ := a
    cases ha
    rw [List.foldl_cons, Expr.freeFrom_mk]
    exact ih

/-- An invocation on constants has the free parameters of its target, and those of a lambda are the
ones that compilation looks for. -/
theorem freeParameters_invocation {e f body : Expr} {params : List Param} {operands : List Expr}
    {args : List Value} (he : e.shape = .invoke f operands) (hf : f.shape = .lambda params body)
    (hconstants : Holding operands args) : e.freeParameters = body.freeUnder params := by
  obtain ⟨id, s, ty⟩ := e
  obtain ⟨id', s', ty'⟩ := f
  cases he
  cases hf
  rw [Expr.freeParameters, Expr.freeUnder, Expr.freeFrom_mk]
  show operands.foldl _ (Expr.freeFrom _ [] []) = _
  rw [foldl_freeFrom_constants hconstants, Expr.freeFrom_mk]
  show Expr.freeFrom body (params ++ []) [] = _
  rw [List.append_nil]
  rfl

/-! ## Passing through host code -/

/-- The fault that an object carries through host code. -/
def Value.asFault? : Value → Option Fault
  | .object _ _ (.fault f) => some f
  | _ => none

/-- An outcome that has passed through host code, and the machine that it is found on. -/
def crossed : Except Exit Value × Machine σ → Except Exit Value × Machine σ
  | (.ok v, k) => (.ok v, k)
  | (.error (.throw v), k) => (answered (.error v), k)
  | (.error (.jump l _), k) =>
    (.error (.fault (.unresolvedLabel l.displayName)), { k with next := k.next + 1 })
  | (.error (.fault f), k) => (.error (.fault f), { k with next := k.next + 1 })

/-- The fault that an escaped object carries. -/
def escapedFault? : Except EvalError Value → Option Fault
  | .error (.unhandled _ v) => v.asFault?
  | _ => none

/-- The result of an evaluation whose outcome has passed through host code. -/
def delivered : Except EvalError Value → Except EvalError Value
  | .error (.unhandled description v) =>
    match v.asFault? with
    | some f => .error (.fault f)
    | none => .error (.unhandled description v)
  | r => r

/-- Machines that differ at most in the identities they have handed out and in the closures they
have made. -/
structure Machine.Matches (m m' : Machine σ) : Prop where
  host : m.host = m'.host
  depths : m.depths = m'.depths
  frames : ∀ f, m.store.frame f = m'.store.frame f

theorem Machine.Matches.refl (m : Machine σ) : m.Matches m := ⟨rfl, rfl, fun _ => rfl⟩

/-- What host code is told is, to the tree that called it, the outcome that has crossed. -/
theorem toReply_run (x : Run σ Value) (m : Machine σ) :
    ((x.toReply m).map fun z => (answered z.1, z.2)) = (x.run m).map crossed := by
  show (((x.run m).bind _).map _) = _
  cases x.run m with
  | none => rfl
  | some y =>
    obtain ⟨r, k⟩ := y
    cases r with
    | ok v => rfl
    | error exit => cases exit <;> rfl

/-- A thrown value is described, whatever it is, if it carries a fault. -/
theorem ends_reported_of_asFault? {H : Host σ} {v : Value} {f : Fault} (h : v.asFault? = some f)
    (k : Machine σ) : ∃ text, Ends (fun n => reported H n (.error (.throw v))) k
      (.error (.unhandled text v), { k with next := k.next + 1 }) := by
  cases v with
  | object id cls content =>
    cases content with
    | fault _ => exact ⟨_, 0, rfl⟩
    | _ => cases h
  | _ => cases h

theorem answered_of_asFault? {v : Value} {f : Fault} (h : v.asFault? = some f) :
    answered (.error v) = .error (.fault f) := by
  cases v with
  | object id cls content =>
    cases content with
    | fault _ => cases h; rfl
    | _ => cases h
  | _ => cases h

theorem answered_of_asFault?_eq_none {v : Value} (h : v.asFault? = none) :
    answered (.error v) = .error (.throw v) := by
  cases v with
  | object id cls content =>
    cases content with
    | fault _ => cases h
    | _ => rfl
  | _ => rfl

/-- What is reported of a thrown value. -/
theorem unhandled_of_reported {H : Host σ} {v : Value} {k k' : Machine σ}
    {r : Except EvalError Value} (h : Ends (fun n => reported H n (.error (.throw v))) k (r, k')) :
    ∃ text, r = .error (.unhandled text v) := by
  obtain ⟨n, hn⟩ := h
  obtain ⟨⟨error, k₁⟩, herror, hpure⟩ := Option.bind_eq_some_iff.mp hn
  obtain ⟨⟨text, k₂⟩, -, hunhandled⟩ := Option.bind_eq_some_iff.mp herror
  cases hunhandled
  cases hpure
  exact ⟨text, rfl⟩

theorem delivered_unhandled {v : Value} (h : v.asFault? = none) (text : String) :
    delivered (.error (.unhandled text v)) = .error (.unhandled text v) := by
  simp only [delivered, h]

/-- Only an escaped object that carries a fault is not delivered as it is. -/
theorem delivered_of_escapedFault?_eq_none {r : Except EvalError Value}
    (h : escapedFault? r = none) : delivered r = r := by
  cases r with
  | ok v => rfl
  | error error =>
    cases error with
    | fault f => rfl
    | unhandled text v => exact delivered_unhandled h text

theorem delivered_of_asFault? {v : Value} {f : Fault} (h : v.asFault? = some f) (text : String) :
    delivered (.error (.unhandled text v)) = .error (.fault f) := by
  simp only [delivered, h]

theorem delivered_of_escapedFault? {r : Except EvalError Value} {f : Fault}
    (h : escapedFault? r = some f) : delivered r = .error (.fault f) := by
  cases r with
  | ok v => cases h
  | error error =>
    cases error with
    | fault f' => cases h
    | unhandled text v => exact delivered_of_asFault? h text

/-- What is reported of an outcome, delivered, is reported of it once it has crossed. -/
theorem reported_crossed {H : Host σ} {y : Except Exit Value} {k k' : Machine σ}
    {r : Except EvalError Value} (h : Ends (fun n => reported H n y) k (r, k')) :
    ∃ k'', Ends (fun n => reported H n (crossed (y, k)).1) (crossed (y, k)).2 (delivered r, k'') ∧
      k'.Matches k'' := by
  cases y with
  | ok v =>
    obtain ⟨n, hn⟩ := h
    cases hn
    exact ⟨k, ⟨0, rfl⟩, .refl k⟩
  | error exit =>
    cases exit with
    | throw v =>
      obtain ⟨text, rfl⟩ := unhandled_of_reported h
      cases hv : v.asFault? with
      | none =>
        rw [crossed, answered_of_asFault?_eq_none hv, delivered_unhandled hv]
        exact ⟨k', h, .refl k'⟩
      | some f =>
        obtain ⟨text', hend⟩ := ends_reported_of_asFault? (H := H) hv k
        cases Ends.unique (grows_reported H _) h hend
        rw [crossed, answered_of_asFault? hv, delivered_of_asFault? hv]
        exact ⟨k, ⟨0, rfl⟩, rfl, rfl, fun _ => rfl⟩
    | jump l v =>
      obtain ⟨n, hn⟩ := h
      cases hn
      exact ⟨_, ⟨0, rfl⟩, rfl, rfl, fun _ => rfl⟩
    | fault f =>
      obtain ⟨n, hn⟩ := h
      cases hn
      exact ⟨_, ⟨0, rfl⟩, rfl, rfl, fun _ => rfl⟩

/-- An outcome is reported if it is once it has crossed. -/
theorem reported_of_crossed {H : Host σ} {y : Except Exit Value} {k : Machine σ}
    {z : Except EvalError Value × Machine σ}
    (h : Ends (fun n => reported H n (crossed (y, k)).1) (crossed (y, k)).2 z) :
    ∃ r k', Ends (fun n => reported H n y) k (r, k') := by
  cases y with
  | ok v => exact ⟨_, _, 0, rfl⟩
  | error exit =>
    cases exit with
    | throw v =>
      cases hv : v.asFault? with
      | none =>
        rw [crossed, answered_of_asFault?_eq_none hv] at h
        exact ⟨z.1, z.2, h⟩
      | some f =>
        obtain ⟨text, hend⟩ := ends_reported_of_asFault? (H := H) hv k
        exact ⟨_, _, hend⟩
    | jump l v => exact ⟨_, _, 0, rfl⟩
    | fault f => exact ⟨_, _, 0, rfl⟩

/-! ## The interpreted path -/

/-- The machine with one more closure. -/
def Machine.keeping (m : Machine σ) (c : Closure) : Machine σ :=
  { m with closures := m.closures.push c }

section Interpreted

variable {H : Host σ} {I : Interp} {scope : Scope} {m : Machine σ} {e f body : Expr}
  {params : List Param} {tys : List Ty} {ret : Ty} {operands : List Expr} {args : List Value}

/-- A lambda becomes a closure, whatever the engine is. -/
theorem evalNode_lambda (hf : f.shape = .lambda params body) (hty : f.ty = .func tys ret)
    (E : Engine σ) : (evalNode H E I scope f).run m =
      some (.ok (.func (.closure m.closures.size) (params.map Param.ty) ret),
        m.keeping ⟨params, body, ret, scope, I⟩) := by
  unfold evalNode makeClosure
  rw [hf, hty]
  rfl

theorem evaluates_lambda (hf : f.shape = .lambda params body) (hty : f.ty = .func tys ret) :
    Evaluates H I scope f m (.ok (.func (.closure m.closures.size) (params.map Param.ty) ret),
      m.keeping ⟨params, body, ret, scope, I⟩) :=
  evaluates_iff.mpr ⟨0, evalNode_lambda hf hty _⟩

theorem evaluatesAll_constants (h : Holding operands args) :
    EvaluatesAll H I scope operands m (.ok args, m) := by
  refine evaluatesAll_of_values (h.imp fun a v ha => evaluates_iff.mpr ⟨0, ?_⟩)
  unfold evalNode
  rw [ha]
  rfl

/-- The invocation ends as the activation of the new closure does, once its outcome has crossed. The
operands give their values without an effect. -/
theorem evaluates_invocation (he : e.shape = .invoke f operands)
    (hf : f.shape = .lambda params body) (hty : f.ty = .func tys ret)
    (hall : EvaluatesAll H I scope operands (m.keeping ⟨params, body, ret, scope, I⟩)
      (.ok args, m.keeping ⟨params, body, ret, scope, I⟩))
    (harity : params.length = operands.length) {z : Except Exit Value × Machine σ} :
    Evaluates H I scope e m z ↔ ∃ y, Activates H ⟨params, body, ret, scope, I⟩ args
      (m.keeping ⟨params, body, ret, scope, I⟩) y ∧ z = crossed y := by
  obtain ⟨r, k⟩ := z
  have hnew : (m.keeping ⟨params, body, ret, scope, I⟩).closures[m.closures.size]? =
      some ⟨params, body, ret, scope, I⟩ := Array.getElem?_push_size
  have hlength : (params.map Param.ty).length = operands.length := by
    rw [List.length_map, harity]
  rw [evaluates_invoke he (evaluates_lambda hf hty) hlength]
  have hgrows := grows_evalAll H I scope operands
  constructor
  · rintro (⟨exit, hexit, -⟩ | ⟨vs, m₁, reply, hvs, hreply, rfl⟩)
    · cases Ends.unique hgrows hall hexit
    · cases Ends.unique hgrows hall hvs
      obtain ⟨n, hn⟩ := applies_iff.mp hreply
      rw [Setting.applyRef_of_some H (engine H n) hnew] at hn
      have hcrossed := toReply_run (callClosure (engine H n) ⟨params, body, ret, scope, I⟩ args)
        (m.keeping ⟨params, body, ret, scope, I⟩)
      rw [hn] at hcrossed
      obtain ⟨y, hy, heq⟩ := Option.map_eq_some_iff.mp hcrossed.symm
      exact ⟨y, ⟨n, hy⟩, heq.symm⟩
  · rintro ⟨y, ⟨n, hy⟩, hz⟩
    have hy : (callClosure (engine H n) ⟨params, body, ret, scope, I⟩ args).run
        (m.keeping ⟨params, body, ret, scope, I⟩) = some y := hy
    have hcrossed := toReply_run (callClosure (engine H n) ⟨params, body, ret, scope, I⟩ args)
      (m.keeping ⟨params, body, ret, scope, I⟩)
    rw [hy] at hcrossed
    obtain ⟨⟨reply, k'⟩, hn, heq⟩ := Option.map_eq_some_iff.mp hcrossed
    cases heq.trans hz.symm
    refine .inr ⟨args, _, reply, hall, applies_iff.mpr ⟨n, ?_⟩, rfl⟩
    rw [Setting.applyRef_of_some H (engine H n) hnew]
    exact hn

/-- An invocation with too many or too few operands. -/
theorem evaluates_invocation_of_arity (he : e.shape = .invoke f operands)
    (hf : f.shape = .lambda params body) (hty : f.ty = .func tys ret)
    (hconstants : Holding operands args) (harity : params.length ≠ args.length) :
    Evaluates H I scope e m (.error (.fault (.arityMismatch params.length args.length)),
      m.keeping ⟨params, body, ret, scope, I⟩) := by
  have hlambda : Evaluates H I scope f m
      (.ok (.func (.closure m.closures.size) (params.map Param.ty) ret),
        m.keeping ⟨params, body, ret, scope, I⟩) := evaluates_lambda hf hty
  have hall : EvaluatesAll H I scope operands (m.keeping ⟨params, body, ret, scope, I⟩)
      (.ok args, m.keeping ⟨params, body, ret, scope, I⟩) := evaluatesAll_constants hconstants
  obtain ⟨n, hlambda, hall⟩ :=
    (hlambda.eventually.and hall.eventually).exists
  refine evaluates_iff.mpr ⟨n, ?_⟩
  unfold evalNode
  rw [he]
  refine (run_bind_of_ok hlambda).trans ((run_bind_of_ok hall).trans ?_)
  rw [invokeValue, List.length_map, if_pos harity]
  rfl

end Interpreted

/-! ## Whole uses -/

/-- The machine with one more frame, which is empty. -/
def Machine.rooted (m : Machine σ) : Machine σ :=
  { m with store := (m.store.push [] none).2 }

section Whole

variable {H : Host σ} {I : Interp} {m : Machine σ} {e f body : Expr}
  {params : List Param} {tys : List Ty} {ret : Ty} {operands : List Expr} {args : List Value}

/-- A compiled lambda activates a closure of its own in a frame of its own. -/
theorem ends_invoke_iff {c : Compiled} (harity : args.length = c.params.length)
    {z : Except EvalError Value × Machine σ} :
    Ends (fun n => c.invoke H n args) m z ↔ ∃ r k,
      Activates H (c.closure (.single m.store.frames.size)) args m.rooted (r, k) ∧
        Ends (fun n => reported H n r) k z := by
  have hinvoke : ∀ n, c.invoke H n args m = finish H n
      (callClosure (engine H n) (c.closure (.single m.store.frames.size)) args) m.rooted := by
    intro n
    rw [Compiled.invoke, if_neg (not_not_intro harity)]
    rfl
  rw [Ends]
  simp only [hinvoke]
  exact ends_finish_iff (m := m.rooted) (grows_callClosure H _ args)

theorem invoke_of_arity {c : Compiled} (harity : args.length ≠ c.params.length) (n : Nat) :
    c.invoke H n args m =
      some (.error (.fault (.arityMismatch c.params.length args.length)), m) := by
  rw [Compiled.invoke, if_pos harity]
  rfl

theorem ends_evaluateClosed_iff (he : e.freeParameters = [])
    {z : Except EvalError Value × Machine σ} :
    Ends (fun n => evaluateClosed H n I e) m z ↔ ∃ r k,
      Evaluates H I (.single m.store.frames.size) e m.rooted (r, k) ∧
        Ends (fun n => reported H n r) k z := by
  unfold evaluateClosed
  rw [he]
  exact ends_finish_iff (m := m.rooted) (grows_eval H I _ e)

theorem grows_evaluateClosed (e : Expr) : Grows fun n => evaluateClosed H n I e := by
  unfold evaluateClosed
  split
  · exact fun _ _ _ _ _ h => h
  · exact fun n n' hn m => grows_finish (grows_eval H I _ e) n n' hn m.rooted

/-- On the machine on which the lambda has become a closure, the compiled path and the interpreted
one activate the same closure. -/
theorem evaluateClosed_of_invoke (hclosed : e.freeParameters = [])
    (he : e.shape = .invoke f operands) (hf : f.shape = .lambda params body)
    (hty : f.ty = .func tys ret) (hconstants : Holding operands args)
    {r : Except EvalError Value} {k : Machine σ}
    (h : Ends (fun n => (⟨I, params, body, ret⟩ : Compiled).invoke H n args)
      (m.keeping ⟨params, body, ret, .single m.store.frames.size, I⟩) (r, k)) :
    ∃ k', Ends (fun n => evaluateClosed H n I e) m (delivered r, k') ∧ k.Matches k' := by
  by_cases harity : args.length = params.length
  · obtain ⟨y, k₁, hactivates, hreport⟩ := (ends_invoke_iff harity).mp h
    obtain ⟨k', hreport', hmatches⟩ := reported_crossed hreport
    refine ⟨k', (ends_evaluateClosed_iff hclosed).mpr ⟨_, _, ?_, hreport'⟩, hmatches⟩
    exact (evaluates_invocation he hf hty (evaluatesAll_constants hconstants)
      (harity.symm.trans hconstants.length_eq.symm)).mpr ⟨(y, k₁), hactivates, rfl⟩
  · obtain ⟨n, hn⟩ := h
    cases (invoke_of_arity harity n).symm.trans hn
    have hevaluates : Evaluates H I (.single m.store.frames.size) e m.rooted
        (.error (.fault (.arityMismatch params.length args.length)),
          m.rooted.keeping ⟨params, body, ret, .single m.store.frames.size, I⟩) :=
      evaluates_invocation_of_arity he hf hty hconstants (Ne.symm harity)
    refine ⟨_, (ends_evaluateClosed_iff hclosed).mpr ⟨_, _, hevaluates, 0, rfl⟩, rfl, rfl, ?_⟩
    exact fun g => (Store.frame_push m.store [] none g).symm

/-- Neither of the two paths ends alone. -/
theorem invoke_of_evaluateClosed (hclosed : e.freeParameters = [])
    (he : e.shape = .invoke f operands) (hf : f.shape = .lambda params body)
    (hty : f.ty = .func tys ret) (hconstants : Holding operands args)
    {z : Except EvalError Value × Machine σ} (h : Ends (fun n => evaluateClosed H n I e) m z) :
    ∃ r k, Ends (fun n => (⟨I, params, body, ret⟩ : Compiled).invoke H n args)
      (m.keeping ⟨params, body, ret, .single m.store.frames.size, I⟩) (r, k) := by
  by_cases harity : args.length = params.length
  · obtain ⟨r', k', hevaluates, hreport⟩ := (ends_evaluateClosed_iff hclosed).mp h
    obtain ⟨⟨y, k₁⟩, hactivates, heq⟩ :=
      (evaluates_invocation he hf hty (evaluatesAll_constants hconstants)
        (harity.symm.trans hconstants.length_eq.symm)).mp hevaluates
    have hcrossed : Ends (fun n => reported H n (crossed (y, k₁)).1) (crossed (y, k₁)).2 z := by
      rw [← heq]
      exact hreport
    obtain ⟨r, k, hreport⟩ := reported_of_crossed hcrossed
    exact ⟨r, k, (ends_invoke_iff harity).mpr ⟨y, k₁, hactivates, hreport⟩⟩
  · exact ⟨_, _, 0, invoke_of_arity harity 0⟩

end Whole

/-! ## The two paths side by side -/

theorem Value.asFault?_like {w : World} {ok : Fault → Prop} {x y : Value}
    (h : ValueLike w ok x y) : x.asFault? = y.asFault? := by
  cases h <;> rfl

/-- Results that are alike are delivered alike. -/
theorem ResultLike.delivered {w : World} {r r' : Except EvalError Value}
    (h : ResultLike w (fun _ => True) r r') :
    ResultLike w (fun _ => True) (delivered r) (delivered r') := by
  cases h with
  | ok value => exact .ok value
  | error exit =>
    cases exit with
    | fault allowed => exact .error (.fault allowed)
    | @unhandled text x y thrown =>
      cases hx : x.asFault? with
      | none =>
        rw [delivered_unhandled hx, delivered_unhandled ((Value.asFault?_like thrown).symm.trans hx)]
        exact .error (.unhandled text thrown)
      | some f =>
        rw [delivered_of_asFault? hx,
          delivered_of_asFault? ((Value.asFault?_like thrown).symm.trans hx)]
        exact .error (.fault trivial)

/-- A machine's frames in a footprint are like themselves. -/
theorem Footprint.Within.frameLike {fp : Footprint} {m : Machine σ} (h : fp.Within m) {f : Nat}
    (hf : fp.frames f) :
    FrameLike (World.showing fp) (fun _ => True) (m.store.frame f) (m.store.frame f) :=
  List.forall₂_same.mpr fun x hx => ⟨rfl, .of_knows (le_refl _) (h.bindings f hf x hx)⟩

section Compiling

variable {I : Interp} {f body : Expr} {params : List Param} {tys : List Ty} {ret : Ty}

/-- A lambda without free parameters is compiled to what it is a closure of. -/
theorem compile_lambda_of_closed (hf : f.shape = .lambda params body) (hty : f.ty = .func tys ret)
    (hclosed : body.freeUnder params = []) : compile I f = .ok ⟨I, params, body, ret⟩ := by
  unfold compile
  rw [hf, hty]
  simp only [hclosed]
  rfl

theorem compile_lambda_of_open (hf : f.shape = .lambda params body) {p : Param} {ps : List Param}
    (hopen : body.freeUnder params = p :: ps) :
    compile I f = .error (.fault (.unboundParameter p.displayName)) := by
  unfold compile
  rw [hf]
  simp only [hopen]

end Compiling

section Alike

variable {fp : Footprint} {same : World → σ → σ → Prop}

/-- Machines that match end alike with what machines end alike with. -/
theorem Use.EndsAlike.delivered {w : World} {r r' : Except EvalError Value}
    {m₁ k k' : Machine σ} (h : Use.EndsAlike fp same w (.whole r, m₁) (.whole r', k))
    (hmatches : k.Matches k') :
    Use.EndsAlike fp same w (.whole (delivered r), m₁) (.whole (delivered r'), k') := by
  obtain ⟨habove, hresult, hhost, hframes, hdepths⟩ := h
  cases hresult with
  | whole hresult =>
    refine ⟨habove, .whole hresult.delivered, ?_, fun f hf => ?_, hdepths.trans hmatches.depths⟩
    · exact hmatches.host ▸ hhost
    · exact hmatches.frames f ▸ hframes f hf

/-- A compiled lambda that ends on one machine ends alike on one that agrees with it. -/
theorem invoke_alike {H : Host σ}
    (hsame : ∀ {w w' : World}, w ≤ w' → ∀ {s t : σ}, same w s t → same w' s t)
    (hH : (beside fp same hsame).HostLike H) {m m' k : Machine σ} (hagrees : fp.Agrees m m')
    (hhost : same (World.showing fp) m.host m'.host) {c : Compiled}
    (hbody : c.body.Constants fp.Knows) {args : List Value} (hargs : ∀ v ∈ args, fp.Knows v)
    {n : Nat} {r : Except EvalError Value} (h : c.invoke H n args m = some (r, k)) :
    ∃ r' k' w, c.invoke H n args m' = some (r', k') ∧
      Use.EndsAlike fp same w (.whole r, k) (.whole r', k') := by
  have hrun : (Use.invoke c args).run H n m = some (.whole r, k) :=
    Option.bind_eq_some_iff.mpr ⟨(r, k), h, rfl⟩
  obtain ⟨y, w, hrun', halike⟩ := Use.alike hH hagrees hhost (u := .invoke c args)
    ⟨hbody, hargs⟩ hrun
  obtain ⟨⟨r', k'⟩, hinvoke, hy⟩ := Option.bind_eq_some_iff.mp hrun'
  cases hy
  exact ⟨r', k', w, hinvoke, halike⟩

end Alike

/-- Neither path ends without the other, and the interpreted one ends alike with what the compiled
one delivers. -/
theorem compiled_delivers_interpreted {H : Host σ} {fp : Footprint}
    {same : World → σ → σ → Prop}
    (hsame : ∀ {w w' : World}, w ≤ w' → ∀ {s t : σ}, same w s t → same w' s t)
    (hH : (beside fp same hsame).HostLike H) {m : Machine σ} (hm : fp.Within m)
    (hhost : same (World.showing fp) m.host m.host) (I : Interp) {f body : Expr}
    {params : List Param} {tys : List Ty} {ret : Ty} (hf : f.shape = .lambda params body)
    (hty : f.ty = .func tys ret) (hconstants : f.Constants fp.Knows) {args : List Value}
    (hargs : ∀ v ∈ args, fp.Knows v) (next : Nat) :
    (∀ r m₁, Ends (fun n => compileAndInvoke H n I f args) m (r, m₁) →
      ∃ r' m₂ w, Ends (fun n => evaluateClosed H n I (f.invokedOn args next).1) m (r', m₂) ∧
        Use.EndsAlike fp same w (.whole (delivered r), m₁) (.whole r', m₂)) ∧
    (∀ r' m₂, Ends (fun n => evaluateClosed H n I (f.invokedOn args next).1) m (r', m₂) →
      ∃ r m₁ w, Ends (fun n => compileAndInvoke H n I f args) m (r, m₁) ∧
        Use.EndsAlike fp same w (.whole (delivered r), m₁) (.whole r', m₂)) := by
  obtain ⟨operands, he, hholding⟩ := shape_invokedOn f args next
  generalize (f.invokedOn args next).1 = e at he ⊢
  have hfree : e.freeParameters = body.freeUnder params := freeParameters_invocation he hf hholding
  cases hopen : body.freeUnder params with
  | cons p ps =>
    -- both refuse the free parameter, before anything is evaluated
    have hcompiled : ∀ n, compileAndInvoke H n I f args m =
        some (.error (.fault (.unboundParameter p.displayName)), m) := fun n => by
      rw [compileAndInvoke, compile_lambda_of_open hf hopen]
      rfl
    have hinterpreted : ∀ n, evaluateClosed H n I e m =
        some (.error (.fault (.unboundParameter p.displayName)), m) := fun n => by
      rw [evaluateClosed, hfree, hopen]
      rfl
    have halike : Use.EndsAlike fp same (World.showing fp)
        (.whole (.error (.fault (.unboundParameter p.displayName))), m)
        (.whole (.error (.fault (.unboundParameter p.displayName))), m) :=
      ⟨le_refl _, .whole (.error (.fault trivial)), hhost, fun _ hg => hm.frameLike hg, rfl⟩
    constructor
    · rintro r m₁ ⟨n, hn⟩
      cases (hcompiled n).symm.trans hn
      exact ⟨_, _, _, ⟨n, hinterpreted n⟩, halike⟩
    · rintro r' m₂ ⟨n, hn⟩
      cases (hinterpreted n).symm.trans hn
      exact ⟨_, _, _, ⟨n, hcompiled n⟩, halike⟩
  | nil =>
    have hclosed := hfree.trans hopen
    have hcompiled : (fun n => compileAndInvoke H n I f args) =
        fun n => (⟨I, params, body, ret⟩ : Compiled).invoke H n args := by
      funext n
      rw [compileAndInvoke, compile_lambda_of_closed hf hty hopen]
    -- the compiled lambda is invoked on the machine itself and on the one that keeps the closure
    have hbody : body.Constants fp.Knows := hconstants.child (by
      rw [Expr.children, hf]
      exact List.mem_singleton_self _)
    have hgrown : Grown (fun _ => False) m
        (m.keeping ⟨params, body, ret, .single m.store.frames.size, I⟩) := .addClosure m _
    have hagrees := hm.agrees hgrown (fun _ _ => rfl) rfl
    have hforward : ∀ r m₁,
        Ends (fun n => (⟨I, params, body, ret⟩ : Compiled).invoke H n args) m (r, m₁) →
        ∃ r' m₂ w, Ends (fun n => evaluateClosed H n I e) m (r', m₂) ∧
          Use.EndsAlike fp same w (.whole (delivered r), m₁) (.whole r', m₂) := by
      rintro r m₁ ⟨n, hn⟩
      obtain ⟨r₁, k, w, hinvoke, halike⟩ := invoke_alike hsame hH hagrees hhost hbody hargs hn
      obtain ⟨k', hinterpreted, hmatches⟩ :=
        evaluateClosed_of_invoke hclosed he hf hty hholding ⟨n, hinvoke⟩
      exact ⟨_, k', w, hinterpreted, halike.delivered hmatches⟩
    rw [hcompiled]
    refine ⟨hforward, fun r' m₂ hinterpreted => ?_⟩
    obtain ⟨r₁, k, n, hn⟩ := invoke_of_evaluateClosed hclosed he hf hty hholding hinterpreted
    obtain ⟨r, m₁, -, hinvoke, -⟩ := invoke_alike hsame hH hagrees.symm hhost hbody hargs hn
    obtain ⟨r'', m₂', w, hinterpreted', halike⟩ := hforward r m₁ ⟨n, hinvoke⟩
    cases Ends.unique (grows_evaluateClosed e) hinterpreted hinterpreted'
    exact ⟨r, m₁, w, ⟨n, hinvoke⟩, halike⟩

/-! ## Agreement -/

/-- What the compiled path and the interpreted one end with. They end alike, unless what escapes
from the lambda is an object that carries a fault: then the compiled path reports the object, and
the interpreted path ends as a compiled one does that reports the fault. -/
structure PathsAgree (fp : Footprint) (same : World → σ → σ → Prop) (w : World)
    (compiled interpreted : Except EvalError Value × Machine σ) : Prop where
  alike : escapedFault? compiled.1 = none →
    Use.EndsAlike fp same w (.whole compiled.1, compiled.2) (.whole interpreted.1, interpreted.2)
  unwrapped : ∀ fault, escapedFault? compiled.1 = some fault →
    Use.EndsAlike fp same w (.whole (.error (.fault fault)), compiled.2)
      (.whole interpreted.1, interpreted.2)

/-- Paths agree if the one ends alike with what the other delivers. -/
theorem PathsAgree.of_delivered {fp : Footprint} {same : World → σ → σ → Prop} {w : World}
    {r r' : Except EvalError Value} {m₁ m₂ : Machine σ}
    (h : Use.EndsAlike fp same w (.whole (delivered r), m₁) (.whole r', m₂)) :
    PathsAgree fp same w (r, m₁) (r', m₂) where
  alike hnone := by rwa [delivered_of_escapedFault?_eq_none hnone] at h
  unwrapped fault hsome := by rwa [delivered_of_escapedFault? hsome] at h

/-- The compiled path agrees with the interpreted one. Let a lambda of a function type and any
arguments be given, on a machine where they exist, and host code that treats alike what is alike.
Compiling the lambda and invoking it ends, for some fuel, if and only if evaluating its invocation
on the arguments as constants does, and then the two end alike: with one value or one error, up to
the identities of what they have made, with host states that are related again, and with the
counters and the footprint as each other's. The one exception is a lambda that lets an object escape
that carries a fault, which a tree cannot get at unless host code has kept it: compiled, it ends with
the object unhandled, and interpreted with the fault itself, the rest alike. -/
theorem compiled_agrees_with_interpreted {H : Host σ} {fp : Footprint}
    {same : World → σ → σ → Prop}
    (hsame : ∀ {w w' : World}, w ≤ w' → ∀ {s t : σ}, same w s t → same w' s t)
    (hH : (beside fp same hsame).HostLike H) {m : Machine σ} (hm : fp.Within m)
    (hhost : same (World.showing fp) m.host m.host) (I : Interp) {f body : Expr}
    {params : List Param} {tys : List Ty} {ret : Ty} (hf : f.shape = .lambda params body)
    (hty : f.ty = .func tys ret) (hconstants : f.Constants fp.Knows) {args : List Value}
    (hargs : ∀ v ∈ args, fp.Knows v) (next : Nat) :
    (∀ r m₁, Ends (fun n => compileAndInvoke H n I f args) m (r, m₁) →
      ∃ r' m₂ w, Ends (fun n => evaluateClosed H n I (f.invokedOn args next).1) m (r', m₂) ∧
        PathsAgree fp same w (r, m₁) (r', m₂)) ∧
    (∀ r' m₂, Ends (fun n => evaluateClosed H n I (f.invokedOn args next).1) m (r', m₂) →
      ∃ r m₁ w, Ends (fun n => compileAndInvoke H n I f args) m (r, m₁) ∧
        PathsAgree fp same w (r, m₁) (r', m₂)) := by
  obtain ⟨hforth, hback⟩ :=
    compiled_delivers_interpreted hsame hH hm hhost I hf hty hconstants hargs next
  constructor
  · intro r m₁ hcompiled
    obtain ⟨r', m₂, w, hinterpreted, hends⟩ := hforth r m₁ hcompiled
    exact ⟨r', m₂, w, hinterpreted, .of_delivered hends⟩
  · intro r' m₂ hinterpreted
    obtain ⟨r, m₁, w, hcompiled, hends⟩ := hback r' m₂ hinterpreted
    exact ⟨r, m₁, w, hcompiled, .of_delivered hends⟩

namespace Sample

/-- A lambda that throws what it is given. -/
def thrower : Expr :=
  .mk 3 (.lambda [⟨0, some "x", .object⟩]
    (.mk 2 (.throw (some (.mk 1 (.parameter ⟨0, some "x", .object⟩) .object))) .void))
    (.func [.object] .void)

end Sample

open Sample in
/-- A thrown argument escapes from the compiled lambda and from its invocation. -/
theorem thrown_argument_escapes_alike : ∃ m₁ m₂ w,
    Ends (fun n => compileAndInvoke silent n ⟨0, 1⟩ thrower [.int 7]) counting
      (.error (.unhandled "7" (.int 7)), m₁) ∧
    Ends (fun n => evaluateClosed silent n ⟨0, 1⟩ (thrower.invokedOn [.int 7] 4).1) counting
      (.error (.unhandled "7" (.int 7)), m₂) ∧
    Use.EndsAlike (idsBelow 4) (fun _ => Eq) w (.whole (.error (.unhandled "7" (.int 7))), m₁)
      (.whole (.error (.unhandled "7" (.int 7))), m₂) := by
  have hwithin : (idsBelow 4).Within counting :=
    ⟨Nat.le_refl 4, fun _ h => h.elim, fun _ h => h.elim, fun _ h => h.elim⟩
  have hconstants : thrower.Constants (idsBelow 4).Knows := by
    -- the tree has no constants
    intro e he v hv
    have hnodes : e ∈ [thrower, _, _] := he
    rcases List.mem_cons.mp hnodes with rfl | hnodes
    · cases hv
    · rcases List.mem_cons.mp hnodes with rfl | hnodes
      · cases hv
      · cases List.mem_singleton.mp hnodes
        cases hv
  have hargs : ∀ v ∈ [Value.int 7], (idsBelow 4).Knows v :=
    List.forall_mem_singleton.mpr (List.forall_mem_nil _)
  obtain ⟨m₁, hcompiled⟩ : ∃ m₁, Ends (fun n => compileAndInvoke silent n ⟨0, 1⟩ thrower [.int 7])
      counting (.error (.unhandled "7" (.int 7)), m₁) := ⟨_, 3, rfl⟩
  obtain ⟨r', m₂, w, hinterpreted, hagree⟩ := (compiled_agrees_with_interpreted _
    (silent_like (beside (idsBelow 4) (fun _ => Eq) fun _ _ _ h => h)) hwithin rfl ⟨0, 1⟩ rfl rfl
    hconstants hargs 4).1 _ m₁ hcompiled
  -- an integer carries no fault
  have halike := hagree.alike rfl
  refine ⟨m₁, m₂, w, hcompiled, ?_⟩
  cases halike.result with
  | whole hresult =>
    cases hresult with
    | error error =>
      cases error with
      | unhandled text thrown =>
        cases thrown
        exact ⟨hinterpreted, halike⟩

namespace Sample

/-- Host code that calls what it is handed, and returns what it gets back, be it returned or
thrown. -/
def keeper : Host Unit where
  run _ _ args :=
    match args with
    | [.func callback _ _] => .call callback [] fun
      | .ok v => .done (.ok v)
      | .error v => .done (.ok v)
    | _ => .done (.ok .null)
  get _ _ _ := .done (.ok .null)
  invoke _ _ _ _ := .done (.ok .null)

/-- Throws what the host has kept of a lambda that jumps out of itself. -/
def keptThrow : Expr :=
  .mk 4 (.throw (some (.mk 3 (.call none (.static "keep" .object [.func [] .void] .object 0)
    [.mk 2 (.lambda [] (.mk 1 (.jump .goto ⟨0, some "out", .void⟩ none) .void)) (.func [] .void)])
      .object))) .void

/-- The lambda that does so. -/
def keptThrower : Expr := .mk 5 (.lambda [] keptThrow) (.func [] .void)

/-- A machine on which six identities have been handed out. -/
def untouched : Machine Unit := ⟨6, .empty, #[], #[0], ()⟩

end Sample

open Sample in
/-- What host code has kept escapes as an object from the compiled lambda, and as the fault that the
object carries from its invocation. -/
theorem kept_fault_escapes_differently : ∃ text v m₁ m₂,
    v.asFault? = some (.unresolvedLabel "out#0") ∧
    Ends (fun n => compileAndInvoke keeper n ⟨0, 4⟩ keptThrower []) untouched
      (.error (.unhandled text v), m₁) ∧
    Ends (fun n => evaluateClosed keeper n ⟨0, 4⟩ (keptThrower.invokedOn [] 6).1) untouched
      (.error (.fault (.unresolvedLabel "out#0")), m₂) ∧
    ∀ fp same w, ¬Use.EndsAlike fp same w (.whole (.error (.unhandled text v)), m₁)
      (.whole (.error (.fault (.unresolvedLabel "out#0"))), m₂) := by
  refine ⟨_, .object 6 .evaluationFault (.fault (.unresolvedLabel "out#0")), _, _,
    rfl, ⟨8, rfl⟩, ⟨8, rfl⟩, fun fp same w h => ?_⟩
  cases h.result with
  | whole hresult =>
    cases hresult with
    | error herror => cases herror

end CodeTree
