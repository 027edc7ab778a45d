import CodeTree.Compile
import CodeTree.Proofs.Fuel

/-!
# Activations in progress

`evalNested` evaluates as `eval` does, but carries the list of activations in progress: one entry,
the number of its interpreter, for each closure that has been entered and not yet left, whether a
tree or host code called it. At every node and at every call it checks that the counters are those
of the list (`Counts`), and gives no answer if they are not. Whether an activation is refused is
decided by the list alone: it is when there are as many activations of its interpreter as the
limit allows.

That the two evaluators do the same therefore says that the counters are exact throughout. It is
proved with the two side by side (`nested_engines`): a layer adds nothing to the list, and
`activate_runs` is the step from the list before an activation to the one in it.

A `Use` is what one may do with an interpreter from outside.

* `refused_iff` — which activations are refused;
* `Use.runNested_eq` — a use is the same to both evaluators;
* `Use.after_run`, `Use.Runs.depths_eq` — uses leave the counters as they found them.
-/

namespace CodeTree

variable {σ : Type}

/-! ## The evaluator that knows what is in progress -/

/-- The counters say how many activations of each interpreter are in progress, and there are no more
of them than its limit allows. -/
def Counts (limits : Nat → Nat) (depths : Array Nat) (active : List Nat) : Prop :=
  ∀ i < depths.size, depths.getD i 0 = active.count i ∧ active.count i ≤ limits i

instance (limits : Nat → Nat) (depths : Array Nat) (active : List Nat) :
    Decidable (Counts limits depths active) :=
  inferInstanceAs (Decidable (∀ i < depths.size, _))

/-- An activation, which is refused when as many are in progress as the limit allows. The engine of
its body is the one for the longer list. -/
def activate (E : List Nat → Engine σ) (active : List Nat) (c : Closure) (args : List Value) :
    Run σ Value := do
  let _ ← Run.step (Step.enter c.interp)
  let outcome ← Run.step (if active.count c.interp.id = c.interp.limit then
      Run.fault (.stackOverflow c.interp.limit)
    else runClosure (E (c.interp.id :: active)) c args 0).run
  Run.step (Step.leave c.interp)
  Run.resume outcome

/-- A call of a callable while activations are in progress. -/
def applyIn (H : Host σ) (E : List Nat → Engine σ) (active : List Nat) (ref : FuncRef)
    (args : List Value) : Step σ Reply :=
  match ref with
  | .hosted code => Step.play (E active).apply (H.run code none args)
  | .closure index => do
    match ← Step.closure? index with
    | some c => (activate E active c args).toReply
    | none => Run.toReply.faulted (.unsupported "call of a closure that was never made")

section Nested

variable (H : Host σ) (limits : Nat → Nat)

mutual
/-- Evaluates a tree while activations are in progress, as long as the counters are exact. -/
def evalNested : Nat → List Nat → Interp → Scope → Expr → Run σ Value
  | 0, _, _, _, _ => .step .outOfFuel
  | n + 1, active, I, scope, e => fun m =>
    if Counts limits m.depths active then
      evalNode H ⟨n, evalNested n active, applyNested n active⟩ I scope e m
    else none
/-- Calls a callable while activations are in progress, as long as the counters are exact. -/
def applyNested : Nat → List Nat → FuncRef → List Value → Step σ Reply
  | 0, _, _, _ => .outOfFuel
  | n + 1, active, ref, args => fun m =>
    if Counts limits m.depths active then
      applyIn H (fun active => ⟨n, evalNested n active, applyNested n active⟩) active ref args m
    else none
end

/-- The engine of a given fuel while activations are in progress. -/
def engineNested (fuel : Nat) (active : List Nat) : Engine σ :=
  ⟨fuel, evalNested H limits fuel active, applyNested H limits fuel active⟩

end Nested

/-! ## Counting -/

/-- An interpreter that the machine counts for, with its limit. -/
def Interp.Registered (limits : Nat → Nat) (size : Nat) (I : Interp) : Prop :=
  I.id < size ∧ I.limit = limits I.id

section Counting

variable {limits : Nat → Nat} {depths : Array Nat} {active : List Nat} {I : Interp}

theorem Counts.depth (h : Counts limits depths active) (hI : I.Registered limits depths.size) :
    depths.getD I.id 0 = active.count I.id :=
  (h I.id hI.1).1

theorem Counts.le_limit (h : Counts limits depths active)
    (hI : I.Registered limits depths.size) : active.count I.id ≤ I.limit :=
  hI.2 ▸ (h I.id hI.1).2

/-- One more activation, if the limit allows it. -/
theorem Counts.enter (h : Counts limits depths active) (hI : I.Registered limits depths.size)
    (hlimit : active.count I.id ≠ I.limit) :
    Counts limits (depths.modify I.id (· + 1)) (I.id :: active) := by
  intro i hi
  rw [Array.size_modify] at hi
  obtain ⟨hdepth, hle⟩ := h i hi
  rw [Array.getD_eq_getD_getElem?, Array.getElem?_modify, List.count_cons]
  rw [Array.getD_eq_getD_getElem?] at hdepth
  by_cases hid : I.id = i
  · subst hid
    have hlt := Nat.lt_of_le_of_ne (h.le_limit hI) hlimit
    rw [hI.2] at hlt
    rw [if_pos rfl, beq_self_eq_true, if_pos rfl]
    rw [Array.getElem?_eq_getElem hi] at hdepth ⊢
    refine ⟨congrArg (· + 1) hdepth, hlt⟩
  · rw [if_neg hid, beq_eq_false_iff_ne.mpr hid, if_neg Bool.false_ne_true]
    exact ⟨hdepth, hle⟩

/-- The counters refuse what the list refuses. -/
theorem Counts.limit_lt_iff (h : Counts limits depths active)
    (hI : I.Registered limits depths.size) :
    I.limit < depths.getD I.id 0 + 1 ↔ active.count I.id = I.limit := by
  have hle := h.le_limit hI
  rw [h.depth hI]
  omega

end Counting

/-! ## Activations -/

section Activations

variable {limits : Nat → Nat} {active : List Nat} {c : Closure} {args : List Value} {m : Machine σ}

/-- What is refused is refused before anything else. -/
theorem runClosure_eq (E : Engine σ) (c : Closure) (args : List Value) (depth : Nat) :
    runClosure E c args depth = if c.interp.limit < depth then
      Run.fault (.stackOverflow c.interp.limit) else runClosure E c args 0 := by
  unfold runClosure
  split
  · rfl
  · rw [if_neg (Nat.not_lt_zero _)]

/-- While the counters are exact, they refuse the activations that the list refuses. -/
theorem activate_eq (E : List Nat → Engine σ) (h : Counts limits m.depths active)
    (hI : c.interp.Registered limits m.depths.size) :
    (activate E active c args).run m =
      (callClosure (E (c.interp.id :: active)) c args).run m := by
  have hinner : (if active.count c.interp.id = c.interp.limit then
      Run.fault (.stackOverflow c.interp.limit)
      else runClosure (E (c.interp.id :: active)) c args 0) =
        runClosure (E (c.interp.id :: active)) c args (m.depths.getD c.interp.id 0 + 1) := by
    rw [runClosure_eq _ _ _ (m.depths.getD c.interp.id 0 + 1)]
    simp only [h.limit_lt_iff hI]
  unfold activate
  rw [hinner]
  rfl

/-- A refused activation is the same for all engines, and leaves the machine as it was. -/
theorem callClosure_of_refused (E : Engine σ) (h : Counts limits m.depths active)
    (hI : c.interp.Registered limits m.depths.size)
    (hlimit : active.count c.interp.id = c.interp.limit) :
    (callClosure E c args).run m = some (.error (.fault (.stackOverflow c.interp.limit)), m) := by
  rw [Setting.callClosure_run, runClosure_eq, if_pos ((h.limit_lt_iff hI).mpr hlimit)]
  show some (_, { m with depths := (m.depths.modify _ (· + 1)).modify _ (· - 1) }) = _
  rw [Setting.modify_succ_pred]

/-- An activation is refused, whatever its body and its arguments are, exactly when as many are in
progress as the limit allows. -/
theorem refused_iff (h : Counts limits m.depths active)
    (hI : c.interp.Registered limits m.depths.size) :
    active.count c.interp.id = c.interp.limit ↔ ∀ (E : Engine σ) args,
      (callClosure E c args).run m =
        some (.error (.fault (.stackOverflow c.interp.limit)), m) := by
  constructor
  · exact fun hlimit E args => callClosure_of_refused E h hI hlimit
  · intro hall
    by_contra hlimit
    -- a body that does not end, and no arguments
    have hrun := hall ⟨0, fun _ _ _ => .step .outOfFuel, fun _ _ => .outOfFuel⟩ []
    rw [Setting.callClosure_run, runClosure_eq, if_neg (mt (h.limit_lt_iff hI).mp hlimit)] at hrun
    unfold runClosure at hrun
    rw [if_neg (Nat.not_lt_zero _)] at hrun
    split at hrun
    · cases hrun
    · obtain ⟨y, hbody, -⟩ := Option.map_eq_some_iff.mp hrun
      cases (Lockstep.opening_run c.scope none (c.params.zip []) _ _).symm.trans hbody

end Activations

/-! ## The two evaluators side by side -/

/-- All closures of the machine belong to registered interpreters. -/
def Machine.Registers (limits : Nat → Nat) (m : Machine σ) : Prop :=
  ∀ (i : Nat) c, m.closures[i]? = some c → c.interp.Registered limits m.depths.size

section SideBySide

variable {limits : Nat → Nat} {active : List Nat}

/-- The same evaluation on both sides, all interpreters of which are registered. -/
abbrev counted (limits : Nat → Nat) (size : Nat) : Lockstep Still :=
  Lockstep.diagonal True (fun _ => True) fun P => P.interp.Registered limits size

theorem counted_invariant (limits : Nat → Nat) (size : Nat) :
    Lockstep.Invariant (fun _ => True) fun P : Place => P.interp.Registered limits size :=
  ⟨fun _ _ _ => trivial, fun _ _ _ _ _ _ _ _ => trivial, fun _ _ h _ => h, fun _ h _ _ _ => h⟩

/-- What is checked holds as long as the counters are these. -/
theorem steps_of_counts {α β : Type} {size : Nat} {d : Array Nat} (h : Counts limits d active)
    {R : α → β → Prop} {x : Step σ α} {y : Step σ β} (hxy : (counted limits size).Steps d ⟨⟩ R x y) :
    (counted limits size).Steps d ⟨⟩ R
      (fun m => if Counts limits m.depths active then x m else none) y := by
  intro m₁ m₂ hm
  dsimp only
  rw [if_pos (hm.depths₁ ▸ h)]
  exact hxy m₁ m₂ hm

/-- Activations go side by side if all engines do. -/
theorem activate_runs (H : Host σ) {n size : Nat} {d : Array Nat} (hsize : d.size = size)
    (hcounts : Counts limits d active)
    (hE : ∀ (active : List Nat) (d : Array Nat), d.size = size → Counts limits d active →
      (counted limits size).Engines d (engineNested H limits n active) (engine H n))
    {c : Closure} (hc : (counted limits size).ClosureLike ⟨⟩ c c)
    (hI : c.interp.Registered limits size) (args : List Value) :
    (counted limits size).Runs d ⟨⟩ Eq (activate (engineNested H limits n) active c args)
      (callClosure (engine H n) c args) := by
  intro m₁ m₂ hm
  have hcounts₁ : Counts limits m₁.depths active := hm.depths₁ ▸ hcounts
  have hcounts₂ : Counts limits m₂.depths active := hm.depths₂ ▸ hcounts
  have hI₁ : c.interp.Registered limits m₁.depths.size := by
    rw [hm.depths₁, hsize]
    exact hI
  have hI₂ : c.interp.Registered limits m₂.depths.size := by
    rw [hm.depths₂, hsize]
    exact hI
  rw [activate_eq _ hcounts₁ hI₁]
  by_cases hlimit : active.count c.interp.id = c.interp.limit
  · rw [callClosure_of_refused _ hcounts₁ hI₁ hlimit, callClosure_of_refused _ hcounts₂ hI₂ hlimit]
    exact .ended ⟨⟨⟩, trivial, hm, .error rfl⟩
  · refine Lockstep.Runs.callClosure (hE _ _ ?_ (hcounts.enter (hsize ▸ hI) hlimit)) hc args m₁ m₂ hm
    rw [Array.size_modify, hsize]

/-- The evaluator that knows what is in progress does what the other one does, whatever is in
progress. -/
theorem nested_engines (H : Host σ) {size : Nat} : ∀ (n : Nat) (active : List Nat) (d : Array Nat),
    d.size = size → Counts limits d active →
    (counted limits size).Engines d (engineNested H limits n active) (engine H n)
  | 0, active, d, _, _ =>
    { rounds := Nat.le_refl 0
      rounds_eq := fun _ => rfl
      eval := fun w P Q _ m₁ m₂ _ => by
        show EndsLike _ _ ((evalNested H limits 0 active P.interp P.scope P.tree).run m₁)
          ((eval H 0 Q.interp Q.scope Q.tree).run m₂)
        rw [evalNested, eval]
        exact .neither
      apply := fun w ref args m₁ m₂ _ => by
        show EndsLike _ _ (applyNested H limits 0 active ref args m₁) (apply H 0 ref args m₂)
        rw [applyNested, apply]
        exact .neither }
  | n + 1, active, d, hsize, hcounts =>
    have hlawful : (counted limits size).Lawful H := (counted_invariant limits size).lawful H
    have ih := nested_engines H n active d hsize hcounts
    { rounds := Nat.le_refl _
      rounds_eq := fun _ => rfl
      eval := fun w P Q hplace => by
        show (counted limits size).Runs d w Eq
          (evalNested H limits (n + 1) active P.interp P.scope P.tree)
          (eval H (n + 1) Q.interp Q.scope Q.tree)
        rw [evalNested, eval]
        refine steps_of_counts hcounts ?_
        rcases hlawful w P Q hplace with ⟨C, hlayer⟩ | hdirect
        · exact Lockstep.Runs.evalNode ih H hlayer
        · exact hdirect d _ _ ih
      apply := fun w ref args => by
        show (counted limits size).Steps d w Eq (applyNested H limits (n + 1) active ref args)
          (apply H (n + 1) ref args)
        rw [applyNested, apply]
        refine steps_of_counts hcounts ?_
        cases ref with
        | hosted code => exact Lockstep.Steps.play ih.apply _ w
        | closure index =>
          intro m₁ m₂ hm
          obtain rfl : m₁ = m₂ := hm.eq
          cases hc : m₁.closures[index]? with
          | none =>
            rw [Setting.applyRef_of_none H _ hc]
            simp only [applyIn, bind, StateT.bind, Step.closure?, Option.bind, hc]
            exact Lockstep.Steps.faulted _ m₁ m₁ hm
          | some c =>
            have hlike := hm.closures index
            rw [hc] at hlike
            cases hlike with
            | some hlike =>
              rw [Setting.applyRef_of_some H _ hc]
              simp only [applyIn, bind, StateT.bind, Step.closure?, Option.bind, hc]
              exact (activate_runs H hsize hcounts (nested_engines H n) hlike
                (hm.spared hc) args).toReply m₁ m₁ hm }

end SideBySide

/-! ## Uses -/

/-- What one may do with an interpreter from outside: evaluate a tree, invoke a compiled lambda,
or call a callable from host code. -/
inductive Use where
  | evaluate (I : Interp) (e : Expr)
  | invoke (c : Compiled) (args : List Value)
  | call (ref : FuncRef) (args : List Value)

/-- What a use gives. -/
inductive UseResult where
  | whole (r : Except EvalError Value)
  | reply (r : Reply)

namespace Use

variable (H : Host σ)

/-- A use, with the given fuel. -/
def run (fuel : Nat) : Use → Step σ UseResult
  | evaluate I e => UseResult.whole <$> evaluateClosed H fuel I e
  | invoke c args => UseResult.whole <$> c.invoke H fuel args
  | call ref args => UseResult.reply <$> apply H fuel ref args

/-- The end of a use, in which a thrown value may be asked for its message. -/
def finishBy (apply : FuncRef → List Value → Step σ Reply) (act : Run σ Value) :
    Step σ (Except EvalError Value) := do
  match ← act.run with
  | .ok v => pure (.ok v)
  | .error (.throw v) => do
    let description ← Step.play apply (H.describe v)
    pure (.error (.unhandled description v))
  | .error (.jump l _) => pure (.error (.fault (.unresolvedLabel l.displayName)))
  | .error (.fault f) => pure (.error (.fault f))

/-- A use by any engine and any way of starting an activation. -/
def runBy (E : Engine σ) (activate : Closure → List Value → Run σ Value) : Use → Step σ UseResult
  | evaluate I e =>
    match e.freeParameters with
    | p :: _ => pure (.whole (.error (.fault (.unboundParameter p.displayName))))
    | [] => do
      let scope ← Step.rootScope
      UseResult.whole <$> finishBy H E.apply (E.eval I scope e)
  | invoke c args =>
    if args.length ≠ c.params.length then
      pure (.whole (.error (.fault (.arityMismatch c.params.length args.length))))
    else do
      let scope ← Step.rootScope
      UseResult.whole <$> finishBy H E.apply (activate ⟨c.params, c.body, c.ret, scope, c.interp⟩ args)
  | call ref args => UseResult.reply <$> E.apply ref args

/-- A use by the evaluator that knows what is in progress. -/
def runNested (limits : Nat → Nat) (fuel : Nat) (active : List Nat) : Use → Step σ UseResult :=
  runBy H (engineNested H limits fuel active) (activate (engineNested H limits fuel) active)

/-- The interpreter of a use is registered. -/
def Registered (limits : Nat → Nat) (size : Nat) : Use → Prop
  | evaluate I _ => I.Registered limits size
  | invoke c _ => c.interp.Registered limits size
  | call _ _ => True

variable {H}

theorem finish_eq (fuel : Nat) (act : Run σ Value) :
    finish H fuel act = finishBy H (apply H fuel) act := by
  funext m
  show (act.run m).bind _ = (act.run m).bind _
  refine congrArg _ (funext fun y => ?_)
  obtain ⟨r, k⟩ := y
  cases r with
  | ok v => rfl
  | error exit =>
    cases exit with
    | throw v =>
      show (do
        let error ← escaped H fuel (.throw v)
        pure (.error error) : Step σ (Except EvalError Value)) k = _
      simp only [escaped, bind_assoc, pure_bind]
    | jump l v => rfl
    | fault f => rfl

theorem run_eq_runBy (fuel : Nat) (u : Use) :
    u.run H fuel = u.runBy H (engine H fuel) (callClosure (engine H fuel)) := by
  cases u with
  | evaluate I e =>
    simp only [run, runBy, evaluateClosed, finish_eq]
    cases e.freeParameters with
    | nil => exact map_bind _ _ _
    | cons p _ => rfl
  | invoke c args =>
    simp only [run, runBy, Compiled.invoke, finish_eq]
    split
    · rfl
    · exact map_bind _ _ _
  | call ref args => rfl

section Steps

variable {limits : Nat → Nat} {size : Nat} {d : Array Nat} {active : List Nat}

theorem steps_finishBy {W : Type} [Preorder W] {L : Lockstep W} {w : W}
    {apply₁ apply₂ : FuncRef → List Value → Step σ Reply}
    (happly : ∀ w ref args, L.Steps d w Eq (apply₁ ref args) (apply₂ ref args))
    {x y : Run σ Value} (h : L.Runs d w Eq x y) :
    L.Steps d w Eq (finishBy H apply₁ x) (finishBy H apply₂ y) := by
  refine Lockstep.Steps.bind h fun w _ r r' hr => ?_
  cases hr with
  | ok value =>
    rw [value]
    exact Lockstep.Steps.pure rfl
  | error exit =>
    subst exit
    rename_i exit
    cases exit with
    | throw v =>
      refine Lockstep.Steps.bind (Lockstep.Steps.play happly (H.describe v) w) fun w' _ a b hab => ?_
      rw [hab]
      exact Lockstep.Steps.pure rfl
    | jump l v => exact Lockstep.Steps.pure rfl
    | fault f => exact Lockstep.Steps.pure rfl

/-- Both sides make a scope with no parent. -/
theorem steps_rootScope :
    (counted limits size).Steps d ⟨⟩ Eq (Step.rootScope : Step σ Scope) Step.rootScope := by
  intro m₁ m₂ hm
  obtain rfl : m₁ = m₂ := hm.eq
  refine .ended ⟨⟨⟩, trivial, ?_, rfl⟩
  exact { hm with store := ⟨rfl, trivial⟩ }

theorem counted_closureLike {c : Closure} (h : c.interp.Registered limits size) :
    (counted limits size).ClosureLike ⟨⟩ c c :=
  ⟨rfl, rfl, rfl, fun _ _ _ _ hst _ _ _ => ⟨⟨⟩, trivial, ⟨by rw [hst.1], trivial⟩, by rw [hst.1], h⟩⟩

theorem steps_map {α β : Type} (f : α → β) {x y : Step σ α}
    (h : (counted limits size).Steps d ⟨⟩ Eq x y) :
    (counted limits size).Steps d ⟨⟩ Eq (f <$> x) (f <$> y) := by
  rw [map_eq_pure_bind, map_eq_pure_bind]
  refine Lockstep.Steps.bind h fun _ _ a b hab => ?_
  rw [hab]
  exact Lockstep.Steps.pure rfl

/-- A use goes side by side with itself, done by engines that do. -/
theorem steps_runBy {u : Use} (hu : u.Registered limits size) {E₁ E₂ : Engine σ}
    (hE : (counted limits size).Engines d E₁ E₂)
    {activate₁ activate₂ : Closure → List Value → Run σ Value}
    (hactivate : ∀ c, c.interp.Registered limits size → ∀ args,
      (counted limits size).Runs d ⟨⟩ Eq (activate₁ c args) (activate₂ c args)) :
    (counted limits size).Steps d ⟨⟩ Eq (u.runBy H E₁ activate₁) (u.runBy H E₂ activate₂) := by
  cases u with
  | evaluate I e =>
    simp only [runBy]
    split
    · exact Lockstep.Steps.pure rfl
    · refine Lockstep.Steps.bind steps_rootScope fun w _ s s' hs => ?_
      subst hs
      exact steps_map _ (steps_finishBy hE.apply (hE.eval w ⟨I, s, e⟩ ⟨I, s, e⟩ ⟨rfl, hu⟩))
  | invoke c args =>
    simp only [runBy]
    split
    · exact Lockstep.Steps.pure rfl
    · refine Lockstep.Steps.bind steps_rootScope fun w _ s s' hs => ?_
      subst hs
      exact steps_map _ (steps_finishBy hE.apply (hactivate ⟨_, _, _, s, c.interp⟩ hu args))
  | call ref args => exact steps_map _ (hE.apply ⟨⟩ ref args)

end Steps

/-! ## Exactness -/

section Exactness

variable {limits : Nat → Nat} {m m' : Machine σ} {u : Use} {fuel : Nat}

theorem counted_similar (hm : m.Registers limits) :
    (counted limits m.depths.size).Similar ⟨⟩ m.depths m m :=
  (counted_invariant limits m.depths.size).similar trivial hm

/-- A use leaves the counters as it found them, and all closures it makes belong to registered
interpreters. -/
theorem after_run (hu : u.Registered limits m.depths.size) (hm : m.Registers limits)
    {r : UseResult} (h : u.run H fuel m = some (r, m')) :
    m'.depths = m.depths ∧ m'.Registers limits := by
  have hE : ∀ d, (counted limits m.depths.size).Engines d (engine H fuel) (engine H fuel) :=
    Lockstep.engines ((counted_invariant limits m.depths.size).lawful H) (Nat.le_refl fuel)
      fun _ => rfl
  rw [run_eq_runBy] at h
  obtain ⟨_, _, _, _, hafter, -⟩ := (steps_runBy hu (hE m.depths) fun c hc args =>
    Lockstep.Runs.callClosure (hE _) (counted_closureLike hc) args) m m (counted_similar hm)
      |>.of_some h
  have hdepths : m'.depths = m.depths := hafter.depths₁
  exact ⟨hdepths, fun i c hc => hdepths ▸ hafter.spared hc⟩

/-- A use is what it is to the evaluator that knows what is in progress. -/
theorem runNested_eq {active : List Nat} (hu : u.Registered limits m.depths.size)
    (hm : m.Registers limits) (hcounts : Counts limits m.depths active) :
    u.runNested H limits fuel active m = u.run H fuel m := by
  rw [run_eq_runBy]
  have hE : ∀ active d, d.size = m.depths.size → Counts limits d active →
      (counted limits m.depths.size).Engines d (engineNested H limits fuel active)
        (engine H fuel) := nested_engines H fuel
  exact Lockstep.Steps.eq (steps_runBy hu (hE active m.depths rfl hcounts) fun c hc args =>
    activate_runs H rfl hcounts hE (counted_closureLike hc) hc args) (counted_similar hm)

end Exactness

/-! ## Sequences of uses -/

/-- Uses one after another, each with enough fuel to end. -/
inductive Runs (H : Host σ) : List Use → Machine σ → Machine σ → Prop
  | nil (m : Machine σ) : Runs H [] m m
  | cons {u us fuel r m m₁ m'} (first : u.run H fuel m = some (r, m₁)) (rest : Runs H us m₁ m') :
      Runs H (u :: us) m m'

theorem Runs.depths_eq {limits : Nat → Nat} {us : List Use} {m m' : Machine σ}
    (h : Runs H us m m') (hus : ∀ u ∈ us, u.Registered limits m.depths.size)
    (hm : m.Registers limits) : m'.depths = m.depths ∧ m'.Registers limits := by
  induction h with
  | nil => exact ⟨rfl, hm⟩
  | cons first _ ih =>
    rw [List.forall_mem_cons] at hus
    obtain ⟨hdepths, hregisters⟩ := after_run hus.1 hm first
    rw [← hdepths] at hus
    obtain ⟨hrest, hafter⟩ := ih hus.2 hregisters
    exact ⟨hrest.trans hdepths, hafter⟩

end Use

end CodeTree
