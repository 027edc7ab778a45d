import CodeTree.Proofs.Similarity

/-!
# Evaluations that go side by side

If trees correspond layer by layer (`Setting.LayerLike`), then so do their evaluations. Both
may be subject to a permission (`evalWhile`): the first evaluation is followed as far as its
permission goes, and the second one is shown to stay within its own.

* `Setting.EngineLike` — two engines that take corresponding places to related runs;
* one lemma for each construct, from the engines of its parts to the construct;
* `Setting.Lawful` — what is asked of a setting: places correspond layer by layer or are related
  outright, and the host treats what is alike alike;
* `Setting.Lawful.engines` — by induction on the fuel, the engines of any fuel are related.
-/

namespace CodeTree

variable {σ : Type}

/-! ## Evaluation under a permission -/

/-- What an evaluation may do. -/
structure Permission (σ : Type) where
  /-- Whether a node may be evaluated in a scope. -/
  visit : Machine σ → Scope → Expr → Bool
  /-- Whether a callable may be called. -/
  call : Machine σ → FuncRef → Bool

/-- Everything is permitted. -/
def Permission.always : Permission σ := ⟨fun _ _ _ => true, fun _ _ => true⟩

mutual
/-- Evaluates a tree as `eval` does, but gives no answer once it comes to something that is not
permitted. -/
def evalWhile (H : Host σ) (permit : Permission σ) : Nat → Interp → Scope → Expr → Run σ Value
  | 0, _, _, _ => .step .outOfFuel
  | n + 1, I, scope, e => fun m =>
    if permit.visit m scope e then
      evalNode H ⟨n, evalWhile H permit n, applyWhile H permit n⟩ I scope e m
    else none
/-- Calls a callable as `apply` does, as far as the permission goes. -/
def applyWhile (H : Host σ) (permit : Permission σ) : Nat → FuncRef → List Value → Step σ Reply
  | 0, _, _ => .outOfFuel
  | n + 1, ref, args => fun m =>
    if permit.call m ref then
      applyRef H ⟨n, evalWhile H permit n, applyWhile H permit n⟩ ref args m
    else none
end

/-- The engine of a given fuel, under a permission. -/
def engineWhile (H : Host σ) (permit : Permission σ) (fuel : Nat) : Engine σ :=
  ⟨fuel, evalWhile H permit fuel, applyWhile H permit fuel⟩

/-- Under a permission for everything, engines are those of evaluation. -/
theorem engineWhile_always (H : Host σ) (fuel : Nat) :
    engineWhile H .always fuel = engine H fuel := by
  induction fuel with
  | zero =>
    simp only [engineWhile, engine, Engine.mk.injEq, true_and]
    exact ⟨by funext I scope e; rw [evalWhile, eval], by funext ref args; rw [applyWhile, apply]⟩
  | succ n ih =>
    simp only [engineWhile, engine, Engine.mk.injEq, true_and]
    constructor
    · funext I scope e
      rw [evalWhile, eval]
      exact congrArg (fun E => evalNode H E I scope e) ih
    · funext ref args
      rw [applyWhile, apply]
      exact congrArg (fun E => applyRef H E ref args) ih

theorem evalWhile_always (H : Host σ) (fuel : Nat) (I : Interp) (scope : Scope) (e : Expr) :
    evalWhile H .always fuel I scope e = eval H fuel I scope e :=
  congrArg (fun E : Engine σ => E.eval I scope e) (engineWhile_always H fuel)

namespace Setting

variable (S : Setting σ)

/-! ## Layers that correspond -/

/-- Children that correspond where they stand: in the scope of their layer, or in any later
frame that has been given the variables which the layer declares. -/
def Around (w : World) (P Q : Place) (a b : Expr) : Position → Prop
  | .plain => S.place w { P with tree := a } { Q with tree := b }
  | .under params => ∀ w', w ≤ w' → ∀ f g, w'.frames.pairs f g →
      (∀ p ∈ params, w'.declared f p.id) →
      S.place w' ⟨P.interp, P.scope.extended f none, a⟩ ⟨Q.interp, Q.scope.extended g none, b⟩
  | .catching binder => ∀ w', w ≤ w' → ∀ f g v v', w'.frames.pairs f g → S.value w' v v' →
      (∀ p ∈ binder, w'.declared f p.id) →
      S.place w' ⟨P.interp, P.scope.extended f (some v), a⟩
        ⟨Q.interp, Q.scope.extended g (some v'), b⟩

/-- Children of one type that mark the same label, and correspond where they stand. -/
structure ChildLike (w : World) (P Q : Place) (q : Position) (a b : Expr) : Prop where
  ty : a.ty = b.ty
  label : a.label? = b.label?
  around : S.Around w P Q a b q

/-- Places whose layers are the same, and find the same variables. -/
structure LayerLike (w : World) (P Q : Place) : Prop where
  ty : P.tree.ty = Q.tree.ty
  interp : S.interp P.interp Q.interp
  shape : Shape.Like (S.value w) (S.ChildLike w P Q) P.tree.shape Q.tree.shape
  read : ∀ p, P.tree.shape = .parameter p → S.Resolves w P.scope Q.scope p
  assigned : ∀ p a, P.tree.shape = .assign p a → S.Resolves w P.scope Q.scope p
  rethrow : P.tree.shape = .throw none →
    Option.Rel (S.value w) P.scope.currentException? Q.scope.currentException?

/-- Engines that take what corresponds to runs that are related. -/
structure EngineLike (E₁ E₂ : Engine σ) : Prop where
  rounds : E₁.rounds ≤ E₂.rounds
  eval : ∀ d w P Q, S.place w P Q → S.Runs d w S.value (E₁.eval P.interp P.scope P.tree)
    (E₂.eval Q.interp Q.scope Q.tree)
  apply : ∀ d w ref ref' args args', RefLike w ref ref' → ValuesLike w S.ok args args' →
    S.Steps d w (fun w => ReplyLike w S.ok) (E₁.apply ref args) (E₂.apply ref' args')

/-- A host that treats what is alike alike, in every world of the setting. -/
structure HostLike (H : Host σ) : Prop where
  run : ∀ w, S.base ≤ w → ∀ code self self' args args', Option.Rel (S.value w) self self' →
    ValuesLike w S.ok args args' →
    ScriptLike S.state S.ok (fun w => ReplyLike w S.ok) w (H.run code self args)
      (H.run code self' args')
  get : ∀ w, S.base ≤ w → ∀ handle self self' name, S.value w self self' →
    ScriptLike S.state S.ok (fun w => ReplyLike w S.ok) w (H.get handle self name)
      (H.get handle self' name)
  invoke : ∀ w, S.base ≤ w → ∀ handle self self' name args args', S.value w self self' →
    ValuesLike w S.ok args args' →
    ScriptLike S.state S.ok (fun w => ReplyLike w S.ok) w (H.invoke handle self name args)
      (H.invoke handle self' name args')

variable {S}

section Constructs

variable {d : Array Nat × Array Nat} {w : World}

/-- Runs that are related from now on, whatever the world has become. -/
def Later (S : Setting σ) (d : Array Nat × Array Nat) (w : World) (x y : Run σ Value) : Prop :=
  ∀ w', w ≤ w' → S.Runs d w' S.value x y

theorem Later.mono {w' : World} (h : w ≤ w') {x y : Run σ Value} (l : S.Later d w x y) :
    S.Later d w' x y :=
  fun w'' hw => l w'' (le_trans h hw)

/-! ## Operands -/

theorem Runs.expectBool {v v' : Value} (h : S.value w v v') :
    S.Runs d w (fun _ => Eq) (CodeTree.expectBool v) (CodeTree.expectBool v') := by
  unfold CodeTree.expectBool
  rw [h.asBool?_eq, h.typeName_eq]
  cases v'.asBool? with
  | some b => exact Runs.pure rfl
  | none => exact Runs.fault (S.ok_of_bound fun _ h => nomatch h)

theorem Runs.evalAll {ev₁ ev₂ : Expr → Run σ Value} :
    ∀ {w : World} {as bs : List Expr}, List.Forall₂ (fun a b => S.Later d w (ev₁ a) (ev₂ b)) as bs →
      S.Runs d w (fun w => ValuesLike w S.ok) (CodeTree.evalAll ev₁ as) (CodeTree.evalAll ev₂ bs)
  | _, [], [], _ => Runs.pure .nil
  | w, _ :: _, _ :: _, .cons first rest => by
    refine Runs.bind (first w (le_refl w)) fun w' hw v v' hv => ?_
    refine Runs.bind (Runs.evalAll (rest.imp fun _ _ l => l.mono hw)) fun w'' hw' vs vs' hvs => ?_
    exact Runs.pure (.cons (hv.mono hw') hvs)

/-! ## Blocks -/

/-- Statements that mark the same labels and whose runs are related. -/
def StatementLike (S : Setting σ) (d : Array Nat × Array Nat) (w : World)
    (ev₁ ev₂ : Expr → Run σ Value) (a b : Expr) : Prop :=
  a.label? = b.label? ∧ S.Later d w (ev₁ a) (ev₂ b)

theorem afterLabel?_cons (l : Label) (e : Expr) (es : List Expr) :
    afterLabel? l (e :: es) = if e.label?.any (· == l) then some es else afterLabel? l es := by
  rw [afterLabel?, Expr.label?]
  cases e.shape with
  | label target default => rw [Option.any_some]
  | _ => rfl

theorem afterLabel?_like {R : Expr → Expr → Prop} (hR : ∀ a b, R a b → a.label? = b.label?)
    (l : Label) {as bs : List Expr} (h : List.Forall₂ R as bs) :
    Option.Rel (List.Forall₂ R) (afterLabel? l as) (afterLabel? l bs) := by
  induction h with
  | nil => exact .none
  | cons hab hrest ih =>
    rw [afterLabel?_cons, afterLabel?_cons, hR _ _ hab]
    split
    · exact .some hrest
    · exact ih

theorem Runs.runStatements {ev₁ ev₂ : Expr → Run σ Value}
    {jump₁ jump₂ : Label → Value → Run σ Value} :
    ∀ {w : World} {as bs : List Expr} {v v' : Value},
      List.Forall₂ (S.StatementLike d w ev₁ ev₂) as bs → S.value w v v' →
      (∀ w', w ≤ w' → ∀ l x y, S.value w' x y → S.Runs d w' S.value (jump₁ l x) (jump₂ l y)) →
      S.Runs d w S.value (CodeTree.runStatements ev₁ jump₁ as v)
        (CodeTree.runStatements ev₂ jump₂ bs v')
  | _, [], [], _, _, _, hv, _ => Runs.pure hv
  | w, _ :: _, _ :: _, _, _, .cons first rest, _, hjump => by
    refine Runs.bind (first.2 w (le_refl w)).held fun w' hw r r' hr => ?_
    cases hr with
    | ok value =>
      exact Runs.runStatements (rest.imp fun _ _ l => ⟨l.1, l.2.mono hw⟩) value
        fun w'' hw' => hjump w'' (le_trans hw hw')
    | error exit =>
      cases exit with
      | throw value => exact Runs.throw (.throw value)
      | jump l value => exact hjump w' hw l _ _ value
      | fault allowed => exact Runs.throw (.fault allowed)

/-- The second side may have more rounds than the first one. -/
theorem Runs.runBody {ev₁ ev₂ : Expr → Run σ Value} {body body' : List Expr} :
    ∀ {n₁ n₂ : Nat}, n₁ ≤ n₂ → ∀ {w : World} {as bs : List Expr} {v v' : Value},
      List.Forall₂ (S.StatementLike d w ev₁ ev₂) body body' →
      List.Forall₂ (S.StatementLike d w ev₁ ev₂) as bs → S.value w v v' →
      S.Runs d w S.value (CodeTree.runBody ev₁ body n₁ as v) (CodeTree.runBody ev₂ body' n₂ bs v')
  | 0, _, _ => fun _ _ _ m₁ m₂ _ _ _ hx => nomatch hx
  | n₁ + 1, 0, h => absurd h (by omega)
  | n₁ + 1, n₂ + 1, h => fun hbody has hv => by
    -- a jump leaves the statements; it resumes after its label, with one round less, or goes on out
    refine Runs.runStatements has hv fun w' hw l x y hxy => ?_
    have hbody' : List.Forall₂ (S.StatementLike d w' ev₁ ev₂) body body' :=
      hbody.imp fun _ _ l => ⟨l.1, l.2.mono hw⟩
    have hafter := afterLabel?_like (fun _ _ h => h.1) l hbody'
    revert hafter
    generalize afterLabel? l body = o, afterLabel? l body' = o'
    intro hafter
    rcases hafter with hrest | _
    · exact Runs.runBody (Nat.le_of_succ_le_succ h) hbody' hrest hxy
    · exact Runs.throw (.jump l hxy)

theorem Runs.evalBlock {E₁ E₂ : Engine σ} (hE : S.EngineLike E₁ E₂) {P Q : Place} {ty : Ty}
    {locals : List Param} {body body' : List Expr}
    (h : List.Forall₂ (S.ChildLike w P Q (.under locals)) body body') :
    S.Runs d w S.value (CodeTree.evalBlock E₁ P.interp P.scope ty locals body)
      (CodeTree.evalBlock E₂ Q.interp Q.scope ty locals body') := by
  refine Runs.bind (Runs.step (Steps.push P.scope Q.scope none none)) fun w₁ hw₁ s₁ s₂ hs => ?_
  obtain ⟨f, g, hfg, hlive, rfl, rfl⟩ := hs
  have hinit : List.Forall₂ (fun x y => x.1 = y.1 ∧ S.value w₁ x.2 y.2)
      (locals.map fun p => (p, Value.default p.ty)) (locals.map fun p => (p, .default p.ty)) := by
    rw [List.forall₂_map_left_iff, List.forall₂_map_right_iff]
    exact List.forall₂_same.mpr fun p _ => ⟨rfl, .default p.ty⟩
  refine Runs.bind (Runs.step (Steps.declareAll hfg hlive hinit)) fun w₂ hw₂ _ _ hdeclared => ?_
  have hbound : ∀ w₃, w₂ ≤ w₃ → ∀ p ∈ locals, w₃.declared f p.id := fun w₃ hw₃ p hp =>
    World.le_declared hw₃ (hdeclared (p, .default p.ty) (List.mem_map_of_mem hp))
  have hbody : List.Forall₂ (S.StatementLike d w₂
      (E₁.eval P.interp (P.scope.extended f none)) (E₂.eval Q.interp (Q.scope.extended g none)))
      body body' := by
    refine h.imp fun a b l => ⟨l.label, fun w₃ hw₃ => ?_⟩
    have hw := le_trans hw₁ (le_trans hw₂ hw₃)
    exact hE.eval d w₃ ⟨P.interp, P.scope.extended f none, a⟩ ⟨Q.interp, Q.scope.extended g none, b⟩
      (l.around w₃ hw f g (World.le_frames (le_trans hw₂ hw₃) hfg) (hbound w₃ hw₃))
  refine Runs.bind (Runs.runBody hE.rounds hbody hbody .void) fun w₃ _ v v' hv => ?_
  exact Runs.pure (hv.settle ty)

/-! ## Switches -/

theorem Runs.matchesSome {ev₁ ev₂ : Expr → Run σ Value} {accept₁ accept₂ : Value → Run σ Bool} :
    ∀ {w : World} {as bs : List Expr},
      List.Forall₂ (fun a b => S.Later d w (ev₁ a) (ev₂ b)) as bs →
      (∀ w', w ≤ w' → ∀ v v', S.value w' v v' →
        S.Runs d w' (fun _ => Eq) (accept₁ v) (accept₂ v')) →
      S.Runs d w (fun _ => Eq) (CodeTree.matchesSome ev₁ accept₁ as)
        (CodeTree.matchesSome ev₂ accept₂ bs)
  | _, [], [], _, _ => Runs.pure rfl
  | w, _ :: _, _ :: _, .cons first rest, haccept => by
    refine Runs.bind (first w (le_refl w)) fun w₁ hw₁ v v' hv => ?_
    refine Runs.bind (haccept w₁ hw₁ v v' hv) fun w₂ hw₂ b b' hb => ?_
    subst hb
    have hw := le_trans hw₁ hw₂
    cases b with
    | true => exact Runs.pure rfl
    | false =>
      exact Runs.matchesSome (rest.imp fun _ _ l => l.mono hw)
        fun w₃ hw₃ => haccept w₃ (le_trans hw hw₃)

theorem Runs.selectCase {ev₁ ev₂ : Expr → Run σ Value} {accept₁ accept₂ : Value → Run σ Bool}
    {R : Expr → Expr → Prop} :
    ∀ {w : World} {cs cs' : List (Case Expr)}, List.Forall₂ (CaseLike R) cs cs' →
      (∀ a b, R a b → S.Later d w (ev₁ a) (ev₂ b)) →
      (∀ w', w ≤ w' → ∀ v v', S.value w' v v' →
        S.Runs d w' (fun _ => Eq) (accept₁ v) (accept₂ v')) →
      S.Runs d w (fun _ => Option.Rel R) (CodeTree.selectCase ev₁ accept₁ cs)
        (CodeTree.selectCase ev₂ accept₂ cs')
  | _, [], [], _, _, _ => Runs.pure .none
  | w, _ :: _, _ :: _, .cons first rest, hR, haccept => by
    refine Runs.bind (Runs.matchesSome (first.tests.imp hR) haccept) fun w' hw b b' hb => ?_
    subst hb
    cases b with
    | true => exact Runs.pure (.some first.body)
    | false =>
      exact Runs.selectCase rest (fun a b h => (hR a b h).mono hw)
        fun w'' hw' => haccept w'' (le_trans hw hw')

theorem orElse_like {R : Expr → Expr → Prop} {o o' p p' : Option Expr} (h : Option.Rel R o o')
    (hp : Option.Rel R p p') : Option.Rel R (o <|> p) (o' <|> p') := by
  cases h with
  | none => exact hp
  | some h => exact .some h

/-! ## Guarded regions -/

theorem Runs.filterAccepts {ev₁ ev₂ : Expr → Run σ Value} {o o' : Option Expr}
    (h : Option.Rel (fun a b => S.Runs d w S.value (ev₁ a) (ev₂ b)) o o') :
    S.Runs d w (fun _ => Eq) (CodeTree.filterAccepts ev₁ o) (CodeTree.filterAccepts ev₂ o') := by
  cases h with
  | none => exact Runs.pure rfl
  | some h =>
    refine Runs.bind h.held fun w' _ r r' hr => ?_
    cases hr with
    | ok value =>
      cases value with
      | bool b => exact Runs.pure rfl
      | _ => exact Runs.pure rfl
    | error exit =>
      cases exit with
      | throw value => exact Runs.pure rfl
      | jump l value => exact Runs.pure rfl
      | fault allowed => exact Runs.fault allowed

theorem Runs.runHandlers {E₁ E₂ : Engine σ} (hE : S.EngineLike E₁ E₂) {w₀ : World} {P Q : Place}
    {thrownTy : Ty} {v v' : Value} :
    ∀ {w : World} {hs hs' : List (Handler Expr)}, w₀ ≤ w →
      List.Forall₂ (HandlerLike (S.ChildLike w₀ P Q)) hs hs' → S.value w v v' →
      S.Runs d w S.value
        (CodeTree.runHandlers (E₁.eval P.interp) P.scope v thrownTy hs)
        (CodeTree.runHandlers (E₂.eval Q.interp) Q.scope v' thrownTy hs')
  | _, [], [], _, _, hv => Runs.throw (.throw hv)
  | w, h :: hs, h' :: hs', hw₀, .cons first rest, hv => by
    obtain ⟨ty, binder, filter, body⟩ := h
    obtain ⟨ty', binder', filter', body'⟩ := h'
    obtain ⟨rfl, rfl, hfilter, hbody⟩ := first
    rw [CodeTree.runHandlers, CodeTree.runHandlers]
    split
    · -- the clause is for this type: its scope is made, its variable bound, its filter asked
      refine Runs.bind (Runs.step (Steps.push P.scope Q.scope (some v) (some v')))
        fun w₁ hw₁ s₁ s₂ hs => ?_
      obtain ⟨f, g, hfg, hlive, rfl, rfl⟩ := hs
      have hinit : List.Forall₂ (fun x y => x.1 = y.1 ∧ S.value w₁ x.2 y.2)
          (binder.toList.map fun p => (p, v)) (binder.toList.map fun p => (p, v')) := by
        rw [List.forall₂_map_left_iff, List.forall₂_map_right_iff]
        exact List.forall₂_same.mpr fun p _ => ⟨rfl, hv.mono hw₁⟩
      refine Runs.bind (Runs.step (Steps.declareAll hfg hlive hinit)) fun w₂ hw₂ _ _ hdecl => ?_
      have hev : ∀ a b, S.ChildLike w₀ P Q (.catching binder) a b → S.Later d w₂
          (E₁.eval P.interp (P.scope.extended f (some v)) a)
          (E₂.eval Q.interp (Q.scope.extended g (some v')) b) := by
        intro a b l w₃ hw₃
        have hw := le_trans hw₂ hw₃
        refine hE.eval d w₃ ⟨P.interp, P.scope.extended f (some v), a⟩
          ⟨Q.interp, Q.scope.extended g (some v'), b⟩ ?_
        refine l.around w₃ (le_trans hw₀ (le_trans hw₁ hw)) f g v v' (World.le_frames hw hfg)
          (hv.mono (le_trans hw₁ hw)) fun p hp => World.le_declared hw₃ ?_
        exact hdecl (p, v) (List.mem_map_of_mem (Option.mem_toList.mpr hp))
      have hfilter' : Option.Rel (fun a b => S.Runs d w₂ S.value
          (E₁.eval P.interp (P.scope.extended f (some v)) a)
          (E₂.eval Q.interp (Q.scope.extended g (some v')) b)) filter filter' := by
        cases hfilter with
        | none => exact .none
        | some l => exact .some (hev _ _ l w₂ (le_refl w₂))
      refine Runs.bind (Runs.filterAccepts hfilter') fun w₃ hw₃ b b' hb => ?_
      subst hb
      cases b with
      | true => exact hev _ _ hbody w₃ hw₃
      | false =>
        have hw := le_trans hw₁ (le_trans hw₂ hw₃)
        exact Runs.runHandlers hE (le_trans hw₀ hw) rest (hv.mono hw)
    · exact Runs.runHandlers hE hw₀ rest hv

/-- The last part of a guarded region: it runs whatever came before it. -/
def concluded (ev : Expr → Run σ Value) (ty : Ty) (cleanup : Option Expr)
    (outcome : Except Exit Value) : Run σ Value := do
  match cleanup with
  | some last => do
    let _ ← ev last
    let v ← Run.resume outcome
    pure (settle ty v)
  | none => do
    let v ← Run.resume outcome
    pure (settle ty v)

theorem Runs.concluded {ev₁ ev₂ : Expr → Run σ Value} (ty : Ty) {cleanup cleanup' : Option Expr}
    (h : Option.Rel (fun a b => S.Runs d w S.value (ev₁ a) (ev₂ b)) cleanup cleanup')
    {r r' : Except Exit Value} (hr : ExceptLike (ExitLike w S.ok) (S.value w) r r') :
    S.Runs d w S.value (Setting.concluded ev₁ ty cleanup r)
      (Setting.concluded ev₂ ty cleanup' r') := by
  cases h with
  | none =>
    exact Runs.bind (Runs.resume (R := S.value) hr) fun _ _ v v' hv => Runs.pure (hv.settle ty)
  | some hlast =>
    refine Runs.bind hlast fun w' hw _ _ _ => ?_
    have hr' : ExceptLike (ExitLike w' S.ok) (S.value w') r r' :=
      hr.imp (fun _ _ => ExitLike.mono hw) (fun _ _ => ValueLike.mono hw)
    exact Runs.bind (Runs.resume (R := S.value) hr') fun _ _ v v' hv => Runs.pure (hv.settle ty)

theorem Runs.evalGuarded {E₁ E₂ : Engine σ} (hE : S.EngineLike E₁ E₂) {P Q : Place} {ty : Ty}
    {body body' : Expr} {handlers handlers' : List (Handler Expr)} {cleanup cleanup' : Option Expr}
    (hbody : S.ChildLike w P Q .plain body body')
    (hhandlers : List.Forall₂ (HandlerLike (S.ChildLike w P Q)) handlers handlers')
    (hcleanup : Option.Rel (S.ChildLike w P Q .plain) cleanup cleanup') :
    S.Runs d w S.value
      (CodeTree.evalGuarded (E₁.eval P.interp) P.scope ty body handlers cleanup)
      (CodeTree.evalGuarded (E₂.eval Q.interp) Q.scope ty body' handlers' cleanup') := by
  -- the outcome of the body is held back until the last part has run
  refine Runs.bind (hE.eval d w _ _ hbody.around).held fun w₁ hw₁ r r' hr => ?_
  have hconcluded : ∀ w₂, w₁ ≤ w₂ → ∀ o o', ExceptLike (ExitLike w₂ S.ok) (S.value w₂) o o' →
      S.Runs d w₂ S.value (Setting.concluded (E₁.eval P.interp P.scope) ty cleanup o)
        (Setting.concluded (E₂.eval Q.interp Q.scope) ty cleanup' o') := by
    intro w₂ hw₂ o o' ho
    refine Runs.concluded ty ?_ ho
    cases hcleanup with
    | none => exact .none
    | some l => exact .some (hE.eval d w₂ _ _ (S.place_mono (le_trans hw₁ hw₂) l.around))
  cases hr with
  | ok value => exact hconcluded w₁ (le_refl w₁) _ _ (.ok value)
  | error exit =>
    cases exit with
    | @throw x y value =>
      -- only thrown values reach the catch clauses, and both sides look at the same type
      simp only [value.runtimeTy?_eq]
      cases y.runtimeTy? with
      | some thrownTy =>
        exact Runs.bind (Runs.runHandlers hE hw₁ hhandlers value).held hconcluded
      | none => exact hconcluded w₁ (le_refl w₁) _ _ (.error (.throw value))
    | jump l value => exact hconcluded w₁ (le_refl w₁) _ _ (.error (.jump l value))
    | fault allowed => exact hconcluded w₁ (le_refl w₁) _ _ (.error (.fault allowed))

/-! ## Loops -/

theorem Runs.iterate {x y : Run σ Value} {breakLabel continueLabel : Option Label} :
    ∀ {n₁ n₂ : Nat}, n₁ ≤ n₂ → ∀ w : World, S.Later d w x y →
      S.Runs d w S.value (CodeTree.iterate x breakLabel continueLabel n₁)
        (CodeTree.iterate y breakLabel continueLabel n₂)
  | 0, _, _ => fun _ _ m₁ m₂ _ _ _ hx => nomatch hx
  | n₁ + 1, 0, h => absurd h (by omega)
  | n₁ + 1, n₂ + 1, h => fun w hbody => by
    have hnext : ∀ w', w ≤ w' → S.Runs d w' S.value
        (CodeTree.iterate x breakLabel continueLabel n₁)
        (CodeTree.iterate y breakLabel continueLabel n₂) := fun w' hw =>
      Runs.iterate (Nat.le_of_succ_le_succ h) w' (hbody.mono hw)
    refine Runs.bind (hbody w (le_refl w)).held fun w' hw r r' hr => ?_
    cases hr with
    | ok value => exact hnext w' hw
    | error exit =>
      cases exit with
      | throw value => exact Runs.throw (.throw value)
      | jump l value =>
        dsimp only
        split
        · exact Runs.pure value
        · split
          · exact hnext w' hw
          · exact Runs.throw (.jump l value)
      | fault allowed => exact Runs.throw (.fault allowed)

/-! ## Activations -/

theorem zip_like {ok : Fault → Prop} : ∀ (params : List Param) {vs vs' : List Value},
    ValuesLike w ok vs vs' → List.Forall₂ (fun x y => x.1 = y.1 ∧ ValueLike w ok x.2 y.2)
      (params.zip vs) (params.zip vs')
  | [], _, _, _ => .nil
  | _ :: _, [], [], _ => .nil
  | _ :: params, _ :: _, _ :: _, .cons first rest => .cons ⟨rfl, first⟩ (zip_like params rest)

theorem Runs.runClosure {E₁ E₂ : Engine σ} (hE : S.EngineLike E₁ E₂) {c₁ c₂ : Closure}
    (hc : S.ClosureLike w c₁ c₂) {args args' : List Value} (hargs : ValuesLike w S.ok args args')
    {n₁ n₂ : Nat} (hlimit : c₁.interp.limit < n₁ ↔ c₂.interp.limit < n₂)
    (hsame : c₁.interp.limit < n₁ → c₁.interp.limit = c₂.interp.limit) :
    S.Runs d w S.value (CodeTree.runClosure E₁ c₁ args n₁)
      (CodeTree.runClosure E₂ c₂ args' n₂) := by
  obtain ⟨params, body, ret, scope, I₁⟩ := c₁
  obtain ⟨params', body', ret', scope', I₂⟩ := c₂
  obtain ⟨rfl, rfl, -, hbody⟩ := hc
  unfold CodeTree.runClosure
  -- the limit and the number of operands are checked before the scope is made
  by_cases h : I₁.limit < n₁
  · rw [if_pos h, if_pos (hlimit.mp h), hsame h]
    exact Runs.fault (S.ok_of_bound fun _ h => nomatch h)
  rw [if_neg h, if_neg (fun h' => h (hlimit.mpr h')), hargs.length_eq]
  split
  · exact Runs.fault (S.ok_of_bound fun _ h => nomatch h)
  · next hlen =>
    refine Runs.bind (Runs.step (Steps.push scope scope' none none)) fun w₁ hw₁ s₁ s₂ hs => ?_
    obtain ⟨f, g, hfg, hlive, rfl, rfl⟩ := hs
    have hinit : List.Forall₂ (fun x y => x.1 = y.1 ∧ S.value w₁ x.2 y.2) (params.zip args)
        (params.zip args') := zip_like params (ValuesLike.mono hw₁ hargs)
    refine Runs.bind (Runs.step (Steps.declareAll hfg hlive hinit)) fun w₂ hw₂ _ _ hdecl => ?_
    have hplace := hbody w₂ (le_trans hw₁ hw₂) f g (World.le_frames hw₂ hfg) fun p hp => by
      have hle : params.length ≤ args.length := by
        rw [hargs.length_eq]
        exact Nat.le_of_eq (not_not.mp hlen)
      rw [← List.map_fst_zip hle] at hp
      obtain ⟨x, hx, rfl⟩ := List.mem_map.mp hp
      exact hdecl x hx
    refine Runs.bind (hE.eval d w₂ _ _ hplace).held fun w₃ _ r r' hr => ?_
    cases hr with
    | ok value => exact Runs.pure (value.settle ret)
    | error exit =>
      cases exit with
      | throw value => exact Runs.throw (.throw value)
      | jump l value => exact Runs.fault (S.ok_of_bound fun _ h => nomatch h)
      | fault allowed => exact Runs.throw (.fault allowed)

/-- Counting an activation up and down again leaves the counters as they were. -/
theorem modify_succ_pred (depths : Array Nat) (i : Nat) :
    (depths.modify i (· + 1)).modify i (· - 1) = depths := by
  apply Array.ext
  · simp only [Array.size_modify]
  · intro j _ _
    simp only [Array.getElem_modify]
    split <;> omega

/-- An activation, with the counting taken apart from what is counted. -/
theorem callClosure_run (E : Engine σ) (c : Closure) (args : List Value) (m : Machine σ) :
    (callClosure E c args).run m =
      ((CodeTree.runClosure E c args (m.depths.getD c.interp.id 0 + 1)).run
        { m with depths := m.depths.modify c.interp.id (· + 1) }).map fun x =>
          (x.1, { x.2 with depths := x.2.depths.modify c.interp.id (· - 1) }) := by
  show ((CodeTree.runClosure E c args (m.depths.getD c.interp.id 0 + 1)).run
    { m with depths := m.depths.modify c.interp.id (· + 1) } >>= _) >>= _ = _
  cases h : (CodeTree.runClosure E c args (m.depths.getD c.interp.id 0 + 1)).run
      { m with depths := m.depths.modify c.interp.id (· + 1) } with
  | none => rfl
  | some x =>
    obtain ⟨r, m'⟩ := x
    cases r <;> rfl

/-- Machines in the course of an activation. -/
theorem Similar.entered {m₁ m₂ : Machine σ} (hm : S.Similar w d m₁ m₂) {I₁ I₂ : Interp}
    (hI : S.interp I₁ I₂) :
    S.Similar w (d.1.modify I₁.id (· + 1), d.2.modify I₂.id (· + 1))
      { m₁ with depths := m₁.depths.modify I₁.id (· + 1) }
      { m₂ with depths := m₂.depths.modify I₂.id (· + 1) } :=
  { hm with
    depths₁ := by rw [hm.depths₁]
    depths₂ := by rw [hm.depths₂]
    depths := S.enter hI hm.depths }

theorem Runs.callClosure {E₁ E₂ : Engine σ} (hE : S.EngineLike E₁ E₂) {c₁ c₂ : Closure}
    (hc : S.ClosureLike w c₁ c₂) (hwithin : S.within c₁.interp d.1) {args args' : List Value}
    (hargs : ValuesLike w S.ok args args') :
    S.Runs d w S.value (CodeTree.callClosure E₁ c₁ args) (CodeTree.callClosure E₂ c₂ args') := by
  intro m₁ m₂ hm r m₁' hx
  rw [callClosure_run] at hx
  obtain ⟨⟨r₁, k₁⟩, hx₁, hx₂⟩ := Option.map_eq_some_iff.mp hx
  cases hx₂
  -- the body runs with the counters one up; afterwards they are what they were
  have hlimit := S.limit hc.interp hm.depths hwithin
  rw [← hm.depths₁, ← hm.depths₂] at hlimit
  obtain ⟨r₂, k₂, w', hy, hw, hk, hg₁, hg₂, hr⟩ :=
    Runs.runClosure hE hc hargs hlimit.1 hlimit.2 _ _ (hm.entered hc.interp) r₁ k₁ hx₁
  refine ⟨r₂, { k₂ with depths := k₂.depths.modify c₂.interp.id (· - 1) }, w', ?_, hw, ?_,
    ⟨hg₁.next, hg₁.frames, hg₁.closures, hg₁.kept⟩,
    ⟨hg₂.next, hg₂.frames, hg₂.closures, hg₂.kept⟩, hr⟩
  · rw [callClosure_run, hy]
    rfl
  · exact
      { hk with
        depths₁ := by rw [hk.depths₁, modify_succ_pred]
        depths₂ := by rw [hk.depths₂, modify_succ_pred]
        depths := hm.depths }

/-! ## Host code -/

theorem Runs.runScript {E₁ E₂ : Engine σ} (hE : S.EngineLike E₁ E₂) {s t : Script σ Reply}
    (h : S.base ≤ w → ScriptLike S.state S.ok (fun w => ReplyLike w S.ok) w s t) :
    S.Runs d w S.value (CodeTree.runScript E₁ s) (CodeTree.runScript E₂ t) := by
  refine Runs.bind (Runs.step (Steps.above fun hbase => ?_)) fun _ _ _ _ hr => Runs.ofReply hr
  exact Steps.play (fun w ref ref' args args' => hE.apply d w ref ref' args args') (h hbase)

theorem ScriptLike.missingMember (cls : Ty) (name : String) :
    ScriptLike S.state S.ok (fun w => ReplyLike w S.ok) w (Script.missingMember cls name)
      (Script.missingMember cls name) :=
  .fresh fun _ _ _ _ hid => .done (.error (.exception hid _ _))

theorem lookup_like {ok : Fault → Prop} (name : String) {xs ys : List (String × Value)}
    (h : List.Forall₂ (FieldLike w ok) xs ys) :
    Option.Rel (ValueLike w ok) (xs.lookup name) (ys.lookup name) := by
  induction h with
  | nil => exact .none
  | cons first _ ih =>
    obtain ⟨key, value⟩ := first
    rw [List.lookup_cons, List.lookup_cons]
    split
    · exact .some value
    · exact ih

/-- Objects that are alike answer member reads alike. -/
theorem HostLike.readMember {H : Host σ} (hH : S.HostLike H) (hbase : S.base ≤ w)
    {self self' : Value} (h : S.value w self self') (name : String) :
    ScriptLike S.state S.ok (fun w => ReplyLike w S.ok) w (H.readMember self name)
      (H.readMember self' name) := by
  cases h with
  | @record a b cls xs ys id fields =>
    have hlookup := lookup_like name fields
    simp only [Host.readMember]
    revert hlookup
    generalize xs.lookup name = o, ys.lookup name = o'
    intro hlookup
    rcases hlookup with value | _
    · exact .done (.ok value)
    · exact ScriptLike.missingMember cls name
  | hosted id => exact hH.get w hbase _ _ _ name (.hosted id)
  | fault id allowed => exact ScriptLike.missingMember _ name
  | _ => exact .done (.ok .null)

/-- Objects that are alike answer calls alike. -/
theorem HostLike.send {H : Host σ} (hH : S.HostLike H) (hbase : S.base ≤ w)
    {self self' : Value} (h : S.value w self self') (name : String) {args args' : List Value}
    (hargs : ValuesLike w S.ok args args') :
    ScriptLike S.state S.ok (fun w => ReplyLike w S.ok) w (H.send self name args)
      (H.send self' name args') := by
  cases h with
  | record id fields => exact ScriptLike.missingMember _ name
  | hosted id => exact hH.invoke w hbase _ _ _ name _ _ (.hosted id) hargs
  | fault id allowed => exact ScriptLike.missingMember _ name
  | _ => exact .done (.ok .null)

theorem Runs.dispatch {H : Host σ} (hH : S.HostLike H) {E₁ E₂ : Engine σ}
    (hE : S.EngineLike E₁ E₂) (method : Method) {self self' : Option Value}
    (hself : Option.Rel (S.value w) self self') {args args' : List Value}
    (hargs : ValuesLike w S.ok args args') :
    S.Runs d w S.value (CodeTree.dispatch H E₁ method self args)
      (CodeTree.dispatch H E₂ method self' args') := by
  have hnull : self.all Value.isNull = self'.all Value.isNull := by
    cases hself with
    | none => rfl
    | some h => exact h.isNull_eq
  have hsettled : ∀ {x y : Run σ Value}, S.Runs d w S.value x y → S.Runs d w S.value
      (x >>= fun v => Pure.pure (settle method.ret v))
      (y >>= fun v => Pure.pure (settle method.ret v)) := fun h =>
    Runs.bind h fun _ _ v v' hv => Runs.pure (hv.settle method.ret)
  unfold CodeTree.dispatch
  rw [hargs.length_eq, hnull]
  split
  · exact Runs.fault (S.ok_of_bound fun _ h => nomatch h)
  split
  · exact Runs.nullReference method.name
  cases method.body with
  | shared code =>
    exact hsettled (Runs.runScript hE fun hbase => hH.run w hbase code _ _ _ _ .none hargs)
  | bound code =>
    cases hself with
    | none => exact hsettled (Runs.raise _ _)
    | some h =>
      exact hsettled (Runs.runScript hE fun hbase => hH.run w hbase code _ _ _ _ (.some h) hargs)
  | dispatched =>
    cases hself with
    | none => exact hsettled (Runs.fault (S.ok_of_bound fun _ h => nomatch h))
    | some h =>
      have hname := h.typeName_eq
      have hsend := fun hbase => hH.send hbase h method.name hargs
      cases h with
      | record | hosted | fault => exact hsettled (Runs.runScript hE hsend)
      | _ =>
        refine hsettled ?_
        rw [hname]
        exact Runs.fault (S.ok_of_bound fun _ h => nomatch h)

/-- The test of a switch: by its method, or by equality. -/
theorem Runs.accepts {H : Host σ} (hH : S.HostLike H) {E₁ E₂ : Engine σ}
    (hE : S.EngineLike E₁ E₂) (comparer : Option Method) {x x' v v' : Value}
    (hx : S.value w x x') (hv : S.value w v v') :
    S.Runs d w (fun _ => Eq)
      (match comparer with
        | some method => do
          let r ← CodeTree.dispatch H E₁ method none [x, v]
          CodeTree.expectBool r
        | none => Pure.pure (x.equals v))
      (match comparer with
        | some method => do
          let r ← CodeTree.dispatch H E₂ method none [x', v']
          CodeTree.expectBool r
        | none => Pure.pure (x'.equals v')) := by
  cases comparer with
  | some method =>
    exact Runs.bind (Runs.dispatch hH hE method .none (.cons hx (.cons hv .nil)))
      fun _ _ r r' hr => Runs.expectBool hr
  | none => exact Runs.pure (hx.equals_eq hv)

theorem Runs.invokeValue {E₁ E₂ : Engine σ} (hE : S.EngineLike E₁ E₂) {callee callee' : Value}
    (h : S.value w callee callee') {args args' : List Value}
    (hargs : ValuesLike w S.ok args args') :
    S.Runs d w S.value (CodeTree.invokeValue E₁ callee args)
      (CodeTree.invokeValue E₂ callee' args') := by
  have hname := h.typeName_eq
  have hcall : ∀ {ref ref' : FuncRef} (params : List Ty) (ret : Ty), RefLike w ref ref' →
      S.Runs d w S.value (CodeTree.invokeValue E₁ (.func ref params ret) args)
        (CodeTree.invokeValue E₂ (.func ref' params ret) args') := by
    intro ref ref' params ret href
    simp only [CodeTree.invokeValue, hargs.length_eq]
    split
    · exact Runs.fault (S.ok_of_bound fun _ h => nomatch h)
    · exact Runs.bind (Runs.step (hE.apply d w _ _ _ _ href hargs)) fun _ _ _ _ hr =>
        Runs.ofReply hr
  cases h with
  | code code params ret => exact hcall params ret (.hosted code)
  | closure index => exact hcall _ _ (.closure index)
  | null => exact Runs.nullReference "invoke"
  | _ =>
    simp only [CodeTree.invokeValue, hname]
    exact Runs.fault (S.ok_of_bound fun _ h => nomatch h)

theorem Runs.readMember {H : Host σ} (hH : S.HostLike H) {E₁ E₂ : Engine σ}
    (hE : S.EngineLike E₁ E₂) (read : Member) {v v' : Value} (h : S.value w v v') :
    S.Runs d w S.value (CodeTree.readMember H E₁ read v) (CodeTree.readMember H E₂ read v') := by
  have hname := h.typeName_eq
  have hread := fun hbase => hH.readMember hbase h read.name
  cases h with
  | record | hosted | fault => exact Runs.runScript hE hread
  | null => exact Runs.nullReference read.name
  | str s =>
    simp only [CodeTree.readMember]
    split
    · exact Runs.pure (ValueLike.int _)
    · exact Runs.fault (S.ok_of_bound fun _ h => nomatch h)
  | array id items =>
    simp only [CodeTree.readMember, items.length_eq, hname]
    split
    · exact Runs.pure (ValueLike.int _)
    · exact Runs.fault (S.ok_of_bound fun _ h => nomatch h)
  | _ =>
    simp only [CodeTree.readMember, hname]
    exact Runs.fault (S.ok_of_bound fun _ h => nomatch h)

theorem Runs.awaitValue {v v' : Value} (h : S.value w v v') :
    S.Runs d w S.value (CodeTree.awaitValue v) (CodeTree.awaitValue v') := by
  have hname := h.typeName_eq
  cases h with
  | task id value => exact Runs.ofReply (.ok value)
  | failedTask id thrown => exact Runs.ofReply (.error thrown)
  | null => exact Runs.nullReference "await"
  | _ =>
    simp only [CodeTree.awaitValue, hname]
    exact Runs.fault (S.ok_of_bound fun _ h => nomatch h)

/-! ## Operators, closures and exceptions -/

/-- An operator's answer: its value, or its fault. -/
def computed (x : Except Fault Value) : Run σ Value :=
  match x with
  | .ok v => pure v
  | .error f => .fault f

theorem Runs.computed {x y : Except Fault Value} (h : ExceptLike MismatchLike (S.value w) x y) :
    S.Runs d w S.value (Setting.computed x) (Setting.computed y) := by
  cases h with
  | ok value => exact Runs.pure value
  | error exit =>
    obtain ⟨rfl, hbound⟩ := exit
    exact Runs.fault (S.ok_of_bound hbound)

/-- All operators but two evaluate both operands and compute. -/
theorem evalBinary_of_ne {op : BinaryOp} (h₁ : op ≠ .andAlso) (h₂ : op ≠ .orElse)
    (ev : Expr → Run σ Value) (a b : Expr) :
    CodeTree.evalBinary ev op a b =
      ev a >>= fun l => ev b >>= fun r => Setting.computed (op.apply l r) := by
  cases op <;> first
    | rfl
    | contradiction

theorem Runs.evalBinary {ev₁ ev₂ : Expr → Run σ Value} (op : BinaryOp) {a a' b b' : Expr}
    (ha : S.Runs d w S.value (ev₁ a) (ev₂ a')) (hb : S.Later d w (ev₁ b) (ev₂ b')) :
    S.Runs d w S.value (CodeTree.evalBinary ev₁ op a b) (CodeTree.evalBinary ev₂ op a' b') := by
  -- the second operand, where it decides
  have hsecond : ∀ w₂, w ≤ w₂ → S.Runs d w₂ S.value
      (do let r ← ev₁ b; let x ← CodeTree.expectBool r; Pure.pure (.bool x))
      (do let r ← ev₂ b'; let x ← CodeTree.expectBool r; Pure.pure (.bool x)) := by
    intro w₂ hw₂
    refine Runs.bind (hb w₂ hw₂) fun w₃ _ r r' hr => ?_
    refine Runs.bind (Runs.expectBool hr) fun w₄ _ x x' hx => ?_
    subst hx
    exact Runs.pure (.bool x)
  by_cases hand : op = .andAlso
  · subst hand
    refine Runs.bind ha fun w₁ hw₁ l l' hl => ?_
    refine Runs.bind (Runs.expectBool hl) fun w₂ hw₂ x x' hx => ?_
    subst hx
    cases x with
    | true => exact hsecond w₂ (le_trans hw₁ hw₂)
    | false => exact Runs.pure (.bool false)
  by_cases hor : op = .orElse
  · subst hor
    refine Runs.bind ha fun w₁ hw₁ l l' hl => ?_
    refine Runs.bind (Runs.expectBool hl) fun w₂ hw₂ x x' hx => ?_
    subst hx
    cases x with
    | true => exact Runs.pure (.bool true)
    | false => exact hsecond w₂ (le_trans hw₁ hw₂)
  rw [evalBinary_of_ne hand hor, evalBinary_of_ne hand hor]
  refine Runs.bind ha fun w₁ hw₁ l l' hl => ?_
  refine Runs.bind (hb w₁ hw₁) fun w₂ hw₂ r r' hr => ?_
  exact Runs.computed ((hl.mono hw₂).binary hr op)

theorem Runs.makeClosure {P Q : Place} (hI : S.interp P.interp Q.interp) (ty : Ty)
    {params : List Param} {body body' : Expr}
    (h : S.ChildLike w P Q (.under params) body body') :
    S.Runs d w S.value (CodeTree.makeClosure P.interp P.scope ty params body)
      (CodeTree.makeClosure Q.interp Q.scope ty params body') := by
  unfold CodeTree.makeClosure
  rw [h.ty]
  refine Runs.bind (Runs.step (Steps.addClosure ?_)) fun w' _ i j hij => Runs.pure (.closure hij)
  exact ⟨rfl, rfl, hI, h.around⟩

theorem Runs.throwValue {v v' : Value} (h : S.value w v v') :
    S.Runs d w S.value (CodeTree.throwValue v) (CodeTree.throwValue v') := by
  unfold CodeTree.throwValue
  rw [h.isNull_eq]
  split
  · exact Runs.nullReference "throw"
  · exact Runs.throw (.throw h)

/-! ## Nodes -/

theorem Runs.evalNode {H : Host σ} (hH : S.HostLike H) {E₁ E₂ : Engine σ}
    (hE : S.EngineLike E₁ E₂) {P Q : Place} (h : S.LayerLike w P Q) :
    S.Runs d w S.value (CodeTree.evalNode H E₁ P.interp P.scope P.tree)
      (CodeTree.evalNode H E₂ Q.interp Q.scope Q.tree) := by
  obtain ⟨hty, hI, hshape, hread, hassigned, hrethrow⟩ := h
  have hev : ∀ a b, S.ChildLike w P Q .plain a b →
      S.Later d w (E₁.eval P.interp P.scope a) (E₂.eval Q.interp Q.scope b) :=
    fun a b l w' hw => hE.eval d w' _ _ (S.place_mono hw l.around)
  have hnow : ∀ a b, S.ChildLike w P Q .plain a b → S.Runs d w S.value
      (E₁.eval P.interp P.scope a) (E₂.eval Q.interp Q.scope b) :=
    fun a b l => hev a b l w (le_refl w)
  have hall : ∀ w', w ≤ w' → ∀ as bs, List.Forall₂ (S.ChildLike w P Q .plain) as bs →
      S.Runs d w' (fun w => ValuesLike w S.ok) (CodeTree.evalAll (E₁.eval P.interp P.scope) as)
        (CodeTree.evalAll (E₂.eval Q.interp Q.scope) bs) :=
    fun w' hw as bs l => Runs.evalAll (l.imp fun a b l => (hev a b l).mono hw)
  unfold CodeTree.evalNode
  dsimp only
  rw [hty]
  revert hshape hread hassigned hrethrow
  generalize P.tree.shape = s, Q.tree.shape = t
  intro hshape hread hassigned hrethrow
  cases hshape with
  | empty => exact Runs.pure .void
  | constant value => exact Runs.pure value
  | parameter p =>
    refine Runs.bind (Runs.step (Steps.lookup (hread p rfl))) fun w' _ x y hxy => ?_
    obtain ⟨hvalue | _, hok⟩ := hxy
    · exact Runs.pure hvalue
    · exact Runs.fault (hok rfl)
  | block locals hbody => exact Runs.evalBlock hE hbody
  | conditional ht ha hb =>
    refine Runs.bind (hnow _ _ ht) fun w₁ hw₁ v v' hv => ?_
    refine Runs.bind (Runs.expectBool hv) fun w₂ hw₂ b b' hb' => ?_
    subst hb'
    have hw := le_trans hw₁ hw₂
    cases b with
    | true => exact Runs.bind (hev _ _ ha w₂ hw) fun _ _ v v' hv => Runs.pure (hv.settle _)
    | false => exact Runs.bind (hev _ _ hb w₂ hw) fun _ _ v v' hv => Runs.pure (hv.settle _)
  | switch comparer hvalue hcases hdefault =>
    refine Runs.bind (hnow _ _ hvalue) fun w₁ hw₁ x x' hx => ?_
    have hpick := Runs.selectCase hcases (fun a b l => (hev a b l).mono hw₁)
      fun w₂ hw₂ v v' hv => Runs.accepts hH hE comparer (hx.mono hw₂) hv
    refine Runs.bind hpick fun w₂ hw₂ o o' ho => ?_
    have hchosen := orElse_like ho hdefault
    revert hchosen
    generalize (o <|> _) = c, (o' <|> _) = c'
    intro hchosen
    rcases hchosen with hbody | _
    · exact Runs.bind (hev _ _ hbody w₂ (le_trans hw₁ hw₂)) fun _ _ v v' hv =>
        Runs.pure (hv.settle _)
    · exact Runs.pure .void
  | guarded hb hh hc => exact Runs.evalGuarded hE hb hh hc
  | throw hvalue =>
    cases hvalue with
    | some hvalue =>
      exact Runs.bind (hnow _ _ hvalue) fun _ _ v v' hv => Runs.throwValue hv
    | none =>
      have hcurrent := hrethrow rfl
      revert hcurrent
      generalize P.scope.currentException? = o, Q.scope.currentException? = o'
      intro hcurrent
      rcases hcurrent with hv | _
      · exact Runs.throwValue hv
      · exact Runs.fault (S.ok_of_bound fun _ h => nomatch h)
  | @call receiver receiver' args args' method hr ha =>
    have hdispatch : ∀ w₁, w ≤ w₁ → ∀ self self', Option.Rel (S.value w₁) self self' →
        S.Runs d w₁ S.value
          (CodeTree.evalAll (E₁.eval P.interp P.scope) args >>= CodeTree.dispatch H E₁ method self)
          (CodeTree.evalAll (E₂.eval Q.interp Q.scope) args' >>=
            CodeTree.dispatch H E₂ method self') := by
      intro w₁ hw₁ self self' hself
      refine Runs.bind (hall w₁ hw₁ _ _ ha) fun w₂ hw₂ vs vs' hvs => ?_
      refine Runs.dispatch hH hE method ?_ hvs
      cases hself with
      | none => exact .none
      | some hv => exact .some (hv.mono hw₂)
    cases hr with
    | none => exact hdispatch w (le_refl w) none none .none
    | some hr =>
      dsimp only
      split
      · exact hdispatch w (le_refl w) none none .none
      · refine Runs.bind (R := fun w => Option.Rel (S.value w)) ?_ hdispatch
        exact Runs.bind (hnow _ _ hr) fun w' _ v v' hv => Runs.pure (.some hv)
  | construct ctor ha =>
    refine Runs.bind (hall w (le_refl w) _ _ ha) fun w' _ vs vs' hvs => ?_
    exact Runs.runScript hE fun hbase => hH.run w' hbase _ _ _ _ _ .none hvs
  | invoke ht ha =>
    refine Runs.bind (hnow _ _ ht) fun w₁ hw₁ v v' hv => ?_
    refine Runs.bind (hall w₁ hw₁ _ _ ha) fun w₂ hw₂ vs vs' hvs => ?_
    exact Runs.invokeValue hE (hv.mono hw₂) hvs
  | member read ht =>
    cases ht with
    | some ht => exact Runs.bind (hnow _ _ ht) fun _ _ v v' hv => Runs.readMember hH hE read hv
    | none => exact Runs.fault (S.ok_of_bound fun _ h => nomatch h)
  | convert kind ha =>
    refine Runs.bind (hnow _ _ ha) fun w' _ v v' hv => ?_
    have hconverted := hv.converted kind Q.tree.ty
    revert hconverted
    generalize CodeTree.convert kind v Q.tree.ty = x, CodeTree.convert kind v' Q.tree.ty = y
    intro hconverted
    rcases hconverted with value | rfl
    · exact Runs.pure value
    · exact Runs.raise _ _
  | typeIs testTy ha =>
    refine Runs.bind (hnow _ _ ha) fun w' _ v v' hv => ?_
    rw [hv.isInstance_eq]
    exact Runs.pure (.bool _)
  | unary op ha =>
    exact Runs.bind (hnow _ _ ha) fun w' _ v v' hv => Runs.computed (hv.unary op)
  | binary op ha hb => exact Runs.evalBinary op (hnow _ _ ha) (hev _ _ hb)
  | assign target ha =>
    refine Runs.bind (hnow _ _ ha) fun w₁ hw₁ v v' hv => ?_
    have hresolves := Resolves.mono hw₁ (hassigned target _ rfl)
    refine Runs.bind (Runs.step (Steps.assign hresolves hv)) fun w₂ hw₂ b b' hb => ?_
    obtain ⟨rfl, hok⟩ := hb
    cases b with
    | true => exact Runs.pure (hv.mono hw₂)
    | false => exact Runs.fault (hok rfl)
  | lambda params hbody => exact Runs.makeClosure hI _ hbody
  | await ha => exact Runs.bind (hnow _ _ ha) fun _ _ v v' hv => Runs.awaitValue hv
  | newArray elem hitems =>
    refine Runs.bind (hall w (le_refl w) _ _ hitems) fun w₁ _ vs vs' hvs => ?_
    refine Runs.bind (Runs.step Steps.fresh) fun w₂ hw₂ id id' hid => ?_
    exact Runs.pure (.array hid (ValuesLike.mono hw₂ hvs))
  | jump kind target hvalue =>
    cases hvalue with
    | some hvalue =>
      exact Runs.bind (hnow _ _ hvalue) fun _ _ v v' hv => Runs.throw (.jump target hv)
    | none => exact Runs.throw (.jump target .void)
  | label target hdefault =>
    cases hdefault with
    | some hdefault => exact hnow _ _ hdefault
    | none => exact Runs.pure .void
  | loop breakLabel continueLabel hbody => exact Runs.iterate hE.rounds w (hev _ _ hbody)

/-! ## Callables -/

/-- What a permission has to do with a setting: the closures it covers may be called, and
only while their interpreters may start an activation. -/
def Permits (S : Setting σ) (permit : Permission σ) : Prop :=
  ∀ m i c, permit.call m (.closure i) → m.closures[i]? = some c →
    S.callable i ∧ S.within c.interp m.depths

theorem applyRef_of_some (H : Host σ) (E : Engine σ) {m : Machine σ} {i : Nat} {c : Closure}
    (h : m.closures[i]? = some c) (args : List Value) :
    CodeTree.applyRef H E (.closure i) args m = (CodeTree.callClosure E c args).toReply m := by
  simp only [CodeTree.applyRef, bind, StateT.bind, Step.closure?, Option.bind, h]

theorem applyRef_of_none (H : Host σ) (E : Engine σ) {m : Machine σ} {i : Nat}
    (h : m.closures[i]? = none) (args : List Value) :
    CodeTree.applyRef H E (.closure i) args m =
      Run.toReply.faulted (.unsupported "call of a closure that was never made") m := by
  simp only [CodeTree.applyRef, bind, StateT.bind, Step.closure?, Option.bind, h]

theorem Steps.applyRef {H : Host σ} (hH : S.HostLike H) {permit : Permission σ}
    (hpermit : S.Permits permit) {E₁ E₂ : Engine σ} (hE : S.EngineLike E₁ E₂)
    {ref ref' : FuncRef} (href : RefLike w ref ref') {args args' : List Value}
    (hargs : ValuesLike w S.ok args args') :
    S.Steps d w (fun w => ReplyLike w S.ok)
      (fun m => if permit.call m ref then CodeTree.applyRef H E₁ ref args m else none)
      (CodeTree.applyRef H E₂ ref' args') := by
  intro m₁ m₂ hm r m₁' hx
  dsimp only at hx
  split at hx
  · next hallowed =>
    cases href with
    | hosted code =>
      exact Steps.play (fun w ref ref' args args' => hE.apply d w ref ref' args args')
        (hH.run w hm.above code none none args args' .none hargs) m₁ m₂ hm r m₁' hx
    | @closure i j hij =>
      cases hc : m₁.closures[i]? with
      | some c₁ =>
        obtain ⟨hcallable, hwithin⟩ := hpermit m₁ i c₁ hallowed hc
        obtain ⟨c₂, hc₂, hlike⟩ := hm.made i j hij hcallable c₁ hc
        rw [applyRef_of_some H E₁ hc] at hx
        rw [applyRef_of_some H E₂ hc₂]
        rw [hm.depths₁] at hwithin
        exact (Runs.callClosure hE hlike hwithin hargs).toReply m₁ m₂ hm r m₁' hx
      | none =>
        -- closures that are paired have been made on both sides or on none
        have hnone : m₂.closures[j]? = none := by
          rw [Array.getElem?_eq_none_iff] at hc ⊢
          rcases hm.closures i j hij with ⟨hi, _⟩ | ⟨_, k, _, hj⟩ <;> omega
        rw [applyRef_of_none H E₁ hc] at hx
        rw [applyRef_of_none H E₂ hnone]
        refine Steps.faulted (S.ok_of_bound ?_) m₁ m₂ hm r m₁' hx
        exact fun _ h => nomatch h
  · cases hx

end Constructs

/-! ## The simulation -/

/-- What makes a setting one of evaluations that go side by side, the first one as far as
`permit` goes. The second one then does nothing but what `watch` permits. -/
structure Lawful (S : Setting σ) (H : Host σ) (permit watch : Permission σ) : Prop where
  host : S.HostLike H
  permits : S.Permits permit
  visits : ∀ w d m₁ m₂ P Q, S.place w P Q → S.Similar w d m₁ m₂ → watch.visit m₂ Q.scope Q.tree
  calls : ∀ m ref, watch.call m ref
  /-- Places that correspond do so layer by layer, unless their evaluations are related
  outright. -/
  step : ∀ w P Q, S.place w P Q → S.LayerLike w P Q ∨ ∀ d n₁ n₂, n₁ ≤ n₂ →
    S.Runs d w S.value (evalWhile H permit (n₁ + 1) P.interp P.scope P.tree)
      (evalWhile H watch (n₂ + 1) Q.interp Q.scope Q.tree)

/-- An action that is watched goes on where the watch lets it, and one that is permitted is
what it is without the permission. -/
theorem Steps.watched {α β : Type} {d : Array Nat × Array Nat} {w : World}
    {R : World → α → β → Prop} {x : Step σ α} {y : Step σ β} (h : S.Steps d w R x y)
    {permit watch : Machine σ → Bool} (hwatch : ∀ m₁ m₂, S.Similar w d m₁ m₂ → watch m₂) :
    S.Steps d w R (fun m => if permit m then x m else none)
      (fun m => if watch m then y m else none) := by
  intro m₁ m₂ hm a m₁' hx
  dsimp only at hx ⊢
  rw [if_pos (hwatch m₁ m₂ hm)]
  split at hx
  · exact h m₁ m₂ hm a m₁' hx
  · cases hx

/-- Whatever the first side does with some fuel, the second one does with at least as much. -/
theorem Lawful.engines {H : Host σ} {permit watch : Permission σ}
    (h : S.Lawful H permit watch) :
    ∀ {n₁ n₂ : Nat}, n₁ ≤ n₂ → S.EngineLike (engineWhile H permit n₁) (engineWhile H watch n₂)
  | 0, n₂, hn =>
    { rounds := hn
      eval := fun d w P Q _ => by
        show S.Runs d w S.value (evalWhile H permit 0 P.interp P.scope P.tree) _
        rw [evalWhile]
        exact fun m₁ m₂ _ a m₁' hx => nomatch hx
      apply := fun d w ref ref' args args' _ _ => by
        show S.Steps d w _ (applyWhile H permit 0 ref args) _
        rw [applyWhile]
        exact fun m₁ m₂ _ a m₁' hx => nomatch hx }
  | n₁ + 1, 0, hn => absurd hn (by omega)
  | n₁ + 1, n₂ + 1, hn =>
    have ih := h.engines (Nat.le_of_succ_le_succ hn)
    { rounds := hn
      eval := fun d w P Q hplace => by
        show S.Runs d w S.value (evalWhile H permit (n₁ + 1) P.interp P.scope P.tree)
          (evalWhile H watch (n₂ + 1) Q.interp Q.scope Q.tree)
        -- one layer is evaluated by engines of less fuel
        rcases h.step w P Q hplace with hlayer | hdirect
        · rw [evalWhile, evalWhile]
          exact Steps.watched (Runs.evalNode h.host ih hlayer) fun m₁ m₂ hm =>
            h.visits w d m₁ m₂ P Q hplace hm
        · exact hdirect d n₁ n₂ (Nat.le_of_succ_le_succ hn)
      apply := fun d w ref ref' args args' href hargs => by
        show S.Steps d w _ (applyWhile H permit (n₁ + 1) ref args)
          (applyWhile H watch (n₂ + 1) ref' args')
        rw [applyWhile, applyWhile]
        intro m₁ m₂ hm r m₁' hx
        simp only [h.calls, if_true]
        exact Steps.applyRef h.host h.permits ih href hargs m₁ m₂ hm r m₁' hx }

end Setting

end CodeTree
