import CodeTree.Proofs.Sequence
import CodeTree.Proofs.Simulation
import Mathlib.Order.Basic

/-!
# Evaluations that go in step

Two evaluations go in step if they give equal values, draw the same identities, make their
closures at the same moments and leave the host in the same state. What may differ is the
frames, the scopes and the trees, as far as a `Lockstep` says: it relates stores and places,
and its relations may grow along the run. Where it says so, both evaluations end together;
otherwise the second one ends where the first one does.

* `Lockstep.Steps`, `Lockstep.Runs` — actions that keep machines in step, with the counters of
  activations fixed;
* `Lockstep.LayerLike` — layers that are the same but for their children, over scopes that
  find the same values;
* one lemma for each construct, up to `Runs.evalNode` and `Steps.applyRef`;
* `Lockstep.engines` — by induction on the fuel, evaluations of related places go in step.

Equal values make this simpler than a simulation up to a renaming: host code is the same
script on both sides, and an operator the same computation.
-/

namespace CodeTree

/-! ## Frames that are opened -/

namespace Store

/-- Binds variables in one frame, one after another. -/
def writeAll (s : Store) (f : Nat) : List (Param × Value) → Store
  | [] => s
  | (p, v) :: bindings => (s.write f p.id v).writeAll f bindings

/-- A new frame with bindings. -/
def opened (s : Store) (bindings : List (Param × Value)) : Store :=
  (⟨s.frames.push []⟩ : Store).writeAll s.frames.size bindings

theorem frame_writeAll_of_ne {f n : Nat} (h : n ≠ f) :
    ∀ (bindings : List (Param × Value)) (s : Store), (s.writeAll f bindings).frame n = s.frame n
  | [], _ => rfl
  | (p, v) :: bindings, s => by
    rw [writeAll, frame_writeAll_of_ne h bindings, frame_write_of_ne h]

/-- Opening a frame changes no other. -/
theorem frame_opened_of_ne {s : Store} {n : Nat} (h : n ≠ s.frames.size)
    (bindings : List (Param × Value)) : (s.opened bindings).frame n = s.frame n := by
  rw [opened, frame_writeAll_of_ne h]
  exact s.frame_push [] none n

end Store

/-- Variables that are bound to values. -/
theorem map_fst_bound (vars : List Param) (value : Param → Value) :
    (vars.map fun p => (p, value p)).map Prod.fst = vars := by
  rw [List.map_map]
  exact List.map_id vars

/-! ## The data -/

/-- What two evaluations may differ in. The index of the relations grows along a run. -/
structure Lockstep (W : Type) [Preorder W] where
  /-- Whether the first evaluation ends where the second one does. -/
  both : Prop
  memory : W → Store → Store → Prop
  place : W → Place → Place → Prop
  place_mono : ∀ {w w' : W}, w ≤ w' → ∀ {P Q : Place}, place w P Q → place w' P Q

/-- The index of relations that do not grow. -/
structure Still where

instance : Preorder Still where
  le _ _ := True
  le_refl _ := trivial
  le_trans _ _ _ _ _ := trivial

/-- Results of two actions: the second one has ended where the first one has and, if `both`
holds, the other way round. -/
inductive EndsLike {α β : Type} (both : Prop) (T : α → β → Prop) : Option α → Option β → Prop
  | ended {a : α} {b : β} (h : T a b) : EndsLike both T (some a) (some b)
  | neither : EndsLike both T none none
  | behind (h : ¬both) (b : β) : EndsLike both T none (some b)

namespace EndsLike

variable {α β γ δ : Type} {both : Prop} {T : α → β → Prop} {U : γ → δ → Prop}

theorem imp {T' : α → β → Prop} {x : Option α} {y : Option β} (h : EndsLike both T x y)
    (hT : ∀ a b, T a b → T' a b) : EndsLike both T' x y := by
  cases h with
  | ended h => exact .ended (hT _ _ h)
  | neither => exact .neither
  | behind h b => exact .behind h b

theorem bind {x : Option α} {y : Option β} {f : α → Option γ} {g : β → Option δ}
    (h : EndsLike both T x y) (hf : ∀ a b, T a b → EndsLike both U (f a) (g b)) :
    EndsLike both U (x.bind f) (y.bind g) := by
  cases h with
  | ended h => exact hf _ _ h
  | neither => exact .neither
  | behind h b =>
    show EndsLike both U none (g b)
    cases g b with
    | none => exact .neither
    | some c => exact .behind h c

/-- The first action has not ended, and the second one need not. -/
theorem of_none {y : Option β} (h : both → y = none) : EndsLike both T none y := by
  cases y with
  | none => exact .neither
  | some b => exact .behind (fun hboth => nomatch h hboth) b

theorem of_some {x : Option α} {y : Option β} {a : α} (h : EndsLike both T x y)
    (hx : x = some a) : ∃ b, y = some b ∧ T a b := by
  subst hx
  cases h with
  | ended h => exact ⟨_, rfl, h⟩

theorem rel (h : both) {x : Option α} {y : Option β} (l : EndsLike both T x y) :
    Option.Rel T x y := by
  cases l with
  | ended h => exact .some h
  | neither => exact .none
  | behind hnot => exact absurd h hnot

end EndsLike

namespace Lockstep

variable {σ W : Type} [Preorder W] (L : Lockstep W)

/-- A new frame with bindings of these variables, in front of a scope on either side, keeps the
stores related and the scopes as `T` says. -/
def Opens (w : W) (s₁ s₂ : Scope) (vars : List Param) (T : W → Scope → Scope → Prop) : Prop :=
  ∀ w', w ≤ w' → ∀ st₁ st₂, L.memory w' st₁ st₂ → ∀ handling bindings,
    bindings.map Prod.fst = vars → ∃ w'', w' ≤ w'' ∧
      L.memory w'' (st₁.opened bindings) (st₂.opened bindings) ∧
      T w'' (s₁.extended st₁.frames.size handling) (s₂.extended st₂.frames.size handling)

/-- Closures whose bodies are related once their parameters are bound. -/
structure ClosureLike (w : W) (c₁ c₂ : Closure) : Prop where
  params : c₁.params = c₂.params
  ret : c₁.ret = c₂.ret
  interp : c₁.interp = c₂.interp
  body : L.Opens w c₁.scope c₂.scope c₁.params fun w' s₁ s₂ =>
    L.place w' ⟨c₁.interp, s₁, c₁.body⟩ ⟨c₂.interp, s₂, c₂.body⟩

/-- Machines in step. -/
structure Similar (w : W) (d : Array Nat) (m₁ m₂ : Machine σ) : Prop where
  next : m₁.next = m₂.next
  host : m₁.host = m₂.host
  depths₁ : m₁.depths = d
  depths₂ : m₂.depths = d
  store : L.memory w m₁.store m₂.store
  made : m₁.closures.size = m₂.closures.size
  closures : ∀ i : Nat, Option.Rel (L.ClosureLike w) m₁.closures[i]? m₂.closures[i]?

/-- Actions that keep machines in step. -/
def Steps {α β : Type} (d : Array Nat) (w : W) (R : α → β → Prop) (x : Step σ α)
    (y : Step σ β) : Prop :=
  ∀ m₁ m₂, L.Similar w d m₁ m₂ → EndsLike L.both
    (fun p q => ∃ w', w ≤ w' ∧ L.Similar w' d p.2 q.2 ∧ R p.1 q.1) (x m₁) (y m₂)

/-- Actions that may leave early, on both sides in the same way. -/
def Runs {α β : Type} (d : Array Nat) (w : W) (R : α → β → Prop) (x : Run σ α)
    (y : Run σ β) : Prop :=
  L.Steps d w (ExceptLike Eq R) x.run y.run

/-- Engines that take related places and equal calls to runs in step. -/
structure Engines (d : Array Nat) (E₁ E₂ : Engine σ) : Prop where
  rounds : E₁.rounds ≤ E₂.rounds
  rounds_eq : L.both → E₁.rounds = E₂.rounds
  eval : ∀ w P Q, L.place w P Q → L.Runs d w Eq (E₁.eval P.interp P.scope P.tree)
    (E₂.eval Q.interp Q.scope Q.tree)
  apply : ∀ w ref args, L.Steps d w Eq (E₁.apply ref args) (E₂.apply ref args)

/-- A variable has the same value on both sides, or none. -/
def Reads (w : W) (s₁ s₂ : Scope) (p : Param) : Prop :=
  ∀ w', w ≤ w' → ∀ st₁ st₂, L.memory w' st₁ st₂ → st₁.lookup s₁ p.id = st₂.lookup s₂ p.id

/-- An assignment finds a binding on both sides or on none, and keeps the stores related. -/
def Writes (w : W) (s₁ s₂ : Scope) (p : Param) : Prop :=
  ∀ w', w ≤ w' → ∀ st₁ st₂, L.memory w' st₁ st₂ → ∀ v,
    (st₁.assign s₁ p.id v).1 = (st₂.assign s₂ p.id v).1 ∧
      L.memory w' (st₁.assign s₁ p.id v).2 (st₂.assign s₂ p.id v).2

/-- Layers that are the same but for their children, which correspond by `C`, over scopes that
find the same values. -/
structure LayerLike (w : W) (P Q : Place) (C : Position → Expr → Expr → Prop) : Prop where
  ty : P.tree.ty = Q.tree.ty
  interp : P.interp = Q.interp
  shape : Shape.Like Eq C P.tree.shape Q.tree.shape
  label : ∀ q a b, C q a b → a.label? = b.label?
  inside : ∀ a b, C .plain a b → L.place w { P with tree := a } { Q with tree := b }
  around : ∀ q, q ≠ .plain → L.Opens w P.scope Q.scope q.declared fun w' s₁ s₂ =>
    ∀ a b, C q a b → L.place w' ⟨P.interp, s₁, a⟩ ⟨Q.interp, s₂, b⟩
  ret : ∀ params a b, P.tree.shape = .lambda params a → Q.tree.shape = .lambda params b →
    (P.tree.ty.signature?.map Prod.snd).getD a.ty = (P.tree.ty.signature?.map Prod.snd).getD b.ty
  read : ∀ p, P.tree.shape = .parameter p → L.Reads w P.scope Q.scope p
  assigned : ∀ p a, P.tree.shape = .assign p a → L.Writes w P.scope Q.scope p
  rethrow : P.tree.shape = .throw none → P.scope.currentException? = Q.scope.currentException?

variable {L} {d : Array Nat} {w w' : W}

theorem Opens.mono (h : w ≤ w') {s₁ s₂ : Scope} {vars : List Param}
    {T : W → Scope → Scope → Prop} (l : L.Opens w s₁ s₂ vars T) : L.Opens w' s₁ s₂ vars T :=
  fun w'' hw => l w'' (le_trans h hw)

theorem Opens.imp {s₁ s₂ : Scope} {vars : List Param} {T T' : W → Scope → Scope → Prop}
    (l : L.Opens w s₁ s₂ vars T) (hT : ∀ w' t₁ t₂, T w' t₁ t₂ → T' w' t₁ t₂) :
    L.Opens w s₁ s₂ vars T' := by
  intro w' hw st₁ st₂ hst handling bindings hvars
  obtain ⟨w'', hw', hst', h⟩ := l w' hw st₁ st₂ hst handling bindings hvars
  exact ⟨w'', hw', hst', hT w'' _ _ h⟩

theorem ClosureLike.mono (h : w ≤ w') {c₁ c₂ : Closure} (l : L.ClosureLike w c₁ c₂) :
    L.ClosureLike w' c₁ c₂ :=
  ⟨l.params, l.ret, l.interp, l.body.mono h⟩

/-- The bodies of such closures are related in new frames. -/
theorem ClosureLike.place {c₁ c₂ : Closure} (l : L.ClosureLike w c₁ c₂) {st₁ st₂ : Store}
    (hst : L.memory w st₁ st₂) :
    ∃ w', L.place w' ⟨c₁.interp, c₁.scope.extended st₁.frames.size none, c₁.body⟩
      ⟨c₂.interp, c₂.scope.extended st₂.frames.size none, c₂.body⟩ := by
  obtain ⟨w', -, -, hplace⟩ := l.body w (le_refl w) st₁ st₂ hst none
    (c₁.params.map fun p => (p, .default p.ty)) (map_fst_bound c₁.params _)
  exact ⟨w', hplace⟩

theorem Similar.closures_mono {m₁ m₂ : Machine σ} (hm : L.Similar w d m₁ m₂) (h : w ≤ w')
    (i : Nat) : Option.Rel (L.ClosureLike w') m₁.closures[i]? m₂.closures[i]? :=
  optionRel_imp (fun _ _ => ClosureLike.mono h) (hm.closures i)

/-! ## Sequences -/

section Sequences

variable {α β γ δ : Type} {R : α → β → Prop} {T : γ → δ → Prop}

namespace Steps

theorem imp {R' : α → β → Prop} {x : Step σ α} {y : Step σ β} (h : L.Steps d w R x y)
    (hR : ∀ a b, R a b → R' a b) : L.Steps d w R' x y := by
  intro m₁ m₂ hm
  refine (h m₁ m₂ hm).imp fun p q hpq => ?_
  obtain ⟨w', hw, hm', hab⟩ := hpq
  exact ⟨w', hw, hm', hR _ _ hab⟩

theorem pure {a : α} {b : β} (h : R a b) :
    L.Steps d w R (Pure.pure a : Step σ α) (Pure.pure b) :=
  fun _ _ hm => .ended ⟨w, le_refl w, hm, h⟩

theorem bind {x : Step σ α} {y : Step σ β} {f : α → Step σ γ} {g : β → Step σ δ}
    (h : L.Steps d w R x y) (hf : ∀ w', w ≤ w' → ∀ a b, R a b → L.Steps d w' T (f a) (g b)) :
    L.Steps d w T (x >>= f) (y >>= g) := by
  intro m₁ m₂ hm
  refine (h m₁ m₂ hm).bind fun p q hpq => ?_
  obtain ⟨w', hw, hm', hab⟩ := hpq
  refine (hf w' hw _ _ hab _ _ hm').imp fun p q hpq => ?_
  obtain ⟨w'', hw', hm'', hcd⟩ := hpq
  exact ⟨w'', le_trans hw hw', hm'', hcd⟩

end Steps

namespace Runs

theorem pure {a : α} {b : β} (h : R a b) : L.Runs d w R (Pure.pure a : Run σ α) (Pure.pure b) :=
  Steps.pure (.ok h)

theorem bind {x : Run σ α} {y : Run σ β} {f : α → Run σ γ} {g : β → Run σ δ}
    (h : L.Runs d w R x y) (hf : ∀ w', w ≤ w' → ∀ a b, R a b → L.Runs d w' T (f a) (g b)) :
    L.Runs d w T (x >>= f) (y >>= g) := by
  refine Steps.bind h fun w' hw r r' hr => ?_
  cases hr with
  | ok value => exact hf w' hw _ _ value
  | error exit => exact Steps.pure (.error exit)

/-- After equal results, both sides go on in the same way. -/
theorem bind_eq {x y : Run σ α} {f : α → Run σ γ} {g : α → Run σ δ} (h : L.Runs d w Eq x y)
    (hf : ∀ w', w ≤ w' → ∀ a, L.Runs d w' T (f a) (g a)) :
    L.Runs d w T (x >>= f) (y >>= g) :=
  bind h fun w' hw a _ hab => hab ▸ hf w' hw a

theorem throw (exit : Exit) : L.Runs d w R (MonadExcept.throw exit : Run σ α)
    (MonadExcept.throw exit : Run σ β) :=
  Steps.pure (.error rfl)

theorem fault (f : Fault) : L.Runs d w R (Run.fault f : Run σ α) (Run.fault f : Run σ β) :=
  throw (.fault f)

/-- An action that does not leave early. -/
theorem step {x : Step σ α} {y : Step σ β} (h : L.Steps d w R x y) :
    L.Runs d w R (Run.step x) (Run.step y) :=
  Steps.bind (f := fun a => Pure.pure (Except.ok a)) (g := fun b => Pure.pure (Except.ok b)) h
    fun _ _ _ _ hab => Steps.pure (.ok hab)

/-- The outcome of an action, held back. -/
theorem held {x y : Run σ α} (h : L.Runs d w Eq x y) :
    L.Runs d w Eq (Run.step x.run) (Run.step y.run) :=
  step (Steps.imp h fun _ _ hr => hr.eq)

theorem resume (r : Except Exit α) : L.Runs d w Eq (Run.resume r : Run σ α) (Run.resume r) := by
  cases r with
  | ok a => exact pure rfl
  | error exit => exact throw exit

end Runs

end Sequences

/-! ## Primitive actions -/

section Primitives

theorem Steps.fresh : L.Steps d w Eq (Step.fresh : Step σ Nat) Step.fresh := by
  intro m₁ m₂ hm
  exact .ended ⟨w, le_refl w,
    { hm with next := congrArg (· + 1) hm.next }, hm.next⟩

theorem Steps.lookup {s₁ s₂ : Scope} {p : Param} (h : L.Reads w s₁ s₂ p) :
    L.Steps d w Eq (Step.lookup s₁ p : Step σ (Option Value)) (Step.lookup s₂ p) := by
  intro m₁ m₂ hm
  exact .ended ⟨w, le_refl w, hm, h w (le_refl w) _ _ hm.store⟩

theorem Steps.assign {s₁ s₂ : Scope} {p : Param} (h : L.Writes w s₁ s₂ p) (v : Value) :
    L.Steps d w Eq (Step.assign s₁ p v : Step σ Bool) (Step.assign s₂ p v) := by
  intro m₁ m₂ hm
  obtain ⟨hfound, hstore⟩ := h w (le_refl w) _ _ hm.store v
  exact .ended ⟨w, le_refl w, { hm with store := hstore }, hfound⟩

theorem declareAll_extended (scope : Scope) (f : Nat) (handling : Option Value) :
    ∀ (bindings : List (Param × Value)) (m : Machine σ),
      Step.declareAll (scope.extended f handling) bindings m =
        some ((), { m with store := m.store.writeAll f bindings })
  | [], _ => rfl
  | (p, v) :: bindings, m =>
    declareAll_extended scope f handling bindings { m with store := m.store.write f p.id v }

/-- Going into a scope of its own. -/
theorem opening_run {α : Type} (scope : Scope) (handling : Option Value)
    (bindings : List (Param × Value)) (k : Scope → Run σ α) (m : Machine σ) :
    (do
      let inner ← Run.step (Step.onStore fun s => s.push scope.links handling)
      Run.step (Step.declareAll inner bindings)
      k inner : Run σ α).run m =
    (k (scope.extended m.store.frames.size handling)).run
      { m with store := m.store.opened bindings } := by
  rw [run_step_bind]
  show ((Run.step (Step.declareAll (scope.extended m.store.frames.size handling) bindings) >>=
    fun _ => k (scope.extended m.store.frames.size handling)).run
      { m with store := ⟨m.store.frames.push []⟩ }) = _
  rw [run_step_bind, declareAll_extended]
  rfl

/-- Both sides go into a scope of their own, with the same bindings in it. -/
theorem Runs.opening {α β : Type} {R : α → β → Prop} {s₁ s₂ : Scope} {vars : List Param}
    {T : W → Scope → Scope → Prop} (h : L.Opens w s₁ s₂ vars T) (handling : Option Value)
    {bindings : List (Param × Value)} (hvars : bindings.map Prod.fst = vars)
    {f : Scope → Run σ α} {g : Scope → Run σ β}
    (hf : ∀ w', w ≤ w' → ∀ t₁ t₂, T w' t₁ t₂ → L.Runs d w' R (f t₁) (g t₂)) :
    L.Runs d w R
      (do
        let inner ← Run.step (Step.onStore fun s => s.push s₁.links handling)
        Run.step (Step.declareAll inner bindings)
        f inner)
      (do
        let inner ← Run.step (Step.onStore fun s => s.push s₂.links handling)
        Run.step (Step.declareAll inner bindings)
        g inner) := by
  intro m₁ m₂ hm
  obtain ⟨w', hw, hstore, hT⟩ := h w (le_refl w) _ _ hm.store handling bindings hvars
  have hm' : L.Similar w' d { m₁ with store := m₁.store.opened bindings }
      { m₂ with store := m₂.store.opened bindings } :=
    { hm with store := hstore, closures := hm.closures_mono hw }
  rw [opening_run, opening_run]
  refine (hf w' hw _ _ hT _ _ hm').imp fun p q hpq => ?_
  obtain ⟨w'', hw', hm'', hR⟩ := hpq
  exact ⟨w'', le_trans hw hw', hm'', hR⟩

theorem Steps.addClosure {c₁ c₂ : Closure} (hc : L.ClosureLike w c₁ c₂) :
    L.Steps d w Eq (Step.addClosure c₁ : Step σ Nat) (Step.addClosure c₂) := by
  intro m₁ m₂ hm
  refine .ended ⟨w, le_refl w, { hm with made := ?_, closures := fun i => ?_ }, hm.made⟩
  · show (m₁.closures.push c₁).size = (m₂.closures.push c₂).size
    rw [Array.size_push, Array.size_push, hm.made]
  · show Option.Rel _ (m₁.closures.push c₁)[i]? (m₂.closures.push c₂)[i]?
    rw [Array.getElem?_push, Array.getElem?_push, hm.made]
    split
    · exact .some hc
    · exact hm.closures i

/-- Both sides play the same script. -/
theorem Steps.play {apply₁ apply₂ : FuncRef → List Value → Step σ Reply}
    (happly : ∀ w ref args, L.Steps d w Eq (apply₁ ref args) (apply₂ ref args)) {α : Type} :
    ∀ (s : Script σ α) (w : W), L.Steps d w Eq (Step.play apply₁ s) (Step.play apply₂ s)
  | .done a, _ => Steps.pure rfl
  | .read next, w => fun m₁ m₂ hm => by
    have h := Steps.play happly (next m₁.host) w m₁ m₂ hm
    show EndsLike _ _ (Step.play apply₁ (next m₁.host) m₁) (Step.play apply₂ (next m₂.host) m₂)
    rw [← hm.host]
    exact h
  | .write state next, w => fun m₁ m₂ hm =>
    Steps.play happly next w { m₁ with host := state } { m₂ with host := state }
      { hm with host := rfl }
  | .fresh next, w => Steps.bind Steps.fresh fun w' _ _ id hid => by
    subst hid
    exact Steps.play happly (next _) w'
  | .call callee args next, w => Steps.bind (happly w callee args) fun w' _ _ reply hreply => by
    subst hreply
    exact Steps.play happly (next _) w'

theorem Runs.raise {α β : Type} {R : α → β → Prop} (cls : Ty) (message : String) :
    L.Runs d w R (Run.raise cls message : Run σ α) (Run.raise cls message : Run σ β) :=
  Runs.bind_eq (Runs.step Steps.fresh) fun _ _ _ => Runs.throw _

theorem Runs.nullReference {α β : Type} {R : α → β → Prop} (what : String) :
    L.Runs d w R (Run.nullReference what : Run σ α) (Run.nullReference what : Run σ β) :=
  Runs.raise _ _

theorem Runs.ofReply (reply : Reply) :
    L.Runs d w Eq (Run.ofReply reply : Run σ Value) (Run.ofReply reply) := by
  unfold Run.ofReply
  split
  · exact Runs.pure rfl
  · exact Runs.fault _
  · exact Runs.throw _

theorem Steps.faulted (f : Fault) :
    L.Steps d w Eq (Run.toReply.faulted f : Step σ Reply) (Run.toReply.faulted f) :=
  Steps.bind Steps.fresh fun _ _ _ _ hid => Steps.pure (by rw [hid])

theorem Runs.toReply {x y : Run σ Value} (h : L.Runs d w Eq x y) :
    L.Steps d w Eq (Run.toReply x) (Run.toReply y) := by
  refine Steps.bind h fun w' _ r r' hr => ?_
  cases hr with
  | ok value => exact Steps.pure (by rw [value])
  | @error exit _ hexit =>
    subst hexit
    cases exit with
    | throw v => exact Steps.pure rfl
    | jump l v => exact Steps.faulted _
    | fault f => exact Steps.faulted f

end Primitives

/-! ## Constructs -/

section Constructs

/-- Runs that are in step from now on. -/
def Later (L : Lockstep W) (d : Array Nat) (w : W) (x y : Run σ Value) : Prop :=
  ∀ w', w ≤ w' → L.Runs d w' Eq x y

theorem Later.mono (h : w ≤ w') {x y : Run σ Value} (l : L.Later d w x y) : L.Later d w' x y :=
  fun w'' hw => l w'' (le_trans h hw)

theorem Runs.expectBool (v : Value) :
    L.Runs d w Eq (CodeTree.expectBool v : Run σ Bool) (CodeTree.expectBool v) := by
  unfold CodeTree.expectBool
  split
  · exact Runs.pure rfl
  · exact Runs.fault _

theorem Runs.evalAll {ev₁ ev₂ : Expr → Run σ Value} :
    ∀ {w : W} {as bs : List Expr}, List.Forall₂ (fun a b => L.Later d w (ev₁ a) (ev₂ b)) as bs →
      L.Runs d w Eq (CodeTree.evalAll ev₁ as) (CodeTree.evalAll ev₂ bs)
  | _, [], [], _ => Runs.pure rfl
  | w, _ :: _, _ :: _, .cons first rest => by
    refine Runs.bind_eq (first w (le_refl w)) fun w' hw v => ?_
    refine Runs.bind_eq (Runs.evalAll (rest.imp fun _ _ l => l.mono hw)) fun _ _ vs => ?_
    exact Runs.pure rfl

/-- Statements that mark the same labels and whose runs are in step. -/
def StatementLike (L : Lockstep W) (d : Array Nat) (w : W) (ev₁ ev₂ : Expr → Run σ Value)
    (a b : Expr) : Prop :=
  a.label? = b.label? ∧ L.Later d w (ev₁ a) (ev₂ b)

theorem Runs.runStatements {ev₁ ev₂ : Expr → Run σ Value}
    {jump₁ jump₂ : Label → Value → Run σ Value} :
    ∀ {w : W} {as bs : List Expr} (last : Value),
      List.Forall₂ (L.StatementLike d w ev₁ ev₂) as bs →
      (∀ w', w ≤ w' → ∀ l v, L.Runs d w' Eq (jump₁ l v) (jump₂ l v)) →
      L.Runs d w Eq (CodeTree.runStatements ev₁ jump₁ as last)
        (CodeTree.runStatements ev₂ jump₂ bs last)
  | _, [], [], _, _, _ => Runs.pure rfl
  | w, _ :: _, _ :: _, _, .cons first rest, hjump => by
    refine Runs.bind_eq (first.2 w (le_refl w)).held fun w' hw r => ?_
    cases r with
    | ok v =>
      exact Runs.runStatements v (rest.imp fun _ _ l => ⟨l.1, l.2.mono hw⟩)
        fun w'' hw' => hjump w'' (le_trans hw hw')
    | error exit =>
      cases exit with
      | throw v => exact Runs.throw _
      | jump l v => exact hjump w' hw l v
      | fault f => exact Runs.throw _

/-- The second side may have more rounds than the first one, unless both end together. -/
theorem Runs.runBody {ev₁ ev₂ : Expr → Run σ Value} {body body' : List Expr} :
    ∀ {n₁ n₂ : Nat}, n₁ ≤ n₂ → (L.both → n₁ = n₂) → ∀ {w : W} {as bs : List Expr} (last : Value),
      List.Forall₂ (L.StatementLike d w ev₁ ev₂) body body' →
      List.Forall₂ (L.StatementLike d w ev₁ ev₂) as bs →
      L.Runs d w Eq (CodeTree.runBody ev₁ body n₁ as last)
        (CodeTree.runBody ev₂ body' n₂ bs last)
  | 0, _, _, hboth => fun _ _ _ m₁ m₂ _ => EndsLike.of_none fun h => by
    obtain rfl := hboth h
    rfl
  | n₁ + 1, 0, h, _ => absurd h (by omega)
  | n₁ + 1, n₂ + 1, h, hboth => fun last hbody has => by
    refine Runs.runStatements last has fun w' hw l v => ?_
    have hbody' : List.Forall₂ (L.StatementLike d w' ev₁ ev₂) body body' :=
      hbody.imp fun _ _ l => ⟨l.1, l.2.mono hw⟩
    have hafter := Setting.afterLabel?_like (fun _ _ h => h.1) l hbody'
    revert hafter
    generalize afterLabel? l body = o, afterLabel? l body' = o'
    intro hafter
    rcases hafter with hrest | _
    · exact Runs.runBody (Nat.le_of_succ_le_succ h) (fun h => Nat.succ.inj (hboth h)) v hbody' hrest
    · exact Runs.throw _

theorem Runs.evalBlock {E₁ E₂ : Engine σ} (hE : L.Engines d E₁ E₂) {P Q : Place}
    {C : Position → Expr → Expr → Prop} (h : L.LayerLike w P Q C) (ty : Ty) {locals : List Param}
    {body body' : List Expr} (hbody : List.Forall₂ (C (.under locals)) body body') :
    L.Runs d w Eq (CodeTree.evalBlock E₁ P.interp P.scope ty locals body)
      (CodeTree.evalBlock E₂ Q.interp Q.scope ty locals body') := by
  have hvars : (locals.map fun p => (p, Value.default p.ty)).map Prod.fst = locals :=
    map_fst_bound locals _
  refine Runs.opening (h.around (.under locals) nofun) none hvars fun w₁ hw₁ s₁ s₂ hs => ?_
  have hstatements : List.Forall₂ (L.StatementLike d w₁ (E₁.eval P.interp s₁) (E₂.eval Q.interp s₂))
      body body' := by
    refine hbody.imp fun a b hab => ⟨h.label _ a b hab, fun w₂ hw₂ => ?_⟩
    exact hE.eval w₂ ⟨P.interp, s₁, a⟩ ⟨Q.interp, s₂, b⟩ (L.place_mono hw₂ (hs a b hab))
  refine Runs.bind_eq (Runs.runBody hE.rounds hE.rounds_eq .void hstatements hstatements)
    fun _ _ v => Runs.pure rfl

theorem Runs.matchesSome {ev₁ ev₂ : Expr → Run σ Value} {accept₁ accept₂ : Value → Run σ Bool}
    (haccept : ∀ w v, L.Runs d w Eq (accept₁ v) (accept₂ v)) :
    ∀ {w : W} {as bs : List Expr}, List.Forall₂ (fun a b => L.Later d w (ev₁ a) (ev₂ b)) as bs →
      L.Runs d w Eq (CodeTree.matchesSome ev₁ accept₁ as) (CodeTree.matchesSome ev₂ accept₂ bs)
  | _, [], [], _ => Runs.pure rfl
  | w, _ :: _, _ :: _, .cons first rest => by
    refine Runs.bind_eq (first w (le_refl w)) fun w₁ hw₁ v => ?_
    refine Runs.bind_eq (haccept w₁ v) fun w₂ hw₂ b => ?_
    cases b with
    | true => exact Runs.pure rfl
    | false => exact Runs.matchesSome haccept (rest.imp fun _ _ l => l.mono (le_trans hw₁ hw₂))

theorem Runs.selectCase {ev₁ ev₂ : Expr → Run σ Value} {accept₁ accept₂ : Value → Run σ Bool}
    {R : Expr → Expr → Prop} (haccept : ∀ w v, L.Runs d w Eq (accept₁ v) (accept₂ v)) :
    ∀ {w : W} {cs cs' : List (Case Expr)}, List.Forall₂ (CaseLike R) cs cs' →
      (∀ a b, R a b → L.Later d w (ev₁ a) (ev₂ b)) →
      L.Runs d w (Option.Rel R) (CodeTree.selectCase ev₁ accept₁ cs)
        (CodeTree.selectCase ev₂ accept₂ cs')
  | _, [], [], _, _ => Runs.pure .none
  | w, _ :: _, _ :: _, .cons first rest, hR => by
    refine Runs.bind_eq (Runs.matchesSome haccept (first.tests.imp hR)) fun w' hw b => ?_
    cases b with
    | true => exact Runs.pure (.some first.body)
    | false => exact Runs.selectCase haccept rest fun a b h => (hR a b h).mono hw

theorem Runs.filterAccepts {ev₁ ev₂ : Expr → Run σ Value} {o o' : Option Expr}
    (h : Option.Rel (fun a b => L.Runs d w Eq (ev₁ a) (ev₂ b)) o o') :
    L.Runs d w Eq (CodeTree.filterAccepts ev₁ o) (CodeTree.filterAccepts ev₂ o') := by
  cases h with
  | none => exact Runs.pure rfl
  | some h =>
    refine Runs.bind_eq h.held fun w' _ r => ?_
    cases r with
    | ok v => cases v <;> exact Runs.pure rfl
    | error exit =>
      cases exit with
      | throw v => exact Runs.pure rfl
      | jump l v => exact Runs.pure rfl
      | fault f => exact Runs.fault f

theorem Runs.runHandlers {E₁ E₂ : Engine σ} (hE : L.Engines d E₁ E₂) {w₀ : W} {P Q : Place}
    {C : Position → Expr → Expr → Prop} (hlayer : L.LayerLike w₀ P Q C) (exception : Value)
    (thrownTy : Ty) :
    ∀ {w : W} {hs hs' : List (Handler Expr)}, w₀ ≤ w → List.Forall₂ (HandlerLike C) hs hs' →
      L.Runs d w Eq
        (CodeTree.runHandlers (E₁.eval P.interp) P.scope exception thrownTy hs)
        (CodeTree.runHandlers (E₂.eval Q.interp) Q.scope exception thrownTy hs') := by
  intro w hs hs' hw₀ h
  induction h generalizing w with
  | nil => exact Runs.throw _
  | @cons h h' hs hs' first _ ih =>
    obtain ⟨ty, binder, filter, body⟩ := h
    obtain ⟨ty', binder', filter', body'⟩ := h'
    obtain ⟨rfl, rfl, hfilter, hbody⟩ := first
    rw [CodeTree.runHandlers, CodeTree.runHandlers]
    split
    · have hvars : (binder.toList.map fun p => (p, exception)).map Prod.fst =
          (Position.catching binder).declared := map_fst_bound binder.toList _
      have hposition : Position.catching binder ≠ .plain := by simp
      refine Runs.opening ((hlayer.around _ hposition).mono hw₀) (some exception) hvars
        fun w₁ hw₁ s₁ s₂ hs => ?_
      have hev : ∀ a b, C (.catching binder) a b →
          L.Later d w₁ (E₁.eval P.interp s₁ a) (E₂.eval Q.interp s₂ b) := fun a b hab w₂ hw₂ =>
        hE.eval w₂ ⟨P.interp, s₁, a⟩ ⟨Q.interp, s₂, b⟩ (L.place_mono hw₂ (hs a b hab))
      have hfilter' := optionRel_imp (fun a b hab => hev a b hab w₁ (le_refl w₁)) hfilter
      refine Runs.bind_eq (Runs.filterAccepts hfilter') fun w₂ hw₂ accepted => ?_
      cases accepted with
      | true => exact hev _ _ hbody w₂ hw₂
      | false => exact ih (le_trans hw₀ (le_trans hw₁ hw₂))
    · exact ih hw₀

theorem Runs.evalGuarded {E₁ E₂ : Engine σ} (hE : L.Engines d E₁ E₂) {P Q : Place}
    {C : Position → Expr → Expr → Prop} (h : L.LayerLike w P Q C) (ty : Ty)
    {body body' : Expr} {handlers handlers' : List (Handler Expr)} {cleanup cleanup' : Option Expr}
    (hbody : C .plain body body') (hhandlers : List.Forall₂ (HandlerLike C) handlers handlers')
    (hcleanup : Option.Rel (C .plain) cleanup cleanup') :
    L.Runs d w Eq
      (CodeTree.evalGuarded (E₁.eval P.interp) P.scope ty body handlers cleanup)
      (CodeTree.evalGuarded (E₂.eval Q.interp) Q.scope ty body' handlers' cleanup') := by
  have hev : ∀ a b, C .plain a b →
      L.Later d w (E₁.eval P.interp P.scope a) (E₂.eval Q.interp Q.scope b) := fun a b hab w' hw =>
    hE.eval w' _ _ (L.place_mono hw (h.inside a b hab))
  have hsettled : ∀ w' (r : Except Exit Value), L.Runs d w' Eq
      (Run.resume r >>= fun v => Pure.pure (settle ty v) : Run σ Value)
      (Run.resume r >>= fun v => Pure.pure (settle ty v)) := fun w' r =>
    Runs.bind_eq (Runs.resume r) fun _ _ v => Runs.pure rfl
  have hconcluded : ∀ w', w ≤ w' → ∀ r, L.Runs d w' Eq
      (Setting.concluded (E₁.eval P.interp P.scope) ty cleanup r)
      (Setting.concluded (E₂.eval Q.interp Q.scope) ty cleanup' r) := by
    intro w' hw r
    cases hcleanup with
    | none => exact hsettled w' r
    | some hlast => exact Runs.bind_eq (hev _ _ hlast w' hw) fun w'' _ _ => hsettled w'' r
  refine Runs.bind_eq (hev _ _ hbody w (le_refl w)).held fun w₁ hw₁ r => ?_
  cases r with
  | ok v => exact hconcluded w₁ hw₁ (.ok v)
  | error exit =>
    cases exit with
    | throw exception =>
      cases hty : exception.runtimeTy? with
      | some thrownTy =>
        simp only [hty]
        exact Runs.bind_eq (Runs.runHandlers hE h exception thrownTy hw₁ hhandlers).held
          fun w₂ hw₂ r => hconcluded w₂ (le_trans hw₁ hw₂) r
      | none =>
        simp only [hty]
        exact hconcluded w₁ hw₁ (.error (.throw exception))
    | jump l v => exact hconcluded w₁ hw₁ (.error (.jump l v))
    | fault f => exact hconcluded w₁ hw₁ (.error (.fault f))

theorem Runs.iterate {x y : Run σ Value} {breakLabel continueLabel : Option Label} :
    ∀ {n₁ n₂ : Nat}, n₁ ≤ n₂ → (L.both → n₁ = n₂) → ∀ w : W, L.Later d w x y →
      L.Runs d w Eq (CodeTree.iterate x breakLabel continueLabel n₁)
        (CodeTree.iterate y breakLabel continueLabel n₂)
  | 0, _, _, hboth => fun _ _ m₁ m₂ _ => EndsLike.of_none fun h => by
    obtain rfl := hboth h
    rfl
  | n₁ + 1, 0, h, _ => absurd h (by omega)
  | n₁ + 1, n₂ + 1, h, hboth => fun w hbody => by
    have hnext : ∀ w', w ≤ w' → L.Runs d w' Eq
        (CodeTree.iterate x breakLabel continueLabel n₁)
        (CodeTree.iterate y breakLabel continueLabel n₂) := fun w' hw =>
      Runs.iterate (Nat.le_of_succ_le_succ h) (fun h => Nat.succ.inj (hboth h)) w' (hbody.mono hw)
    refine Runs.bind_eq (hbody w (le_refl w)).held fun w' hw r => ?_
    cases r with
    | ok v => exact hnext w' hw
    | error exit =>
      cases exit with
      | throw v => exact Runs.throw _
      | jump l v =>
        dsimp only
        split
        · exact Runs.pure rfl
        · split
          · exact hnext w' hw
          · exact Runs.throw _
      | fault f => exact Runs.throw _

/-! ## Activations -/

theorem Runs.runClosure {E₁ E₂ : Engine σ} (hE : L.Engines d E₁ E₂) {c₁ c₂ : Closure}
    (hc : L.ClosureLike w c₁ c₂) (args : List Value) (depth : Nat) :
    L.Runs d w Eq (CodeTree.runClosure E₁ c₁ args depth) (CodeTree.runClosure E₂ c₂ args depth) := by
  obtain ⟨params, body, ret, scope, I⟩ := c₁
  obtain ⟨params', body', ret', scope', I'⟩ := c₂
  obtain ⟨rfl, rfl, rfl, hbody⟩ := hc
  unfold CodeTree.runClosure
  dsimp only
  split
  · exact Runs.fault _
  split
  · exact Runs.fault _
  · next hlen =>
    have hvars : (params.zip args).map Prod.fst = params :=
      List.map_fst_zip (Nat.le_of_eq (not_not.mp hlen))
    refine Runs.opening hbody none hvars fun w₁ hw₁ s₁ s₂ hs => ?_
    refine Runs.bind_eq (hE.eval w₁ _ _ hs).held fun w₂ _ r => ?_
    cases r with
    | ok v => exact Runs.pure rfl
    | error exit =>
      cases exit with
      | throw v => exact Runs.throw _
      | jump l v => exact Runs.fault _
      | fault f => exact Runs.throw _

/-- The engines are those of the body, which runs with the counter one up. -/
theorem Runs.callClosure {E₁ E₂ : Engine σ} {c₁ c₂ : Closure}
    (hE : L.Engines (d.modify c₁.interp.id (· + 1)) E₁ E₂) (hc : L.ClosureLike w c₁ c₂)
    (args : List Value) :
    L.Runs d w Eq (CodeTree.callClosure E₁ c₁ args) (CodeTree.callClosure E₂ c₂ args) := by
  intro m₁ m₂ hm
  rw [Setting.callClosure_run, Setting.callClosure_run, Option.map_eq_bind, Option.map_eq_bind]
  have hentered : L.Similar w (d.modify c₁.interp.id (· + 1))
      { m₁ with depths := m₁.depths.modify c₁.interp.id (· + 1) }
      { m₂ with depths := m₂.depths.modify c₂.interp.id (· + 1) } :=
    { hm with
      depths₁ := by rw [hm.depths₁]
      depths₂ := by rw [hm.depths₂, hc.interp] }
  have hrun := Runs.runClosure hE hc args (d.getD c₁.interp.id 0 + 1) _ _ hentered
  rw [hm.depths₁, hm.depths₂, ← hc.interp]
  rw [hm.depths₁, hm.depths₂, ← hc.interp] at hrun
  refine hrun.bind fun p q hpq => ?_
  obtain ⟨w', hw, hm', hr⟩ := hpq
  refine .ended ⟨w', hw, { hm' with depths₁ := ?_, depths₂ := ?_ }, hr⟩
  · show p.2.depths.modify c₁.interp.id (· - 1) = d
    rw [hm'.depths₁, Setting.modify_succ_pred]
  · show q.2.depths.modify c₁.interp.id (· - 1) = d
    rw [hm'.depths₂, Setting.modify_succ_pred]

/-! ## Host code -/

theorem Runs.runScript {E₁ E₂ : Engine σ} (hE : L.Engines d E₁ E₂) (script : Script σ Reply) :
    L.Runs d w Eq (CodeTree.runScript E₁ script) (CodeTree.runScript E₂ script) :=
  Runs.bind_eq (Runs.step (Steps.play hE.apply script w)) fun _ _ reply => Runs.ofReply reply

theorem Runs.dispatch {E₁ E₂ : Engine σ} (hE : L.Engines d E₁ E₂) (H : Host σ) (method : Method)
    (receiver : Option Value) (args : List Value) :
    L.Runs d w Eq (CodeTree.dispatch H E₁ method receiver args)
      (CodeTree.dispatch H E₂ method receiver args) := by
  unfold CodeTree.dispatch
  split
  · exact Runs.fault _
  split
  · exact Runs.nullReference _
  have hsettled : ∀ {x y : Run σ Value}, L.Runs d w Eq x y →
      L.Runs d w Eq (x >>= fun v => Pure.pure (settle method.ret v))
        (y >>= fun v => Pure.pure (settle method.ret v)) := fun h =>
    Runs.bind_eq h fun _ _ v => Runs.pure rfl
  split
  · exact hsettled (Runs.runScript hE _)
  · exact hsettled (Runs.runScript hE _)
  · exact hsettled (Runs.raise _ _)
  · exact hsettled (Runs.runScript hE _)
  · exact hsettled (Runs.fault _)
  · exact hsettled (Runs.fault _)

/-- How a switch tests a candidate. -/
theorem Runs.accepts {E₁ E₂ : Engine σ} (hE : L.Engines d E₁ E₂) (H : Host σ)
    (comparer : Option Method) (scrutinee candidate : Value) :
    L.Runs d w Eq
      (match comparer with
        | some method => do
          let v ← CodeTree.dispatch H E₁ method none [scrutinee, candidate]
          CodeTree.expectBool v
        | none => Pure.pure (scrutinee.equals candidate))
      (match comparer with
        | some method => do
          let v ← CodeTree.dispatch H E₂ method none [scrutinee, candidate]
          CodeTree.expectBool v
        | none => Pure.pure (scrutinee.equals candidate)) := by
  cases comparer with
  | some method => exact Runs.bind_eq (Runs.dispatch hE H method _ _) fun _ _ v => Runs.expectBool v
  | none => exact Runs.pure rfl

theorem Runs.invokeValue {E₁ E₂ : Engine σ} (hE : L.Engines d E₁ E₂) (callee : Value)
    (args : List Value) :
    L.Runs d w Eq (CodeTree.invokeValue E₁ callee args) (CodeTree.invokeValue E₂ callee args) := by
  unfold CodeTree.invokeValue
  split
  · split
    · exact Runs.fault _
    · exact Runs.bind_eq (Runs.step (hE.apply w _ args)) fun _ _ reply => Runs.ofReply reply
  · exact Runs.nullReference _
  · exact Runs.fault _

theorem Runs.readMember {E₁ E₂ : Engine σ} (hE : L.Engines d E₁ E₂) (H : Host σ) (read : Member)
    (target : Value) :
    L.Runs d w Eq (CodeTree.readMember H E₁ read target) (CodeTree.readMember H E₂ read target) := by
  unfold CodeTree.readMember
  split
  · exact Runs.runScript hE _
  · exact Runs.nullReference _
  · split
    · exact Runs.pure rfl
    · exact Runs.fault _
  · split
    · exact Runs.pure rfl
    · exact Runs.fault _
  · exact Runs.fault _

theorem Runs.awaitValue (v : Value) :
    L.Runs d w Eq (CodeTree.awaitValue v : Run σ Value) (CodeTree.awaitValue v) := by
  unfold CodeTree.awaitValue
  split
  · exact Runs.ofReply _
  · exact Runs.nullReference _
  · exact Runs.fault _

/-! ## Operators, closures and exceptions -/

theorem Runs.evalBinary {ev₁ ev₂ : Expr → Run σ Value} (op : BinaryOp) {a a' b b' : Expr}
    (ha : L.Runs d w Eq (ev₁ a) (ev₂ a')) (hb : L.Later d w (ev₁ b) (ev₂ b')) :
    L.Runs d w Eq (CodeTree.evalBinary ev₁ op a b) (CodeTree.evalBinary ev₂ op a' b') := by
  -- the second operand, where it decides
  have hsecond : ∀ w₂, w ≤ w₂ → L.Runs d w₂ Eq
      (do let r ← ev₁ b; let x ← CodeTree.expectBool r; Pure.pure (.bool x) : Run σ Value)
      (do let r ← ev₂ b'; let x ← CodeTree.expectBool r; Pure.pure (.bool x)) := fun w₂ hw₂ =>
    Runs.bind_eq (hb w₂ hw₂) fun _ _ r =>
      Runs.bind_eq (Runs.expectBool r) fun _ _ x => Runs.pure rfl
  refine Runs.bind_eq ha fun w₁ hw₁ l => ?_
  split
  · refine Runs.bind_eq (Runs.expectBool l) fun w₂ hw₂ x => ?_
    cases x with
    | true => exact hsecond w₂ (le_trans hw₁ hw₂)
    | false => exact Runs.pure rfl
  · refine Runs.bind_eq (Runs.expectBool l) fun w₂ hw₂ x => ?_
    cases x with
    | true => exact Runs.pure rfl
    | false => exact hsecond w₂ (le_trans hw₁ hw₂)
  · refine Runs.bind_eq (hb w₁ hw₁) fun w₂ _ r => ?_
    split
    · exact Runs.pure rfl
    · exact Runs.fault _

theorem Runs.throwValue (v : Value) :
    L.Runs d w Eq (CodeTree.throwValue v : Run σ Value) (CodeTree.throwValue v) := by
  unfold CodeTree.throwValue
  split
  · exact Runs.nullReference _
  · exact Runs.throw _

/-! ## Nodes -/

/-- One node: layers that are the same go in step if the engines take their children so. -/
theorem Runs.evalNode {E₁ E₂ : Engine σ} (hE : L.Engines d E₁ E₂) (H : Host σ) {P Q : Place}
    {C : Position → Expr → Expr → Prop} (h : L.LayerLike w P Q C) :
    L.Runs d w Eq (CodeTree.evalNode H E₁ P.interp P.scope P.tree)
      (CodeTree.evalNode H E₂ Q.interp Q.scope Q.tree) := by
  have hev : ∀ a b, C .plain a b →
      L.Later d w (E₁.eval P.interp P.scope a) (E₂.eval Q.interp Q.scope b) := fun a b hab w' hw =>
    hE.eval w' _ _ (L.place_mono hw (h.inside a b hab))
  have hnow : ∀ a b, C .plain a b →
      L.Runs d w Eq (E₁.eval P.interp P.scope a) (E₂.eval Q.interp Q.scope b) := fun a b hab =>
    hev a b hab w (le_refl w)
  have hall : ∀ w', w ≤ w' → ∀ as bs, List.Forall₂ (C .plain) as bs →
      L.Runs d w' Eq (CodeTree.evalAll (E₁.eval P.interp P.scope) as)
        (CodeTree.evalAll (E₂.eval Q.interp Q.scope) bs) := fun w' hw as bs has =>
    Runs.evalAll (has.imp fun a b hab => (hev a b hab).mono hw)
  have hshape := h.shape
  have hret := h.ret
  have hread := h.read
  have hassigned := h.assigned
  have hrethrow := h.rethrow
  unfold CodeTree.evalNode
  dsimp only
  rw [h.ty]
  rw [h.ty] at hret
  revert hshape hret hread hassigned hrethrow
  generalize P.tree.shape = s, Q.tree.shape = t
  intro hshape hret hread hassigned hrethrow
  cases hshape with
  | empty => exact Runs.pure rfl
  | constant value => exact Runs.pure value
  | parameter p =>
    refine Runs.bind_eq (Runs.step (Steps.lookup (hread p rfl))) fun w' _ v => ?_
    cases v with
    | some v => exact Runs.pure rfl
    | none => exact Runs.fault _
  | block locals hbody => exact Runs.evalBlock hE h Q.tree.ty hbody
  | conditional ht ha hb =>
    refine Runs.bind_eq (hnow _ _ ht) fun w₁ hw₁ v => ?_
    refine Runs.bind_eq (Runs.expectBool v) fun w₂ hw₂ x => ?_
    have hw := le_trans hw₁ hw₂
    cases x with
    | true => exact Runs.bind_eq (hev _ _ ha w₂ hw) fun _ _ _ => Runs.pure rfl
    | false => exact Runs.bind_eq (hev _ _ hb w₂ hw) fun _ _ _ => Runs.pure rfl
  | switch comparer hvalue hcases hdefault =>
    refine Runs.bind_eq (hnow _ _ hvalue) fun w₁ hw₁ x => ?_
    refine Runs.bind (Runs.selectCase (fun w v => Runs.accepts hE H comparer x v) hcases
      fun a b hab => (hev a b hab).mono hw₁) fun w₂ hw₂ o o' ho => ?_
    have hchosen := Setting.orElse_like ho hdefault
    revert hchosen
    generalize (o <|> _) = c, (o' <|> _) = c'
    intro hchosen
    rcases hchosen with hbody | _
    · exact Runs.bind_eq (hev _ _ hbody w₂ (le_trans hw₁ hw₂)) fun _ _ _ => Runs.pure rfl
    · exact Runs.pure rfl
  | guarded hb hh hc => exact Runs.evalGuarded hE h Q.tree.ty hb hh hc
  | throw hvalue =>
    cases hvalue with
    | some hvalue => exact Runs.bind_eq (hnow _ _ hvalue) fun _ _ v => Runs.throwValue v
    | none =>
      rw [hrethrow rfl]
      dsimp only
      split
      · exact Runs.throwValue _
      · exact Runs.fault _
  | @call receiver receiver' args args' method hr ha =>
    have hdispatch : ∀ w₁, w ≤ w₁ → ∀ self, L.Runs d w₁ Eq
        (CodeTree.evalAll (E₁.eval P.interp P.scope) args >>= CodeTree.dispatch H E₁ method self)
        (CodeTree.evalAll (E₂.eval Q.interp Q.scope) args' >>=
          CodeTree.dispatch H E₂ method self) := fun w₁ hw₁ self =>
      Runs.bind_eq (hall w₁ hw₁ _ _ ha) fun _ _ vs => Runs.dispatch hE H method self vs
    cases hr with
    | none => exact hdispatch w (le_refl w) none
    | some hr =>
      dsimp only
      split
      · exact hdispatch w (le_refl w) none
      · refine Runs.bind_eq (x := Option.some <$> _) ?_ hdispatch
        exact Runs.bind_eq (hnow _ _ hr) fun _ _ v => Runs.pure rfl
  | construct ctor ha =>
    exact Runs.bind_eq (hall w (le_refl w) _ _ ha) fun _ _ vs => Runs.runScript hE _
  | invoke ht ha =>
    refine Runs.bind_eq (hnow _ _ ht) fun w₁ hw₁ callee => ?_
    exact Runs.bind_eq (hall w₁ hw₁ _ _ ha) fun _ _ vs => Runs.invokeValue hE callee vs
  | member read ht =>
    cases ht with
    | some ht => exact Runs.bind_eq (hnow _ _ ht) fun _ _ v => Runs.readMember hE H read v
    | none => exact Runs.fault _
  | convert kind ha =>
    refine Runs.bind_eq (hnow _ _ ha) fun _ _ v => ?_
    split
    · exact Runs.pure rfl
    · exact Runs.raise _ _
  | typeIs testTy ha => exact Runs.bind_eq (hnow _ _ ha) fun _ _ v => Runs.pure rfl
  | unary op ha =>
    refine Runs.bind_eq (hnow _ _ ha) fun _ _ v => ?_
    split
    · exact Runs.pure rfl
    · exact Runs.fault _
  | binary op ha hb => exact Runs.evalBinary op (hnow _ _ ha) (hev _ _ hb)
  | assign target ha =>
    refine Runs.bind_eq (hnow _ _ ha) fun w₁ hw₁ v => ?_
    have hwrites : L.Writes w₁ P.scope Q.scope target := fun w' hw =>
      hassigned target _ rfl w' (le_trans hw₁ hw)
    refine Runs.bind_eq (Runs.step (Steps.assign hwrites v)) fun _ _ found => ?_
    cases found with
    | true => exact Runs.pure rfl
    | false => exact Runs.fault _
  | @lambda params body body' hbody =>
    have hret := hret params body body' rfl rfl
    have hclosure : L.ClosureLike w
        ⟨params, body, (Q.tree.ty.signature?.map Prod.snd).getD body'.ty, P.scope, P.interp⟩
        ⟨params, body', (Q.tree.ty.signature?.map Prod.snd).getD body'.ty, Q.scope, Q.interp⟩ := by
      refine ⟨rfl, rfl, h.interp, (h.around (.under params) nofun).imp fun _ _ _ hplaces => ?_⟩
      exact hplaces body body' hbody
    show L.Runs d w Eq (CodeTree.makeClosure P.interp P.scope Q.tree.ty params body)
      (CodeTree.makeClosure Q.interp Q.scope Q.tree.ty params body')
    unfold CodeTree.makeClosure
    rw [hret]
    exact Runs.bind_eq (Runs.step (Steps.addClosure hclosure)) fun _ _ index => Runs.pure rfl
  | await ha => exact Runs.bind_eq (hnow _ _ ha) fun _ _ v => Runs.awaitValue v
  | newArray elem hitems =>
    refine Runs.bind_eq (hall w (le_refl w) _ _ hitems) fun _ _ vs => ?_
    exact Runs.bind_eq (Runs.step Steps.fresh) fun _ _ id => Runs.pure rfl
  | jump kind target hvalue =>
    cases hvalue with
    | some hvalue => exact Runs.bind_eq (hnow _ _ hvalue) fun _ _ v => Runs.throw _
    | none => exact Runs.throw _
  | label target hdefault =>
    cases hdefault with
    | some hdefault => exact hnow _ _ hdefault
    | none => exact Runs.pure rfl
  | loop breakLabel continueLabel hbody =>
    exact Runs.iterate hE.rounds hE.rounds_eq w (hev _ _ hbody)

/-! ## Callables -/

/-- A call of the same callable, if activations of related closures are in step. -/
theorem Steps.applyRef {E₁ E₂ : Engine σ} (H : Host σ) {ref : FuncRef} {args : List Value}
    (happly : ∀ w ref args, L.Steps d w Eq (E₁.apply ref args) (E₂.apply ref args))
    (hcall : ∀ w c₁ c₂, L.ClosureLike w c₁ c₂ →
      L.Runs d w Eq (CodeTree.callClosure E₁ c₁ args) (CodeTree.callClosure E₂ c₂ args)) :
    L.Steps d w Eq (CodeTree.applyRef H E₁ ref args) (CodeTree.applyRef H E₂ ref args) := by
  cases ref with
  | hosted code => exact Steps.play happly _ w
  | closure index =>
    intro m₁ m₂ hm
    have hclosure := hm.closures index
    generalize h₁ : m₁.closures[index]? = o₁ at hclosure
    generalize h₂ : m₂.closures[index]? = o₂ at hclosure
    cases hclosure with
    | some hc =>
      rw [Setting.applyRef_of_some H E₁ h₁, Setting.applyRef_of_some H E₂ h₂]
      exact (hcall w _ _ hc).toReply m₁ m₂ hm
    | none =>
      rw [Setting.applyRef_of_none H E₁ h₁, Setting.applyRef_of_none H E₂ h₂]
      exact Steps.faulted _ m₁ m₂ hm

end Constructs

/-! ## Evaluation -/

/-- Places are related layer by layer, unless their evaluations are in step outright. -/
def Lawful (L : Lockstep W) (H : Host σ) : Prop :=
  ∀ w P Q, L.place w P Q → (∃ C, L.LayerLike w P Q C) ∨ ∀ d E₁ E₂, L.Engines d E₁ E₂ →
    L.Runs d w Eq (evalNode H E₁ P.interp P.scope P.tree) (evalNode H E₂ Q.interp Q.scope Q.tree)

/-- Evaluations of related places go in step, whatever the counters of activations are. -/
theorem engines {H : Host σ} (h : L.Lawful H) :
    ∀ {n₁ n₂ : Nat}, n₁ ≤ n₂ → (L.both → n₁ = n₂) → ∀ d,
      L.Engines d (engine H n₁) (engine H n₂)
  | 0, n₂, hn, hboth, d =>
    { rounds := hn
      rounds_eq := hboth
      eval := fun w P Q _ m₁ m₂ _ => by
        show EndsLike _ _ ((eval H 0 P.interp P.scope P.tree).run m₁) _
        rw [eval]
        refine EndsLike.of_none fun hb => ?_
        obtain rfl := hboth hb
        show (eval H 0 Q.interp Q.scope Q.tree).run m₂ = none
        rw [eval]
        rfl
      apply := fun w ref args m₁ m₂ _ => by
        show EndsLike _ _ (apply H 0 ref args m₁) _
        rw [apply]
        refine EndsLike.of_none fun hb => ?_
        obtain rfl := hboth hb
        show apply H 0 ref args m₂ = none
        rw [apply]
        rfl }
  | n₁ + 1, 0, hn, _, _ => absurd hn (by omega)
  | n₁ + 1, n₂ + 1, hn, hboth, d =>
    have ih := engines h (Nat.le_of_succ_le_succ hn) fun hb => Nat.succ.inj (hboth hb)
    { rounds := hn
      rounds_eq := hboth
      eval := fun w P Q hplace => by
        show L.Runs d w Eq (eval H (n₁ + 1) P.interp P.scope P.tree)
          (eval H (n₂ + 1) Q.interp Q.scope Q.tree)
        rw [eval, eval]
        rcases h w P Q hplace with hlayer | hdirect
        · obtain ⟨C, hlayer⟩ := hlayer
          exact Runs.evalNode (ih d) H hlayer
        · exact hdirect d _ _ (ih d)
      apply := fun w ref args => by
        show L.Steps d w Eq (apply H (n₁ + 1) ref args) (apply H (n₂ + 1) ref args)
        rw [apply, apply]
        exact Steps.applyRef H (ih d).apply fun w c₁ c₂ hc => Runs.callClosure (ih _) hc args }

/-! ## An evaluation beside itself -/

/-- The same stores, which satisfy `keeps`, and the same places, which satisfy `spares`. -/
def diagonal (both : Prop) (keeps : Store → Prop) (spares : Place → Prop) : Lockstep Still where
  both := both
  memory _ st₁ st₂ := st₁ = st₂ ∧ keeps st₁
  place _ P Q := P = Q ∧ spares P
  place_mono _ _ _ h := h

/-- What one step of an evaluation keeps: stores satisfy `keeps` after a new frame and after the
assignments of places that satisfy `spares`, and these pass on to children and inner scopes. -/
structure Invariant (keeps : Store → Prop) (spares : Place → Prop) : Prop where
  opened : ∀ st bindings, keeps st → keeps (st.opened bindings)
  assigned : ∀ P target a, spares P → P.tree.shape = .assign target a → ∀ st v, keeps st →
    keeps (st.assign P.scope target.id v).2
  child : ∀ P a, spares P → a ∈ P.tree.children → spares { P with tree := a }
  extended : ∀ P, spares P → ∀ st handling, keeps st →
    spares { P with scope := P.scope.extended st.frames.size handling }

section Diagonal

variable {both : Prop} {keeps : Store → Prop} {spares : Place → Prop} {m m₁ m₂ : Machine σ}

/-- A place whose children satisfy `spares` is layer by layer beside itself. -/
theorem Invariant.layer (h : Invariant keeps spares) {w : Still} {P : Place}
    (hchildren : ∀ a ∈ P.tree.children, spares { P with tree := a })
    (hassigned : ∀ target a, P.tree.shape = .assign target a → ∀ st v, keeps st →
      keeps (st.assign P.scope target.id v).2) :
    (diagonal both keeps spares).LayerLike w P P fun _ a b => a = b ∧ a ∈ P.tree.children := by
  refine ⟨rfl, rfl, Shape.like_self (fun _ _ => rfl) fun q a ha => ⟨rfl, ?_⟩, ?_, ?_, ?_, ?_, ?_, ?_,
    fun _ => rfl⟩
  · exact Shape.mem_children_of_mem_positions ha
  · intro q a b hab
    rw [hab.1]
  · intro a b hab
    obtain ⟨rfl, ha⟩ := hab
    exact ⟨rfl, hchildren a ha⟩
  · intro q _ _ _ st _ hst handling bindings _
    obtain ⟨rfl, hst⟩ := hst
    refine ⟨⟨⟩, trivial, ⟨rfl, h.opened st bindings hst⟩, fun a b hab => ?_⟩
    obtain ⟨rfl, ha⟩ := hab
    exact ⟨rfl, h.extended _ (hchildren a ha) st handling hst⟩
  · intro params a b ha hb
    rw [ha] at hb
    injection hb with _ hbody
    rw [hbody]
  · intro p _ _ _ st _ hst
    rw [hst.1]
  · intro target a ha _ _ st _ hst v
    obtain ⟨rfl, hst⟩ := hst
    exact ⟨rfl, rfl, hassigned target a ha st v hst⟩

theorem Invariant.lawful (h : Invariant keeps spares) (H : Host σ) :
    (diagonal both keeps spares).Lawful H := by
  intro w P Q hplace
  obtain ⟨rfl, hP⟩ := hplace
  exact .inl ⟨_, h.layer (fun a => h.child P a hP) fun target a => h.assigned P target a hP⟩

/-- A machine beside itself, if its closures leave its store as it should be. -/
theorem Invariant.similar (h : Invariant keeps spares) (hstore : keeps m.store)
    (hclosures : ∀ (i : Nat) c, m.closures[i]? = some c → spares ⟨c.interp, c.scope, c.body⟩) :
    (diagonal both keeps spares).Similar ⟨⟩ m.depths m m := by
  refine ⟨rfl, rfl, rfl, rfl, ⟨rfl, hstore⟩, rfl, fun i => ?_⟩
  cases hc : m.closures[i]? with
  | none => exact .none
  | some c =>
    refine .some ⟨rfl, rfl, rfl, fun _ _ st _ hst handling bindings _ => ?_⟩
    obtain ⟨rfl, hst⟩ := hst
    exact ⟨⟨⟩, trivial, ⟨rfl, h.opened st bindings hst⟩, rfl,
      h.extended ⟨c.interp, c.scope, c.body⟩ (hclosures i c hc) st handling hst⟩

/-- Closures beside each other are the same, and their bodies are spared in a new frame. -/
theorem ClosureLike.of_diagonal {c₁ c₂ : Closure} {st : Store} (hst : keeps st)
    (h : (diagonal both keeps spares).ClosureLike ⟨⟩ c₁ c₂) :
    c₁ = c₂ ∧ spares ⟨c₁.interp, c₁.scope.extended st.frames.size none, c₁.body⟩ := by
  obtain ⟨_, hplace, hspares⟩ := h.place ⟨rfl, hst⟩
  refine ⟨?_, hspares⟩
  obtain ⟨params, body, ret, scope, I⟩ := c₁
  obtain ⟨params', body', ret', scope', I'⟩ := c₂
  obtain ⟨rfl, rfl, rfl, -⟩ := h
  obtain ⟨links⟩ := scope
  obtain ⟨links'⟩ := scope'
  simp only [Place.mk.injEq, Scope.extended, Scope.mk.injEq, List.cons.injEq] at hplace
  obtain ⟨_, ⟨_, rfl⟩, rfl⟩ := hplace
  rfl

/-- The closures of machines beside each other are spared in a new frame. -/
theorem Similar.spared {d : Array Nat} (h : (diagonal both keeps spares).Similar ⟨⟩ d m₁ m₂)
    {i : Nat} {c : Closure} (hc : m₁.closures[i]? = some c) :
    spares ⟨c.interp, c.scope.extended m₁.store.frames.size none, c.body⟩ := by
  have hrel := h.closures i
  rw [hc] at hrel
  generalize m₂.closures[i]? = o at hrel
  cases hrel with
  | some hclosure => exact (hclosure.of_diagonal h.store.2).2

/-- Machines beside each other are the same. -/
theorem Similar.eq {d : Array Nat}
    (h : (diagonal both keeps spares).Similar ⟨⟩ d m₁ m₂) : m₁ = m₂ := by
  have hclosures : m₁.closures = m₂.closures := by
    refine Array.ext_getElem? fun i => ?_
    have hrel := h.closures i
    revert hrel
    generalize m₁.closures[i]? = o₁, m₂.closures[i]? = o₂
    intro hrel
    cases hrel with
    | none => rfl
    | some hc => rw [(hc.of_diagonal h.store.2).1]
  have hdepths : m₁.depths = m₂.depths := h.depths₁.trans h.depths₂.symm
  obtain ⟨next, store, closures, depths, host⟩ := m₁
  obtain ⟨next', store', closures', depths', host'⟩ := m₂
  obtain ⟨rfl, rfl, -, -, ⟨rfl, -⟩, -, -⟩ := h
  subst hclosures hdepths
  rfl

/-- Actions beside each other on one machine do the same. -/
theorem Steps.eq {α : Type} {d : Array Nat} {x y : Step σ α}
    (h : (diagonal True keeps spares).Steps d ⟨⟩ Eq x y)
    (hm : (diagonal True keeps spares).Similar ⟨⟩ d m m) : x m = y m := by
  have hrel := (h m m hm).rel trivial
  revert hrel
  generalize x m = a, y m = b
  intro hrel
  cases hrel with
  | none => rfl
  | some h =>
    obtain ⟨_, _, hafter, hresult⟩ := h
    exact congrArg some (Prod.ext hresult hafter.eq)

/-- What the steps of an evaluation keep, the whole evaluation keeps. -/
theorem Invariant.eval (h : Invariant keeps spares) {H : Host σ} {fuel : Nat} {P : Place}
    {r : Except Exit Value} {m' : Machine σ} (hstore : keeps m.store)
    (hclosures : ∀ (i : Nat) c, m.closures[i]? = some c → spares ⟨c.interp, c.scope, c.body⟩)
    (hP : spares P) (hrun : (CodeTree.eval H fuel P.interp P.scope P.tree).run m = some (r, m')) :
    keeps m'.store ∧ ∀ (i : Nat) c, m'.closures[i]? = some c →
      spares ⟨c.interp, c.scope.extended m'.store.frames.size none, c.body⟩ := by
  -- the evaluation beside itself
  have hsimilar : (diagonal False keeps spares).Similar ⟨⟩ m.depths m m :=
    h.similar hstore hclosures
  have hengines : (diagonal False keeps spares).Engines m.depths (engine H fuel) (engine H fuel) :=
    engines (h.lawful H) (Nat.le_refl fuel) (fun _ => rfl) m.depths
  obtain ⟨_, _, _, _, hafter, -⟩ :=
    (hengines.eval ⟨⟩ P P ⟨rfl, hP⟩ m m hsimilar).of_some hrun
  exact ⟨hafter.store.2, fun i c hc => hafter.spared hc⟩

end Diagonal

/-! ## The sides exchanged -/

section Swapped

variable {W : Type} [Preorder W] {L : Lockstep W} {w : W}

/-- The same with its sides exchanged. The second one need not end where the first one does. -/
def swapped (L : Lockstep W) : Lockstep W where
  both := False
  memory w st₁ st₂ := L.memory w st₂ st₁
  place w P Q := L.place w Q P
  place_mono h _ _ hP := L.place_mono h hP

theorem Opens.swapped {s₁ s₂ : Scope} {vars : List Param} {T : W → Scope → Scope → Prop}
    (h : L.Opens w s₁ s₂ vars T) : L.swapped.Opens w s₂ s₁ vars fun w' t₂ t₁ => T w' t₁ t₂ :=
  fun w' hw st₂ st₁ hst handling bindings hvars => h w' hw st₁ st₂ hst handling bindings hvars

theorem ClosureLike.swapped {c₁ c₂ : Closure} (h : L.ClosureLike w c₁ c₂) :
    L.swapped.ClosureLike w c₂ c₁ where
  params := h.params.symm
  ret := h.ret.symm
  interp := h.interp.symm
  body := h.params ▸ h.body.swapped

theorem Similar.swapped {d : Array Nat} {m₁ m₂ : Machine σ} (h : L.Similar w d m₁ m₂) :
    L.swapped.Similar w d m₂ m₁ where
  next := h.next.symm
  host := h.host.symm
  depths₁ := h.depths₂
  depths₂ := h.depths₁
  store := h.store
  made := h.made.symm
  closures i := by
    have hi := h.closures i
    revert hi
    generalize m₁.closures[i]? = o₁, m₂.closures[i]? = o₂
    intro hi
    cases hi with
    | none => exact .none
    | some hc => exact .some hc.swapped

/-- Layers of one tree. -/
theorem LayerLike.swapped {P Q : Place} (htree : P.tree = Q.tree)
    (h : L.LayerLike w P Q fun _ a b => a = b ∧ a ∈ P.tree.children) :
    L.swapped.LayerLike w Q P fun _ a b => a = b ∧ a ∈ Q.tree.children := by
  obtain ⟨I, s₁, e⟩ := P
  obtain ⟨J, s₂, e'⟩ := Q
  obtain rfl : e = e' := htree
  refine ⟨rfl, h.interp.symm, Shape.like_self (fun _ _ => rfl) fun q a ha =>
    ⟨rfl, Shape.mem_children_of_mem_positions ha⟩, fun _ a b hab => by rw [hab.1], ?_, ?_, ?_,
    fun p hp w' hw st₂ st₁ hst => (h.read p hp w' hw st₁ st₂ hst).symm, ?_, fun he => (h.rethrow he).symm⟩
  · rintro a b ⟨rfl, ha⟩
    exact h.inside a a ⟨rfl, ha⟩
  · intro q hq
    refine (h.around q hq).swapped.imp fun w' t₂ t₁ ht => ?_
    rintro a b ⟨rfl, ha⟩
    exact ht a a ⟨rfl, ha⟩
  · intro params a b ha hb
    rw [show e.shape = .lambda params a from ha] at hb
    cases hb
    rfl
  · intro p a ha w' hw st₂ st₁ hst v
    obtain ⟨hfound, hstore⟩ := h.assigned p a ha w' hw st₁ st₂ hst v
    exact ⟨hfound.symm, hstore⟩

end Swapped

end Lockstep

end CodeTree
