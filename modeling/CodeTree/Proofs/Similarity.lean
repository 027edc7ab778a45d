import CodeTree.Proofs.Layer
import CodeTree.Proofs.Likeness
import CodeTree.Proofs.Store

/-!
# Machines that are similar, and actions that keep them so

A `Setting` fixes what two evaluations are compared by: which trees in which scopes
correspond, how their hosts' states are related, which interpreters and depth counters
belong together, and which frames neither of them touches. `Setting.Similar w` relates two
machines in a world, and

* `Setting.Steps d w R x y` says of two actions: from similar machines, whenever the first one
  ends, so does the second, in similar machines of a larger world and with results related
  by `R`. Both leave the depth counters as `d` has them, and both only add to the machine;
* `Setting.Runs` is the same for actions that may leave early.

The lemmas are one per primitive action, and `Steps.bind`, `Runs.bind` for sequences.
-/

namespace CodeTree

/-- A tree in a scope, with the interpreter that evaluates it. -/
structure Place where
  interp : Interp
  scope : Scope
  tree : Expr

/-- A scope inside another: one more frame, and what it handles. -/
def Scope.extended (s : Scope) (frame : Nat) (handling : Option Value) : Scope :=
  ⟨⟨frame, handling⟩ :: s.links⟩

/-- What two evaluations are compared by. -/
structure Setting (σ : Type) where
  /-- Which trees in which scopes correspond. -/
  place : World → Place → Place → Prop
  /-- How the hosts' states are related. -/
  state : World → σ → σ → Prop
  interp : Interp → Interp → Prop
  /-- How the depth counters are related. -/
  depths : Array Nat → Array Nat → Prop
  /-- What is paired in every world. -/
  base : World
  /-- Which faults may arise. -/
  ok : Fault → Prop
  /-- Whether identities to come are paired in advance. -/
  ahead : Prop
  /-- Frames that the first evaluation leaves alone. -/
  keep₁ : Nat → Prop
  /-- Frames that the second evaluation leaves alone. -/
  keep₂ : Nat → Prop
  /-- Closures that the first evaluation may call. -/
  callable : Nat → Prop
  /-- When the first evaluation may start an activation, given its counters. -/
  within : Interp → Array Nat → Prop
  place_mono : ∀ {w w' : World}, w ≤ w' → ∀ {P Q : Place}, place w P Q → place w' P Q
  state_mono : ∀ {w w' : World}, w ≤ w' → ∀ {s t : σ}, state w s t → state w' s t
  /-- Every fault may arise but, where the setting says so, that of an unbound variable. -/
  ok_of_bound : ∀ {f : Fault}, (∀ name, f ≠ .unboundParameter name) → ok f
  enter : ∀ {I₁ I₂ : Interp} {d₁ d₂ : Array Nat}, interp I₁ I₂ → depths d₁ d₂ →
    depths (d₁.modify I₁.id (· + 1)) (d₂.modify I₂.id (· + 1))
  /-- Both sides refuse the same activations, and name the same limit. -/
  limit : ∀ {I₁ I₂ : Interp} {d₁ d₂ : Array Nat}, interp I₁ I₂ → depths d₁ d₂ → within I₁ d₁ →
    (I₁.limit < d₁.getD I₁.id 0 + 1 ↔ I₂.limit < d₂.getD I₂.id 0 + 1) ∧
      (I₁.limit < d₁.getD I₁.id 0 + 1 → I₁.limit = I₂.limit)

/-- Bindings of the same variables in the same order, with values that are alike. -/
abbrev FrameLike (w : World) (ok : Fault → Prop) : Frame → Frame → Prop :=
  List.Forall₂ fun x y => x.1 = y.1 ∧ ValueLike w ok x.2 y.2

namespace FrameLike

variable {w w' : World} {ok : Fault → Prop} {fr fr' : Frame}

theorem mono (h : w ≤ w') (l : FrameLike w ok fr fr') : FrameLike w' ok fr fr' :=
  l.imp fun _ _ hxy => ⟨hxy.1, hxy.2.mono h⟩

theorem get? (l : FrameLike w ok fr fr') (id : Nat) :
    Option.Rel (ValueLike w ok) (fr.get? id) (fr'.get? id) := by
  induction l with
  | nil => exact .none
  | @cons x y xs ys hxy _ ih =>
    obtain ⟨key, v⟩ := x
    obtain ⟨key', v'⟩ := y
    obtain ⟨rfl, hv⟩ := hxy
    by_cases hk : id = key
    · simpa only [Frame.get?, hk, if_true] using Option.Rel.some hv
    · simpa only [Frame.get?, hk, if_false] using ih

theorem isSome_get?_eq (l : FrameLike w ok fr fr') (id : Nat) :
    (fr.get? id).isSome = (fr'.get? id).isSome := by
  have h := l.get? id
  revert h
  generalize fr.get? id = x, fr'.get? id = y
  intro h
  cases h <;> rfl

theorem set (l : FrameLike w ok fr fr') (id : Nat) {v v' : Value} (hv : ValueLike w ok v v') :
    FrameLike w ok (fr.set id v) (fr'.set id v') := by
  induction l with
  | nil => exact .cons ⟨rfl, hv⟩ .nil
  | @cons x y xs ys hxy hrest ih =>
    obtain ⟨key, old⟩ := x
    obtain ⟨key', old'⟩ := y
    obtain ⟨rfl, hold⟩ := hxy
    by_cases hk : id = key
    · simp only [Frame.set, hk, if_true]
      exact .cons ⟨rfl, hv⟩ hrest
    · simp only [Frame.set, hk, if_false]
      exact .cons ⟨rfl, hold⟩ ih

end FrameLike

/-- Nothing is taken away from a machine: identities and frames go on, closures stay, and the
bindings of the frames to keep are the same. -/
structure Grown {σ : Type} (keep : Nat → Prop) (m m' : Machine σ) : Prop where
  next : m.next ≤ m'.next
  frames : m.store.frames.size ≤ m'.store.frames.size
  closures : ∀ (i : Nat) (c : Closure), m.closures[i]? = some c → m'.closures[i]? = some c
  kept : ∀ f, keep f → m'.store.frame f = m.store.frame f

namespace Grown

variable {σ : Type} {keep : Nat → Prop} {m m' m'' : Machine σ}

theorem refl (m : Machine σ) : Grown keep m m :=
  ⟨Nat.le_refl _, Nat.le_refl _, fun _ _ h => h, fun _ _ => rfl⟩

theorem trans (h₁ : Grown keep m m') (h₂ : Grown keep m' m'') : Grown keep m m'' :=
  ⟨Nat.le_trans h₁.next h₂.next, Nat.le_trans h₁.frames h₂.frames,
    fun i c h => h₂.closures i c (h₁.closures i c h),
    fun f hf => (h₂.kept f hf).trans (h₁.kept f hf)⟩

theorem imp {keep' : Nat → Prop} (h : Grown keep m m') (hkeep : ∀ f, keep' f → keep f) :
    Grown keep' m m' :=
  ⟨h.next, h.frames, h.closures, fun f hf => h.kept f (hkeep f hf)⟩

theorem size_closures (h : Grown keep m m') : m.closures.size ≤ m'.closures.size := by
  by_contra hlt
  have hc := h.closures m'.closures.size _ (Array.getElem?_eq_getElem (Nat.lt_of_not_le hlt))
  exact absurd (Array.getElem?_eq_some_iff.mp hc).1 (Nat.lt_irrefl _)

theorem push (keep : Nat → Prop) (m : Machine σ) (links : List Link) (h : Option Value) :
    Grown keep m { m with store := (m.store.push links h).2 } := by
  refine ⟨Nat.le_refl _, ?_, fun _ _ h => h, fun f _ => m.store.frame_push links h f⟩
  show m.store.frames.size ≤ (m.store.push links h).2.frames.size
  rw [Store.size_push]
  exact Nat.le_succ _

theorem write {f : Nat} (hf : ¬keep f) (id : Nat) (v : Value) :
    Grown keep m { m with store := m.store.write f id v } := by
  refine ⟨Nat.le_refl _, ?_, fun _ _ h => h, fun g hg => ?_⟩
  · exact Nat.le_of_eq (m.store.size_write f id v).symm
  · have hne : g ≠ f := fun h => hf (h ▸ hg)
    exact Store.frame_write_of_ne hne id v

theorem addClosure (m : Machine σ) (c : Closure) :
    Grown keep m { m with closures := m.closures.push c } := by
  refine ⟨Nat.le_refl _, Nat.le_refl _, fun i c' h => ?_, fun _ _ => rfl⟩
  have hi := (Array.getElem?_eq_some_iff.mp h).1
  show (m.closures.push c)[i]? = some c'
  rw [Array.getElem?_push, if_neg (Nat.ne_of_lt hi)]
  exact h

end Grown

/-- A machine has come out of another one, whose frames are as they were. -/
structure Machine.Precedes {σ : Type} (m m' : Machine σ) : Prop where
  grown : Grown (· < m.store.frames.size) m m'
  depths : m.depths.size ≤ m'.depths.size

namespace Machine.Precedes

variable {σ : Type} {m m' m'' : Machine σ}

theorem refl (m : Machine σ) : m.Precedes m := ⟨.refl m, Nat.le_refl _⟩

theorem trans (h₁ : m.Precedes m') (h₂ : m'.Precedes m'') : m.Precedes m'' := by
  refine ⟨h₁.grown.trans (h₂.grown.imp fun f hf => ?_), Nat.le_trans h₁.depths h₂.depths⟩
  exact Nat.lt_of_lt_of_le hf h₁.grown.frames

/-- Drawing an identity leaves the rest of a machine alone. -/
theorem withNext (m : Machine σ) : m.Precedes { m with next := m.next + 1 } :=
  ⟨⟨Nat.le_succ _, Nat.le_refl _, fun _ _ h => h, fun _ _ => rfl⟩, Nat.le_refl _⟩

end Machine.Precedes

namespace Setting

variable {σ : Type} (S : Setting σ)

/-- Values alike in the setting. -/
abbrev value (w : World) : Value → Value → Prop := ValueLike w S.ok

/-- Closures of the same signature whose bodies correspond in any later world, once their
parameters are bound in corresponding frames. -/
structure ClosureLike (w : World) (c₁ c₂ : Closure) : Prop where
  params : c₁.params = c₂.params
  ret : c₁.ret = c₂.ret
  interp : S.interp c₁.interp c₂.interp
  body : ∀ w', w ≤ w' → ∀ f g, w'.frames.pairs f g → (∀ p ∈ c₁.params, w'.declared f p.id) →
    S.place w' ⟨c₁.interp, c₁.scope.extended f none, c₁.body⟩
      ⟨c₂.interp, c₂.scope.extended g none, c₂.body⟩

/-- Machines that correspond as the world says. -/
structure Similar (w : World) (d : Array Nat × Array Nat) (m₁ m₂ : Machine σ) : Prop where
  above : S.base ≤ w
  ids : w.ids.Aligned S.ahead m₁.next m₂.next
  closures : w.closures.Aligned S.ahead m₁.closures.size m₂.closures.size
  frames : w.frames.Aligned S.ahead m₁.store.frames.size m₂.store.frames.size
  bindings : ∀ f g, w.frames.pairs f g →
    FrameLike w S.ok (m₁.store.frame f) (m₂.store.frame g)
  live : ∀ f, w.live f → f < m₁.store.frames.size
  declared : ∀ f id, w.declared f id → ((m₁.store.frame f).get? id).isSome
  made : ∀ i j, w.closures.pairs i j → S.callable i → ∀ c₁, m₁.closures[i]? = some c₁ →
    ∃ c₂, m₂.closures[j]? = some c₂ ∧ S.ClosureLike w c₁ c₂
  host : S.state w m₁.host m₂.host
  depths₁ : m₁.depths = d.1
  depths₂ : m₂.depths = d.2
  depths : S.depths d.1 d.2
  apart₁ : ∀ f g, w.frames.pairs f g → ¬S.keep₁ f
  apart₂ : ∀ f g, w.frames.pairs f g → ¬S.keep₂ g
  old₁ : ∀ f, S.keep₁ f → f < m₁.store.frames.size
  old₂ : ∀ f, S.keep₂ f → f < m₂.store.frames.size

/-- Two actions that keep machines similar. -/
def Steps {α β : Type} (d : Array Nat × Array Nat) (w : World) (R : World → α → β → Prop)
    (x : Step σ α) (y : Step σ β) : Prop :=
  ∀ m₁ m₂, S.Similar w d m₁ m₂ → ∀ a m₁', x m₁ = some (a, m₁') →
    ∃ b m₂' w', y m₂ = some (b, m₂') ∧ w ≤ w' ∧ S.Similar w' d m₁' m₂' ∧
      Grown S.keep₁ m₁ m₁' ∧ Grown S.keep₂ m₂ m₂' ∧ R w' a b

/-- Two actions that may leave early, and keep machines similar. -/
def Runs {α β : Type} (d : Array Nat × Array Nat) (w : World) (R : World → α → β → Prop)
    (x : Run σ α) (y : Run σ β) : Prop :=
  S.Steps d w (fun w => ExceptLike (ExitLike w S.ok) (R w)) x.run y.run

variable {S}

/-! ## Sequences -/

section Sequences

variable {α β γ δ : Type} {d : Array Nat × Array Nat} {w : World}

namespace Steps

theorem imp {R R' : World → α → β → Prop} {x : Step σ α} {y : Step σ β} (h : S.Steps d w R x y)
    (hR : ∀ w', w ≤ w' → ∀ a b, R w' a b → R' w' a b) : S.Steps d w R' x y := by
  intro m₁ m₂ hm a m₁' hx
  obtain ⟨b, m₂', w', hy, hw, hm', hg₁, hg₂, hab⟩ := h m₁ m₂ hm a m₁' hx
  exact ⟨b, m₂', w', hy, hw, hm', hg₁, hg₂, hR w' hw a b hab⟩

/-- What holds of the world of similar machines may be assumed. -/
theorem above {R : World → α → β → Prop} {x : Step σ α} {y : Step σ β}
    (h : S.base ≤ w → S.Steps d w R x y) : S.Steps d w R x y :=
  fun m₁ m₂ hm => h hm.above m₁ m₂ hm

theorem pure {R : World → α → β → Prop} {a : α} {b : β} (h : R w a b) :
    S.Steps d w R (Pure.pure a) (Pure.pure b) := by
  intro m₁ m₂ hm a' m₁' hx
  cases hx
  exact ⟨b, m₂, w, rfl, le_refl w, hm, .refl _, .refl _, h⟩

theorem bind {R : World → α → β → Prop} {T : World → γ → δ → Prop} {x : Step σ α} {y : Step σ β}
    {f : α → Step σ γ} {g : β → Step σ δ} (h : S.Steps d w R x y)
    (hf : ∀ w', w ≤ w' → ∀ a b, R w' a b → S.Steps d w' T (f a) (g b)) :
    S.Steps d w T (x >>= f) (y >>= g) := by
  intro m₁ m₂ hm c m₁'' hxf
  obtain ⟨⟨a, m₁'⟩, hx, hfa⟩ := Option.bind_eq_some_iff.mp hxf
  obtain ⟨b, m₂', w', hy, hw, hm', hg₁, hg₂, hab⟩ := h m₁ m₂ hm a m₁' hx
  obtain ⟨e, m₂'', w'', hgb, hw', hm'', hg₁', hg₂', hce⟩ := hf w' hw a b hab m₁' m₂' hm' c m₁'' hfa
  exact ⟨e, m₂'', w'', Option.bind_eq_some_iff.mpr ⟨(b, m₂'), hy, hgb⟩, le_trans hw hw', hm'',
    hg₁.trans hg₁', hg₂.trans hg₂', hce⟩

end Steps

namespace Runs

theorem pure {R : World → α → β → Prop} {a : α} {b : β} (h : R w a b) :
    S.Runs d w R (Pure.pure a) (Pure.pure b) :=
  Steps.pure (.ok h)

theorem bind {R : World → α → β → Prop} {T : World → γ → δ → Prop} {x : Run σ α} {y : Run σ β}
    {f : α → Run σ γ} {g : β → Run σ δ} (h : S.Runs d w R x y)
    (hf : ∀ w', w ≤ w' → ∀ a b, R w' a b → S.Runs d w' T (f a) (g b)) :
    S.Runs d w T (x >>= f) (y >>= g) := by
  refine Steps.bind h fun w' hw a b hab => ?_
  cases hab with
  | ok value => exact hf w' hw _ _ value
  | error exit => exact Steps.pure (.error exit)

/-- An action that does not leave early. -/
theorem step {R : World → α → β → Prop} {x : Step σ α} {y : Step σ β} (h : S.Steps d w R x y) :
    S.Runs d w R (Run.step x) (Run.step y) :=
  Steps.bind (f := fun a => Pure.pure (Except.ok a)) (g := fun b => Pure.pure (Except.ok b)) h
    fun _ _ _ _ hab => Steps.pure (.ok hab)

/-- The outcome of an action, held back. -/
theorem held {R : World → α → β → Prop} {x : Run σ α} {y : Run σ β} (h : S.Runs d w R x y) :
    S.Runs d w (fun w => ExceptLike (ExitLike w S.ok) (R w)) (Run.step x.run) (Run.step y.run) :=
  step h

theorem throw {R : World → α → β → Prop} {x y : Exit} (h : ExitLike w S.ok x y) :
    S.Runs d w R (MonadExcept.throw x) (MonadExcept.throw y) :=
  Steps.pure (.error h)

theorem fault {R : World → α → β → Prop} {f : Fault} (h : S.ok f) :
    S.Runs d w R (Run.fault f) (Run.fault f) :=
  throw (.fault h)

/-- Going on with an outcome that was held back. -/
theorem resume {R : World → α → β → Prop} {x : Except Exit α} {y : Except Exit β}
    (h : ExceptLike (ExitLike w S.ok) (R w) x y) : S.Runs d w R (Run.resume x) (Run.resume y) := by
  cases h with
  | ok value => exact Steps.pure (.ok value)
  | error exit => exact Steps.pure (.error exit)

end Runs

end Sequences

/-! ## Primitive actions -/

section Primitives

variable {d : Array Nat × Array Nat} {w w' : World} {m₁ m₂ : Machine σ}

theorem ClosureLike.mono (h : w ≤ w') {c₁ c₂ : Closure} (l : S.ClosureLike w c₁ c₂) :
    S.ClosureLike w' c₁ c₂ :=
  ⟨l.params, l.ret, l.interp, fun w'' hw => l.body w'' (le_trans h hw)⟩

/-- Similar machines stay similar in a larger world that pairs the same closures and frames. -/
theorem Similar.made_mono (hm : S.Similar w d m₁ m₂) (h : w ≤ w') :
    ∀ i j, w.closures.pairs i j → S.callable i → ∀ c₁, m₁.closures[i]? = some c₁ →
      ∃ c₂, m₂.closures[j]? = some c₂ ∧ S.ClosureLike w' c₁ c₂ := by
  intro i j hij hi c₁ hc₁
  obtain ⟨c₂, hc₂, l⟩ := hm.made i j hij hi c₁ hc₁
  exact ⟨c₂, hc₂, l.mono h⟩

/-- Both sides draw an identity. -/
theorem Similar.withId (hm : S.Similar w d m₁ m₂) :
    S.Similar (w.withId hm.ids) d { m₁ with next := m₁.next + 1 }
      { m₂ with next := m₂.next + 1 } :=
  { hm with
    above := le_trans hm.above (World.le_withId hm.ids)
    ids := hm.ids.extend
    bindings := fun f g h => (hm.bindings f g h).mono (World.le_withId hm.ids)
    made := hm.made_mono (World.le_withId hm.ids)
    host := S.state_mono (World.le_withId hm.ids) hm.host }

theorem Steps.fresh : S.Steps d w (fun w a b => w.ids.pairs a b) Step.fresh Step.fresh := by
  intro m₁ m₂ hm a m₁' hx
  cases hx
  refine ⟨m₂.next, { m₂ with next := m₂.next + 1 }, w.withId hm.ids, rfl,
    World.le_withId hm.ids, hm.withId, ?_, ?_, .inr ⟨rfl, rfl⟩⟩
  · exact ⟨Nat.le_succ _, Nat.le_refl _, fun _ _ h => h, fun _ _ => rfl⟩
  · exact ⟨Nat.le_succ _, Nat.le_refl _, fun _ _ h => h, fun _ _ => rfl⟩

/-- Both sides make a frame. -/
theorem Similar.withFrame (hm : S.Similar w d m₁ m₂) (links₁ links₂ : List Link)
    (h₁ h₂ : Option Value) :
    S.Similar (w.withFrame hm.frames) d { m₁ with store := (m₁.store.push links₁ h₁).2 }
      { m₂ with store := (m₂.store.push links₂ h₂).2 } where
  above := le_trans hm.above (World.le_withFrame hm.frames)
  ids := hm.ids
  closures := hm.closures
  frames := by
    rw [Store.size_push, Store.size_push]
    exact hm.frames.extend
  bindings f g hfg := by
    rw [Store.frame_push, Store.frame_push]
    rcases hfg with hfg | ⟨rfl, rfl⟩
    · exact (hm.bindings f g hfg).mono (World.le_withFrame hm.frames)
    · -- the new frame binds nothing on either side
      rw [Store.frame_of_size_le (Nat.le_refl _), Store.frame_of_size_le (Nat.le_refl _)]
      exact .nil
  live f hf := by
    rw [Store.size_push]
    rcases hf with hf | rfl
    · have := hm.live f hf
      omega
    · omega
  declared f id hf := by
    rw [Store.frame_push]
    exact hm.declared f id hf
  made := hm.made_mono (World.le_withFrame hm.frames)
  host := S.state_mono (World.le_withFrame hm.frames) hm.host
  depths₁ := hm.depths₁
  depths₂ := hm.depths₂
  depths := hm.depths
  apart₁ f g hfg hk := by
    rcases hfg with hfg | ⟨rfl, rfl⟩
    · exact hm.apart₁ f g hfg hk
    · exact absurd (hm.old₁ _ hk) (by omega)
  apart₂ f g hfg hk := by
    rcases hfg with hfg | ⟨rfl, rfl⟩
    · exact hm.apart₂ f g hfg hk
    · exact absurd (hm.old₂ _ hk) (by omega)
  old₁ f hk := by
    rw [Store.size_push]
    have := hm.old₁ f hk
    omega
  old₂ f hk := by
    rw [Store.size_push]
    have := hm.old₂ f hk
    omega

/-- Both sides go into a scope of their own. -/
theorem Steps.push (s₁ s₂ : Scope) (h₁ h₂ : Option Value) :
    S.Steps d w (fun w a b => ∃ f g, w.frames.pairs f g ∧ w.live f ∧ a = s₁.extended f h₁ ∧
        b = s₂.extended g h₂)
      (Step.onStore fun st => st.push s₁.links h₁)
      (Step.onStore fun st => st.push s₂.links h₂) := by
  intro m₁ m₂ hm a m₁' hx
  cases hx
  exact ⟨s₂.extended m₂.store.frames.size h₂, _, w.withFrame hm.frames, rfl,
    World.le_withFrame hm.frames, hm.withFrame s₁.links s₂.links h₁ h₂,
    .push _ m₁ s₁.links h₁, .push _ m₂ s₂.links h₂, m₁.store.frames.size, m₂.store.frames.size,
    .inr ⟨rfl, rfl⟩, .inr rfl, rfl, rfl⟩

/-- Both sides bind a variable in corresponding frames. -/
theorem Similar.write (hm : S.Similar w d m₁ m₂) {f g : Nat} (hfg : w.frames.pairs f g)
    (hf : f < m₁.store.frames.size) (id : Nat) {v v' : Value} (hv : S.value w v v') :
    S.Similar (w.withDeclared f id) d { m₁ with store := m₁.store.write f id v }
      { m₂ with store := m₂.store.write g id v' } where
  above := le_trans hm.above (World.le_withDeclared f id)
  ids := hm.ids
  closures := hm.closures
  frames := by
    rw [Store.size_write, Store.size_write]
    exact hm.frames
  bindings f' g' hfg' := by
    have hle := World.le_withDeclared (w := w) f id
    have hg : g < m₂.store.frames.size := by
      rcases hm.frames f g hfg with ⟨_, hg⟩ | ⟨_, k, rfl, _⟩
      · exact hg
      · omega
    by_cases hff : f' = f
    · subst hff
      obtain rfl := w.frames.unique_right hfg hfg'
      rw [Store.frame_write_self hf, Store.frame_write_self hg]
      exact ((hm.bindings f' g hfg).mono hle).set id (hv.mono hle)
    · -- frames are paired one to one, so neither side writes to this pair
      have hgg : g' ≠ g := fun h => hff (w.frames.unique_left (h ▸ hfg') hfg)
      rw [Store.frame_write_of_ne hff, Store.frame_write_of_ne hgg]
      exact (hm.bindings f' g' hfg').mono hle
  live f' hf' := by
    rw [Store.size_write]
    exact hm.live f' hf'
  declared f' id' hd := by
    by_cases hff : f' = f
    · subst hff
      rw [Store.frame_write_self hf]
      rcases hd with hd | ⟨_, rfl⟩
      · exact Frame.isSome_get?_set (hm.declared f' id' hd)
      · rw [Frame.get?_set, if_pos rfl]
        rfl
    · rw [Store.frame_write_of_ne hff]
      rcases hd with hd | ⟨h, _⟩
      · exact hm.declared f' id' hd
      · exact absurd h hff
  made := hm.made_mono (World.le_withDeclared f id)
  host := S.state_mono (World.le_withDeclared f id) hm.host
  depths₁ := hm.depths₁
  depths₂ := hm.depths₂
  depths := hm.depths
  apart₁ := hm.apart₁
  apart₂ := hm.apart₂
  old₁ f' hk := by
    rw [Store.size_write]
    exact hm.old₁ f' hk
  old₂ f' hk := by
    rw [Store.size_write]
    exact hm.old₂ f' hk

/-- Both sides bind variables one after another. -/
theorem Steps.declareAll {f g : Nat} {s₁ s₂ : Scope} {h₁ h₂ : Option Value} :
    ∀ {w : World} {l₁ l₂ : List (Param × Value)}, w.frames.pairs f g → w.live f →
      List.Forall₂ (fun x y => x.1 = y.1 ∧ S.value w x.2 y.2) l₁ l₂ →
      S.Steps d w (fun w _ _ => ∀ x ∈ l₁, w.declared f x.1.id)
        (Step.declareAll (s₁.extended f h₁) l₁) (Step.declareAll (s₂.extended g h₂) l₂)
  | _, [], [], _, _, _ => Steps.pure (by simp)
  | w, (p, v) :: l₁, (p', v') :: l₂, hfg, hf, .cons hxy hrest => by
    obtain ⟨rfl, hv⟩ := hxy
    have hle := World.le_withDeclared (w := w) f p.id
    refine Steps.bind (R := fun w' _ _ => w.withDeclared f p.id ≤ w') ?_ fun w' hw _ _ hw' => ?_
    · intro m₁ m₂ hm a m₁' hx
      cases hx
      exact ⟨(), _, w.withDeclared f p.id, rfl, hle, hm.write hfg (hm.live f hf) p.id hv,
        .write (hm.apart₁ f g hfg) .., .write (hm.apart₂ f g hfg) .., le_refl _⟩
    · have hlike : List.Forall₂ (fun x y => x.1 = y.1 ∧ S.value w' x.2 y.2) l₁ l₂ :=
        hrest.imp fun _ _ h => ⟨h.1, h.2.mono hw⟩
      refine (Steps.declareAll (World.le_frames hw hfg) (World.le_live hw hf) hlike).imp ?_
      intro w'' hw'' _ _ hdeclared x hx
      rcases List.mem_cons.mp hx with rfl | hx
      · exact World.le_declared (le_trans hw' hw'') (.inr ⟨rfl, rfl⟩)
      · exact hdeclared x hx

/-- A variable is bound in corresponding frames, or in none on either side. -/
def Resolves (S : Setting σ) (w : World) (s₁ s₂ : Scope) (p : Param) : Prop :=
  ∀ w', w ≤ w' → ∀ d m₁ m₂, S.Similar w' d m₁ m₂ →
    (∃ f g, w'.frames.pairs f g ∧ m₁.store.owner? s₁ p.id = some f ∧
      m₂.store.owner? s₂ p.id = some g) ∨
    (m₁.store.owner? s₁ p.id = none ∧ m₂.store.owner? s₂ p.id = none ∧
      S.ok (.unboundParameter p.displayName))

theorem Resolves.mono (h : w ≤ w') {s₁ s₂ : Scope} {p : Param} (l : S.Resolves w s₁ s₂ p) :
    S.Resolves w' s₁ s₂ p :=
  fun w'' hw => l w'' (le_trans h hw)

theorem Steps.lookup {s₁ s₂ : Scope} {p : Param} (h : S.Resolves w s₁ s₂ p) :
    S.Steps d w (fun w x y => Option.Rel (S.value w) x y ∧
        (x = none → S.ok (.unboundParameter p.displayName)))
      (Step.lookup s₁ p) (Step.lookup s₂ p) := by
  intro m₁ m₂ hm x m₁' hx
  cases hx
  refine ⟨_, m₂, w, rfl, le_refl w, hm, .refl _, .refl _, ?_⟩
  rw [Store.lookup_eq_owner?, Store.lookup_eq_owner?]
  rcases h w (le_refl w) d m₁ m₂ hm with ⟨f, g, hfg, h₁, h₂⟩ | ⟨h₁, h₂, hok⟩
  · rw [h₁, h₂]
    refine ⟨(hm.bindings f g hfg).get? p.id, fun hnone => ?_⟩
    have hsome := Store.isSome_of_owner? h₁
    rw [Option.bind_some] at hnone
    rw [hnone] at hsome
    exact absurd hsome (by simp)
  · rw [h₁, h₂]
    exact ⟨.none, fun _ => hok⟩

theorem Steps.assign {s₁ s₂ : Scope} {p : Param} (h : S.Resolves w s₁ s₂ p) {v v' : Value}
    (hv : S.value w v v') :
    S.Steps d w (fun _ x y => x = y ∧ (x = false → S.ok (.unboundParameter p.displayName)))
      (Step.assign s₁ p v) (Step.assign s₂ p v') := by
  intro m₁ m₂ hm x m₁' hx
  -- both sides write to the frames that they find, or find none and change nothing
  rcases h w (le_refl w) d m₁ m₂ hm with ⟨f, g, hfg, h₁, h₂⟩ | ⟨h₁, h₂, hok⟩
  · have hf := Store.lt_size_of_isSome_get? (Store.isSome_of_owner? h₁)
    have e₁ : Step.assign s₁ p v m₁ =
        some (true, { m₁ with store := m₁.store.write f p.id v }) := by
      simp only [Step.assign, Step.onStore, Store.assign, h₁]
    have e₂ : Step.assign s₂ p v' m₂ =
        some (true, { m₂ with store := m₂.store.write g p.id v' }) := by
      simp only [Step.assign, Step.onStore, Store.assign, h₂]
    rw [e₁] at hx
    cases hx
    exact ⟨true, _, w.withDeclared f p.id, e₂, World.le_withDeclared f p.id,
      hm.write hfg hf p.id hv, .write (hm.apart₁ f g hfg) .., .write (hm.apart₂ f g hfg) ..,
      rfl, fun h => nomatch h⟩
  · have e₁ : Step.assign s₁ p v m₁ = some (false, m₁) := by
      simp only [Step.assign, Step.onStore, Store.assign, h₁]
    have e₂ : Step.assign s₂ p v' m₂ = some (false, m₂) := by
      simp only [Step.assign, Step.onStore, Store.assign, h₂]
    rw [e₁] at hx
    cases hx
    exact ⟨false, m₂, w, e₂, le_refl w, hm, .refl _, .refl _, rfl, fun _ => hok⟩

/-- Both sides keep a closure. -/
theorem Similar.withClosure (hm : S.Similar w d m₁ m₂) {c₁ c₂ : Closure}
    (hc : S.ClosureLike w c₁ c₂) :
    S.Similar (w.withClosure hm.closures) d { m₁ with closures := m₁.closures.push c₁ }
      { m₂ with closures := m₂.closures.push c₂ } :=
  have hle := World.le_withClosure hm.closures
  { hm with
    above := le_trans hm.above hle
    closures := by
      rw [Array.size_push, Array.size_push]
      exact hm.closures.extend
    bindings := fun f g h => (hm.bindings f g h).mono hle
    host := S.state_mono hle hm.host
    made := by
      intro i j hij hi c hc₁
      rw [Array.getElem?_push] at hc₁
      split at hc₁
      · next h =>
        subst h
        cases hc₁
        -- the new closure of one side is paired with the new one of the other only
        have hj := (w.withClosure hm.closures).closures.unique_right hij (.inr ⟨rfl, rfl⟩)
        exact ⟨c₂, by rw [hj, Array.getElem?_push_size], hc.mono hle⟩
      · next h =>
        rcases hij with hij | ⟨hi, _⟩
        · obtain ⟨c', hc', l⟩ := hm.made i j hij ‹_› c hc₁
          have hj := (Array.getElem?_eq_some_iff.mp hc').1
          refine ⟨c', ?_, l.mono hle⟩
          rw [Array.getElem?_push, if_neg (Nat.ne_of_lt hj)]
          exact hc'
        · exact absurd hi h }

theorem Steps.addClosure {c₁ c₂ : Closure} (hc : S.ClosureLike w c₁ c₂) :
    S.Steps d w (fun w i j => w.closures.pairs i j) (Step.addClosure c₁) (Step.addClosure c₂) := by
  intro m₁ m₂ hm a m₁' hx
  cases hx
  exact ⟨m₂.closures.size, { m₂ with closures := m₂.closures.push c₂ },
    w.withClosure hm.closures, rfl, World.le_withClosure hm.closures, hm.withClosure hc,
    .addClosure m₁ c₁, .addClosure m₂ c₂, .inr ⟨rfl, rfl⟩⟩

/-! ## Host code -/

/-- Both sides play their scripts. -/
theorem Steps.play {α : Type} {R : World → α → α → Prop}
    {apply₁ apply₂ : FuncRef → List Value → Step σ Reply}
    (happly : ∀ w r₁ r₂ args₁ args₂, RefLike w r₁ r₂ → ValuesLike w S.ok args₁ args₂ →
      S.Steps d w (fun w => ReplyLike w S.ok) (apply₁ r₁ args₁) (apply₂ r₂ args₂))
    {s t : Script σ α} (h : ScriptLike S.state S.ok R w s t) :
    S.Steps d w R (Step.play apply₁ s) (Step.play apply₂ t) := by
  induction h with
  | done result => exact Steps.pure result
  | read next ih =>
    intro m₁ m₂ hm a m₁' hx
    exact ih m₁.host m₂.host hm.host m₁ m₂ hm a m₁' hx
  | @write w s t k l related next ih =>
    intro m₁ m₂ hm a m₁' hx
    have hm' : S.Similar w d { m₁ with host := s } { m₂ with host := t } :=
      { hm with host := related }
    obtain ⟨b, m₂', w', hy, hw, hm'', hg₁, hg₂, hab⟩ := ih _ _ hm' a m₁' hx
    refine ⟨b, m₂', w', hy, hw, hm'', Grown.trans ?_ hg₁, Grown.trans ?_ hg₂, hab⟩
    · exact ⟨Nat.le_refl _, Nat.le_refl _, fun _ _ h => h, fun _ _ => rfl⟩
    · exact ⟨Nat.le_refl _, Nat.le_refl _, fun _ _ h => h, fun _ _ => rfl⟩
  | fresh next ih => exact Steps.bind Steps.fresh fun w' hw a b hab => ih w' a b hw hab
  | call called given next ih =>
    exact Steps.bind (happly _ _ _ _ _ called given) fun w' hw r r' hr => ih w' r r' hw hr

/-! ## Exceptions -/

theorem Runs.raise {α β : Type} {R : World → α → β → Prop} (cls : Ty) (message : String) :
    S.Runs d w R (Run.raise cls message) (Run.raise cls message) :=
  Runs.bind (Runs.step Steps.fresh) fun _ _ _ _ hid => Runs.throw (.throw (.exception hid cls message))

theorem Runs.nullReference {α β : Type} {R : World → α → β → Prop} (what : String) :
    S.Runs d w R (Run.nullReference what) (Run.nullReference what) :=
  Runs.raise _ _

/-- A fault that passed through host code is the same fault on both sides. -/
theorem Runs.ofReply {x y : Reply} (h : ReplyLike w S.ok x y) :
    S.Runs d w S.value (Run.ofReply x) (Run.ofReply y) := by
  cases h with
  | ok value => exact Runs.pure value
  | error thrown =>
    cases thrown with
    | fault id allowed => exact Runs.fault allowed
    | array id items => exact Runs.throw (.throw (.array id items))
    | record id fields => exact Runs.throw (.throw (.record id fields))
    | hosted id => exact Runs.throw (.throw (.hosted id))
    | closure index => exact Runs.throw (.throw (.closure index))
    | task id value => exact Runs.throw (.throw (.task id value))
    | failedTask id value => exact Runs.throw (.throw (.failedTask id value))
    | _ => exact Runs.throw (.throw (by constructor))

theorem Steps.faulted {f : Fault} (h : S.ok f) :
    S.Steps d w (fun w => ReplyLike w S.ok) (Run.toReply.faulted f) (Run.toReply.faulted f) :=
  Steps.bind Steps.fresh fun _ _ _ _ hid => Steps.pure (.error (.fault hid h))

/-- What host code is told about an evaluation. -/
theorem Runs.toReply {x y : Run σ Value} (h : S.Runs d w S.value x y) :
    S.Steps d w (fun w => ReplyLike w S.ok) x.toReply y.toReply := by
  refine Steps.bind h fun w' _ r r' hr => ?_
  cases hr with
  | ok value => exact Steps.pure (.ok value)
  | error exit =>
    cases exit with
    | throw value => exact Steps.pure (.error value)
    | jump l value => exact Steps.faulted (S.ok_of_bound fun _ h => nomatch h)
    | fault allowed => exact Steps.faulted allowed

end Primitives

end Setting

end CodeTree
