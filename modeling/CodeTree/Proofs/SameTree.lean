import CodeTree.Proofs.Simulation

/-!
# One tree in two scopes

A tree that is scoped in a context finds its variables in any scope that has them, whatever
lies outside: `Scope.Covers` says that the inner parts of two scopes correspond and declare
what the context lists, and `SamePlace` puts one tree into two such scopes.

Main statements: `Setting.Resolves.of_covers` — a variable of the context is found in
corresponding frames — and `SamePlace.layer` — one tree in two such scopes is the same layer
by layer, so that its evaluations go side by side.
-/

namespace CodeTree

/-! ## Scopes that have what a tree needs -/

/-- The frames of links that correspond. -/
abbrev LinksLike (w : World) : List Link → List Link → Prop :=
  List.Forall₂ fun a b => w.frames.pairs a.frame b.frame

/-- Two scopes whose inner parts correspond and declare the variables of a context. Where the
context allows a rethrow, they also handle exceptions that are alike. -/
structure Scope.Covers (ok : Fault → Prop) (w : World) (c : Context) (s₁ s₂ : Scope) : Prop where
  inner : ∃ inner₁ inner₂ outer₁ outer₂, s₁.links = inner₁ ++ outer₁ ∧
    s₂.links = inner₂ ++ outer₂ ∧ LinksLike w inner₁ inner₂ ∧
    ∀ p ∈ c.bound, ∃ link ∈ inner₁, w.declared link.frame p.id
  handled : c.rethrow → Option.Rel (ValueLike w ok) s₁.currentException? s₂.currentException?

namespace Scope.Covers

variable {ok : Fault → Prop} {w w' : World} {c : Context} {s₁ s₂ : Scope}

theorem mono (hw : w ≤ w') (h : Covers ok w c s₁ s₂) : Covers ok w' c s₁ s₂ := by
  obtain ⟨⟨inner₁, inner₂, outer₁, outer₂, h₁, h₂, hlinks, hbound⟩, hhandled⟩ := h
  refine ⟨⟨inner₁, inner₂, outer₁, outer₂, h₁, h₂, hlinks.imp fun _ _ => World.le_frames hw, ?_⟩, ?_⟩
  · intro p hp
    obtain ⟨link, hlink, hdeclared⟩ := hbound p hp
    exact ⟨link, hlink, World.le_declared hw hdeclared⟩
  · intro hc
    have h := hhandled hc
    revert h
    generalize s₁.currentException? = x, s₂.currentException? = y
    intro h
    rcases h with h | _
    · exact .some (h.mono hw)
    · exact .none

/-- One more frame on each side, with the variables it has been given. -/
theorem extended (h : Covers ok w c s₁ s₂) {f g : Nat} (hfg : w.frames.pairs f g)
    (params : List Param) (hdeclared : ∀ p ∈ params, w.declared f p.id) {x y : Option Value}
    {c' : Context} (hbound : c'.bound = params ++ c.bound)
    (hhandled : c'.rethrow → Option.Rel (ValueLike w ok) (s₁.extended f x).currentException?
      (s₂.extended g y).currentException?) :
    Covers ok w c' (s₁.extended f x) (s₂.extended g y) := by
  obtain ⟨⟨inner₁, inner₂, outer₁, outer₂, h₁, h₂, hlinks, hinner⟩, -⟩ := h
  refine ⟨⟨⟨f, x⟩ :: inner₁, ⟨g, y⟩ :: inner₂, outer₁, outer₂, ?_, ?_, .cons hfg hlinks, ?_⟩, hhandled⟩
  · rw [Scope.extended, h₁, List.cons_append]
  · rw [Scope.extended, h₂, List.cons_append]
  · intro p hp
    rw [hbound] at hp
    rcases List.mem_append.mp hp with hp | hp
    · exact ⟨⟨f, x⟩, List.mem_cons_self, hdeclared p hp⟩
    · obtain ⟨link, hlink, hd⟩ := hinner p hp
      exact ⟨link, List.mem_cons_of_mem _ hlink, hd⟩

/-- A context that promises nothing asks nothing of a scope. -/
theorem nothing (ok : Fault → Prop) (w : World) (s₁ s₂ : Scope) :
    Covers ok w ⟨[], false⟩ s₁ s₂ :=
  ⟨⟨[], [], s₁.links, s₂.links, rfl, rfl, .nil, fun _ h => nomatch h⟩, fun h => nomatch h⟩

end Scope.Covers

/-! ## Finding variables -/

section Owners

variable {w : World} {st₁ st₂ : Store}

/-- Along links that correspond, a variable is found on both sides or passed by on both. -/
theorem owner?_append
    (hframes : ∀ f g, w.frames.pairs f g → ∀ id,
      ((st₁.frame f).get? id).isSome = ((st₂.frame g).get? id).isSome) (id : Nat)
    (outer₁ outer₂ : List Link) {inner₁ inner₂ : List Link} (h : LinksLike w inner₁ inner₂) :
    (∃ f g, w.frames.pairs f g ∧ st₁.owner? ⟨inner₁ ++ outer₁⟩ id = some f ∧
        st₂.owner? ⟨inner₂ ++ outer₂⟩ id = some g) ∨
      ((∀ link ∈ inner₁, ((st₁.frame link.frame).get? id).isSome = false) ∧
        st₁.owner? ⟨inner₁ ++ outer₁⟩ id = st₁.owner? ⟨outer₁⟩ id ∧
        st₂.owner? ⟨inner₂ ++ outer₂⟩ id = st₂.owner? ⟨outer₂⟩ id) := by
  induction h with
  | nil => exact .inr ⟨fun _ h => (nomatch h), rfl, rfl⟩
  | @cons a b as bs hab _ ih =>
    have hsome := hframes _ _ hab id
    cases hfound : ((st₁.frame a.frame).get? id).isSome with
    | true =>
      refine .inl ⟨a.frame, b.frame, hab, ?_, ?_⟩
      · simp [Store.owner?, hfound]
      · simp [Store.owner?, ← hsome, hfound]
    | false =>
      have h₁ : st₁.owner? ⟨(a :: as) ++ outer₁⟩ id = st₁.owner? ⟨as ++ outer₁⟩ id := by
        simp [Store.owner?, hfound]
      have h₂ : st₂.owner? ⟨(b :: bs) ++ outer₂⟩ id = st₂.owner? ⟨bs ++ outer₂⟩ id := by
        simp [Store.owner?, ← hsome, hfound]
      rw [h₁, h₂]
      refine ih.imp (fun h => h) fun ⟨hnone, h₁, h₂⟩ => ⟨?_, h₁, h₂⟩
      intro link hlink
      rcases List.mem_cons.mp hlink with rfl | hlink
      · exact hfound
      · exact hnone link hlink

end Owners

namespace Setting

variable {σ : Type} {S : Setting σ} {d : Array Nat × Array Nat} {w w' : World}

theorem Similar.isSome_get?_eq {m₁ m₂ : Machine σ} (hm : S.Similar w d m₁ m₂) :
    ∀ f g, w.frames.pairs f g → ∀ id,
      ((m₁.store.frame f).get? id).isSome = ((m₂.store.frame g).get? id).isSome :=
  fun f g hfg id => (hm.bindings f g hfg).isSome_get?_eq id

/-- A variable of the context is found in corresponding frames. -/
theorem Resolves.of_covers {c : Context} {s₁ s₂ : Scope} (h : Scope.Covers S.ok w c s₁ s₂)
    {p : Param} (hp : Expr.isAmong p c.bound) : S.Resolves w s₁ s₂ p := by
  obtain ⟨⟨links₁⟩, ⟨links₂⟩⟩ := s₁, s₂
  obtain ⟨⟨inner₁, inner₂, outer₁, outer₂, rfl, rfl, hlinks, hbound⟩, -⟩ := h
  intro w' hw d m₁ m₂ hm
  obtain ⟨q, hq, hid⟩ := Expr.isAmong_iff.mp hp
  obtain ⟨link, hlink, hdeclared⟩ := hbound q hq
  have hlinks' : LinksLike w' inner₁ inner₂ := hlinks.imp fun _ _ => World.le_frames hw
  -- the inner links do not pass by a variable that one of their frames has been given
  rcases owner?_append hm.isSome_get?_eq p.id outer₁ outer₂ hlinks' with hfound | ⟨hnone, -, -⟩
  · exact .inl hfound
  · have hsome := hm.declared link.frame q.id (World.le_declared hw hdeclared)
    rw [hid, hnone link hlink] at hsome
    cases hsome

/-- Where all links correspond, so does what is found; what is not found is not found on
either side. -/
theorem Resolves.of_links {s₁ s₂ : Scope} (h : LinksLike w s₁.links s₂.links) {p : Param}
    (hok : S.ok (.unboundParameter p.displayName)) : S.Resolves w s₁ s₂ p := by
  intro w' hw d m₁ m₂ hm
  have hlinks' : LinksLike w' s₁.links s₂.links := h.imp fun _ _ => World.le_frames hw
  rcases owner?_append hm.isSome_get?_eq p.id [] [] hlinks' with hfound | ⟨-, h₁, h₂⟩
  · rw [List.append_nil, List.append_nil] at hfound
    exact .inl hfound
  · rw [List.append_nil] at h₁ h₂
    exact .inr ⟨h₁, h₂, hok⟩

end Setting

/-! ## Places -/

/-- The constants of a tree satisfy a condition. -/
def Expr.Constants (good : Value → Prop) (e : Expr) : Prop :=
  ∀ n ∈ e.nodes, ∀ v, n.shape = .constant v → good v

theorem Expr.Constants.child {good : Value → Prop} {e a : Expr} (h : e.Constants good)
    (ha : a ∈ e.children) : a.Constants good :=
  fun n hn => h n (mem_nodes_of_child ha hn)

/-- One tree in two scopes that have what it needs. -/
structure SamePlace (interp : Interp → Interp → Prop) (ok : Fault → Prop) (w : World)
    (P Q : Place) : Prop where
  tree : P.tree = Q.tree
  interp : interp P.interp Q.interp
  constants : P.tree.Constants fun v => ValueLike w ok v v
  context : ∃ c, P.tree.isScoped c ∧ Scope.Covers ok w c P.scope Q.scope

namespace SamePlace

variable {interp : Interp → Interp → Prop} {ok : Fault → Prop} {w w' : World} {P Q : Place}

theorem mono (hw : w ≤ w') (h : SamePlace interp ok w P Q) : SamePlace interp ok w' P Q := by
  obtain ⟨htree, hinterp, hconstants, c, hscoped, hcovers⟩ := h
  exact ⟨htree, hinterp, fun n hn v hv => (hconstants n hn v hv).mono hw, c, hscoped,
    hcovers.mono hw⟩

/-- One tree in two scopes is the same layer by layer. -/
theorem layer {σ : Type} {S : Setting σ}
    (hS : ∀ w', w ≤ w' → ∀ P Q, SamePlace S.interp S.ok w' P Q → S.place w' P Q)
    (h : SamePlace S.interp S.ok w P Q) : S.LayerLike w P Q := by
  obtain ⟨I₁, s₁, e⟩ := P
  obtain ⟨I₂, s₂, e'⟩ := Q
  obtain ⟨rfl, hinterp, hconstants, c, hscoped, hcovers⟩ := h
  have hlayer := Expr.isScoped_layer hscoped
  refine ⟨rfl, hinterp, ?_, fun p hp => ?_, fun p a hp => ?_, fun hthrow => ?_⟩
  · refine Shape.like_self (fun v hv => hconstants e e.mem_nodes_self v hv) fun q a ha => ?_
    have hmem : a ∈ e.children := Shape.mem_children_of_mem_positions ha
    have hinner := Expr.isScoped_child hscoped ha
    have hconstants' : ∀ w', w ≤ w' → a.Constants fun v => ValueLike w' S.ok v v :=
      fun w' hw n hn v hv => (hconstants.child hmem n hn v hv).mono hw
    refine ⟨rfl, rfl, ?_⟩
    -- a child stands in the scope of its layer, or in one more frame
    cases q with
    | plain => exact hS w (le_refl w) _ _ ⟨rfl, hinterp, hconstants.child hmem, c, hinner, hcovers⟩
    | under params =>
      intro w' hw f g hfg hdeclared
      refine hS w' hw _ _ ⟨rfl, hinterp, hconstants' w' hw, _, hinner, ?_⟩
      exact (hcovers.mono hw).extended hfg params hdeclared rfl (hcovers.mono hw).handled
    | catching binder =>
      intro w' hw f g v v' hfg hv hdeclared
      refine hS w' hw _ _ ⟨rfl, hinterp, hconstants' w' hw, _, hinner, ?_⟩
      refine (hcovers.mono hw).extended hfg binder.toList ?_ rfl fun _ => .some hv
      exact fun p hp => hdeclared p (Option.mem_toList.mp hp)
  · dsimp only at hp
    rw [hp] at hlayer
    exact Setting.Resolves.of_covers hcovers hlayer
  · dsimp only at hp
    rw [hp] at hlayer
    exact Setting.Resolves.of_covers hcovers hlayer
  · dsimp only at hthrow
    rw [hthrow] at hlayer
    exact hcovers.handled hlayer

end SamePlace

end CodeTree
