import CodeTree.Proofs.Stock

/-!
# Two ways to go through the children of a node

`Shape.children` lists the children of a layer, and `Shape.mapM` visits and replaces them; a rewriting
pass keeps a node when all its children come back identical. `Expr.mapChildren?` is that step by
itself: the new layer, or nothing when there is no change.

The functions that children are mapped by may do anything a monad allows, so that the order of the
calls matters. `Together R x y` says that two actions are one and the same but for their results,
which are related by `R`.

* `Always.logic` — what every result of an action satisfies, as a logic of traversals;
* `samePayload_mapM` — a visited layer differs from the layer in its children only;
* `hasChildren_iff` — the test for a change compares child by child.

Main statement: `child_enumerations_agree` — mapping the children visits exactly those that are listed,
once each and in the same order, and puts the results where the children were.
-/

namespace CodeTree

/-! ## Results of actions -/

section Actions

variable {m : Type → Type} [Monad m] {α β : Type}

/-- All results of an action satisfy `P`: it can be run so as to give them with the proof. -/
def Always (P : α → Prop) (x : m α) : Prop := ∃ z : m {a // P a}, Subtype.val <$> z = x

/-- Two actions do the same, with results that are related. -/
def Together (R : α → β → Prop) (x : m α) (y : m β) : Prop :=
  ∃ z : m (α × β), Always (fun p => R p.1 p.2) z ∧ Prod.fst <$> z = x ∧ Prod.snd <$> z = y

namespace Always

variable [LawfulMonad m] {P : α → Prop} {Q : β → Prop}

theorem pure {a : α} (h : P a) : Always P (Pure.pure a : m α) := ⟨Pure.pure ⟨a, h⟩, by simp⟩

theorem bind {x : m α} {f : α → m β} (h : Always P x) (hf : ∀ a, P a → Always Q (f a)) :
    Always Q (x >>= f) := by
  obtain ⟨z, rfl⟩ := h
  choose g hg using hf
  refine ⟨z >>= fun a => g a.1 a.2, ?_⟩
  rw [map_bind, bind_map_left]
  exact congrArg (z >>= ·) (funext fun a => hg a.1 a.2)

theorem map {x : m α} {f : α → β} (h : Always P x) (hf : ∀ a, P a → Q (f a)) :
    Always Q (f <$> x) := by
  rw [← bind_pure_comp]
  exact h.bind fun a ha => .pure (hf a ha)

theorem imp {x : m α} {Q : α → Prop} (h : Always P x) (hQ : ∀ a, P a → Q a) : Always Q x := by
  rw [← id_map x]
  exact h.map hQ

theorem trivial (x : m α) : Always (fun _ => True) x :=
  ⟨(fun a => ⟨a, True.intro⟩) <$> x, by simp⟩

/-- The logic of what always holds. The nodes that exist do not matter to it. -/
def logic (m : Type → Type) [Monad m] [LawfulMonad m] : Logic m where
  Gives S Q := Always fun a => ∃ S', S ⊆ S' ∧ Q S' a
  pure h := pure ⟨_, subset_rfl, h⟩
  bind h hf := h.bind fun a ha => by
    obtain ⟨S₁, h₁, hQ⟩ := ha
    refine (hf S₁ a h₁ hQ).imp fun b hb => ?_
    obtain ⟨S₂, h₂, hT⟩ := hb
    exact ⟨S₂, h₁.trans h₂, hT⟩

end Always

end Actions

/-- Of two actions on a state that do the same, both come to the same state. -/
theorem Together.run {σ α β : Type} {R : α → β → Prop} {x : StateM σ α} {y : StateM σ β}
    (h : Together R x y) (s : σ) : (x.run s).2 = (y.run s).2 ∧ R (x.run s).1 (y.run s).1 := by
  obtain ⟨z, ⟨w, rfl⟩, rfl, rfl⟩ := h
  exact ⟨rfl, (w.run s).1.2⟩

/-! ## Layers -/

/-- Layers of the same kind that hold the same constants, variables, targets, host code and types, and
have children in the same places. -/
def Shape.SamePayload {ν α β : Type} (s : Shape ν α) (t : Shape ν β) : Prop :=
  Shape.Like Eq (fun _ _ _ => True) s t

section Visits

variable {m : Type → Type} [Monad m] [LawfulMonad m] {ν α β : Type}

/-- Visiting the children of a layer changes nothing else in it. -/
theorem samePayload_mapM (f : α → m β) (s : Shape ν α) : Always s.SamePayload (s.mapM f) := by
  have hvisits : ∀ a ∈ s.children, (Always.logic m).Visits ∅ (fun _ _ _ => True) f a :=
    fun a _ S _ => (Always.trivial (f a)).imp fun _ _ => ⟨S, subset_rfl, True.intro⟩
  refine ((Always.logic m).mapM (fun _ _ _ _ _ h => h) hvisits).imp fun t ht => ?_
  obtain ⟨-, -, hlike⟩ := ht
  exact hlike

end Visits

namespace Expr

/-- A node has the children of a layer when they are identical one by one. -/
theorem hasChildren_iff (e : Expr) (layer : Shape Value Expr) :
    e.hasChildren layer ↔ List.Forall₂ (fun a b => a.isIdentical b) e.children layer.children := by
  rw [hasChildren, beq_iff_eq, eq_comm, ← List.forall₂_eq_eq_eq, List.forall₂_map_left_iff,
    List.forall₂_map_right_iff]
  simp only [isIdentical, beq_iff_eq]

/-- A layer that was made for a node, unless its children are those of the node. -/
def changed? (e : Expr) (layer : Shape Value Expr) : Option (Shape Value Expr) :=
  if e.hasChildren layer then none else some layer

/-- The layer of a node with its children mapped, unless they all come back identical. -/
def mapChildren? {m : Type → Type} [Monad m] (f : Expr → m Expr) (e : Expr) :
    m (Option (Shape Value Expr)) :=
  e.changed? <$> e.shape.mapM f

/-- The node with another layer, if there is one. -/
def replaceLayer (e : Expr) : Option (Shape Value Expr) → Make Expr
  | none => pure e
  | some layer => make layer e.ty

/-- What a pass makes of a node is decided by whether the layer has changed. -/
theorem withLayer_eq (e : Expr) (layer : Shape Value Expr) :
    e.withLayer layer = e.replaceLayer (e.changed? layer) := by
  rw [withLayer, changed?]
  split <;> rfl

/-- What `mapChildren?` gives beside the images of the children. -/
theorem changed?_spec {e : Expr} {layer : Shape Value Expr} (h : e.shape.SamePayload layer) :
    (e.changed? layer = none ↔
        List.Forall₂ (fun a b => a.isIdentical b) e.children layer.children) ∧
      ∀ k, e.changed? layer = some k → e.shape.SamePayload k ∧ k.children = layer.children := by
  rw [← hasChildren_iff, changed?]
  constructor
  · split <;> simp [*]
  · intro k hk
    split at hk
    · cases hk
    · cases hk
      exact ⟨h, rfl⟩

end Expr

/-- Mapping the children of a node visits exactly the children that are listed, once each and in the
same order. It comes to nothing when all of them come back identical, and only then; otherwise it
comes to a layer with the payload of the node, in which the images stand in the order of the children.
A pass keeps or rebuilds the node accordingly. -/
theorem child_enumerations_agree {m : Type → Type} [Monad m] [LawfulMonad m] (f : Expr → m Expr)
    (e : Expr) :
    Together (fun images out =>
        (out = none ↔ List.Forall₂ (fun a b => a.isIdentical b) e.children images) ∧
          ∀ layer, out = some layer → e.shape.SamePayload layer ∧ layer.children = images)
      (e.children.mapM f) (e.mapChildren? f) ∧
    ∀ lift : Make Expr → m Expr,
      (e.shape.mapM f >>= fun layer => lift (e.withLayer layer)) =
        e.mapChildren? f >>= fun out => lift (e.replaceLayer out) := by
  constructor
  · refine ⟨(fun layer => (layer.children, e.changed? layer)) <$> e.shape.mapM f, ?_, ?_, ?_⟩
    · exact (samePayload_mapM f e.shape).map fun layer h => e.changed?_spec h
    · rw [Functor.map_map]
      exact Shape.children_mapM f e.shape
    · rw [Functor.map_map]
      rfl
  · intro lift
    rw [Expr.mapChildren?, bind_map_left]
    exact congrArg (e.shape.mapM f >>= ·) (funext fun layer => congrArg lift (e.withLayer_eq layer))

namespace Sample

def leafOf (id : Nat) : Expr := .mk id (.constant (.int 0)) .int

/-- Two catch clauses, one with a filter and one without a variable, and a last part. -/
def watched : Expr :=
  .mk 76 (.guarded (leafOf 71)
    [⟨.exception, some ⟨1, some "e", .exception⟩, some (leafOf 72), leafOf 73⟩,
      ⟨.argument, none, none, leafOf 74⟩]
    (some (leafOf 75))) .int

/-- Notes the identity of a child, and gives another node for that with the number 73. -/
def exchange (child : Expr) : StateM (List Nat) Expr := do
  modify (· ++ [child.id])
  pure (if child.id = 73 then leafOf 77 else child)

end Sample

open Sample in
/-- The children of a guarded region are visited from the body to the last part, and one of them is
replaced. -/
theorem exchanged_in_region :
    LawfulMonad (StateM (List Nat)) ∧
      ∃ layer, (watched.mapChildren? exchange).run [] = (some layer, [71, 72, 73, 74, 75]) ∧
        watched.shape.SamePayload layer ∧ layer.children = [71, 72, 77, 74, 75].map leafOf := by
  have htogether := (child_enumerations_agree exchange watched).1.run []
  refine ⟨inferInstance, _, rfl, ?_⟩
  exact htogether.2.2 _ rfl

end CodeTree
