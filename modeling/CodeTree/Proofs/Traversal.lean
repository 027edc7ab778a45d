import CodeTree.Proofs.Similarity
import CodeTree.Proofs.Stock

/-!
# Traversals that end

`Step.Yields m Q x` says that the action `x` ends on every machine that has come out of `m`, with a
result that satisfies `Q` and without a trace in the frames of `m`. This is a `Logic`, so a traversal of
a layer yields a layer that is like it, when each child yields one that corresponds
(`Step.Yields.mapM`).
-/

namespace CodeTree

variable {σ α β γ : Type}

/-- An action that ends on every machine that has come out of `m`, leaves the frames of `m` as they are,
and gives a result that satisfies `Q`. -/
def Step.Yields (m : Machine σ) (Q : α → Prop) (x : Step σ α) : Prop :=
  ∀ k, m.Precedes k → ∃ a k', x k = some (a, k') ∧ m.Precedes k' ∧ Q a

namespace Step.Yields

variable {m : Machine σ}

theorem pure {Q : α → Prop} {a : α} (h : Q a) : Yields m Q (Pure.pure a) :=
  fun k hk => ⟨a, k, rfl, hk, h⟩

theorem bind {Q : α → Prop} {T : β → Prop} {x : Step σ α} {f : α → Step σ β} (h : Yields m Q x)
    (hf : ∀ a, Q a → Yields m T (f a)) : Yields m T (x >>= f) := by
  intro k hk
  obtain ⟨a, k', hx, hk', ha⟩ := h k hk
  obtain ⟨b, k'', hfa, hk'', hb⟩ := hf a ha k' hk'
  exact ⟨b, k'', Option.bind_eq_some_iff.mpr ⟨(a, k'), hx, hfa⟩, hk'', hb⟩

/-- A new node. -/
theorem make {Q : Expr → Prop} {s : Shape Value Expr} {ty : Ty} (h : ∀ id, Q (.mk id s ty)) :
    Yields m Q (Step.make (Expr.make s ty)) := by
  intro k hk
  exact ⟨.mk k.next s ty, { k with next := k.next + 1 }, rfl, hk.trans (.withNext k), h k.next⟩

theorem imp {Q T : α → Prop} {x : Step σ α} (h : Yields m Q x) (hQ : ∀ a, Q a → T a) :
    Yields m T x := by
  intro k hk
  obtain ⟨a, k', hx, hk', ha⟩ := h k hk
  exact ⟨a, k', hx, hk', hQ a ha⟩

/-- The logic of actions that end. The nodes that exist do not matter to it. -/
def logic (m : Machine σ) : Logic (Step σ) where
  Gives S Q := Yields m fun a => ∃ S', S ⊆ S' ∧ Q S' a
  pure h := pure ⟨_, subset_rfl, h⟩
  bind h hf := h.bind fun a ha => by
    obtain ⟨S₁, h₁, hQ⟩ := ha
    refine (hf S₁ a h₁ hQ).imp fun b hb => ?_
    obtain ⟨S₂, h₂, hT⟩ := hb
    exact ⟨S₂, h₁.trans h₂, hT⟩

/-- A layer whose children each yield something that corresponds yields a layer like it. -/
theorem mapM {R : α → β → Prop} {g : α → γ} {f : γ → Step σ β} {ν : Type} {V : ν → ν → Prop}
    {s : Shape ν α} (hv : ∀ v, s = .constant v → V v v)
    (h : ∀ a ∈ s.children, Yields m (R a) (f (g a))) :
    Yields m (Shape.Like V (fun _ => R) s) ((s.map g).mapM f) := by
  have hlayer := Logic.mapM_like (L := logic m) (S := ∅) (R := fun _ => R) (f := fun a => f (g a))
    (fun _ _ _ _ _ hab => hab) hv fun a ha S _ => (h a ha).imp fun _ hb => ⟨S, subset_rfl, hb⟩
  rw [Shape.mapM_map]
  refine hlayer.imp fun layer hlike => ?_
  obtain ⟨-, -, hlike⟩ := hlike
  exact hlike

end Step.Yields

end CodeTree
