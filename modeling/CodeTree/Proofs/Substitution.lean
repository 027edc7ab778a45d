import CodeTree.Substitute
import CodeTree.Proofs.Pinned
import CodeTree.Proofs.Stock

/-!
# What a substitution makes of a tree

`Expr.Substituted` says position by position what a substitution that does not collect makes of a
tree: a reference that is not declared around it gives way to the first tree of its type, and every
other node stays as it is but for its children. A node whose children stay is itself the node it
was, so a part of the tree without replaced references comes out as the identical part.

Free references are described in the same way, by `Expr.Refers`.

Main statement: `Expr.replaceParameters_gives` — replacing parameters gives a substituted tree.
-/

namespace CodeTree

namespace Expr

theorem someNode_eq_false_iff {test : Expr → Bool} {e : Expr} :
    e.someNode test = false ↔ ∀ n ∈ e.nodes, test n = false := by
  induction e using Expr.induction with
  | step e ih =>
    constructor
    · intro h n hn
      rcases mem_nodes.mp hn with rfl | ⟨a, ha, hn⟩
      · exact someNode_self h
      · exact (ih a ha).mp (someNode_child h ha) n hn
    · intro h
      obtain ⟨id, s, ty⟩ := e
      rw [someNode_mk, Bool.or_eq_false_iff, List.any_eq_false]
      refine ⟨h _ (mem_nodes_self _), fun a ha => Bool.eq_false_iff.mp ((ih a ha).mpr fun n hn => ?_)⟩
      exact h n (mem_nodes_of_child ha hn)

theorem shape_of_asParameter? {e : Expr} {p : Param} (h : e.asParameter? = some p) :
    e.shape = .parameter p := by
  unfold asParameter? at h
  split at h
  next q hshape => cases h; exact hshape
  next => cases h

theorem asParameter?_eq_none {e : Expr} {s : Shape Value Expr} (he : e.shape = s)
    (hs : ∀ p, s ≠ .parameter p) : e.asParameter? = none := by
  cases hp : e.asParameter? with
  | none => rfl
  | some p => exact absurd (he.symm.trans (shape_of_asParameter? hp)) (hs p)

/-! ## Free references -/

/-- One step of `Refers`. -/
def refersStep (p : Param) (e : Expr) (layer : Shape Value (Expr × (List Param → Prop)))
    (bound : List Param) : Prop :=
  match e.asParameter? with
  | some q => q = p ∧ isAmong q bound = false
  | none => ∃ child ∈ layer.children, child.2 (layer.bindings ++ bound)

/-- A tree that stands below the declarations `bound` refers to a variable, and neither those
declarations nor its own declare it there. -/
def Refers (p : Param) : Expr → List Param → Prop := fold (refersStep p)

theorem refers_of_some {p q : Param} {e : Expr} (he : e.asParameter? = some q)
    (bound : List Param) : e.Refers p bound ↔ q = p ∧ isAmong q bound = false := by
  obtain ⟨id, s, ty⟩ := e
  rw [Refers, fold_mk, refersStep, he]

theorem refers_of_none {p : Param} {e : Expr} (he : e.asParameter? = none) (bound : List Param) :
    e.Refers p bound ↔ ∃ a ∈ e.children, a.Refers p (e.bindings ++ bound) := by
  obtain ⟨id, s, ty⟩ := e
  rw [Refers, fold_mk, refersStep, he, Shape.children_map, Shape.bindings_map]
  simp only [List.mem_map, exists_exists_and_eq_and]
  rfl

/-- Fewer declarations leave more references free. -/
theorem Refers.of_subset {p : Param} (e : Expr) : ∀ {bound bound' : List Param},
    (∀ q, isAmong q bound' → isAmong q bound) → e.Refers p bound → e.Refers p bound' := by
  induction e using Expr.induction with
  | step e ih =>
    intro bound bound' hsub h
    cases he : e.asParameter? with
    | some q =>
      rw [refers_of_some he] at h ⊢
      exact ⟨h.1, Bool.eq_false_iff.mpr fun hq => Bool.eq_false_iff.mp h.2 (hsub q hq)⟩
    | none =>
      rw [refers_of_none he] at h ⊢
      obtain ⟨a, ha, hrefers⟩ := h
      refine ⟨a, ha, ih a ha (fun q hq => ?_) hrefers⟩
      rw [isAmong, List.any_append, Bool.or_eq_true] at hq ⊢
      exact hq.imp_right (hsub q)

/-! ## Walks for free variables -/

/-- Some node of the tree is a reference to the variable. -/
def Names (e : Expr) (p : Param) : Prop := ∃ n ∈ e.nodes, n.shape = .parameter p

/-- The free variables met by walking trees one after another. -/
def freeFromAll (bound seen : List Param) (es : List Expr) : List Param :=
  es.foldl (fun seen a => a.freeFrom bound seen) seen

theorem freeFrom_of_some {e : Expr} {p : Param} (he : e.asParameter? = some p)
    (bound seen : List Param) : e.freeFrom bound seen =
      if isAmong p bound || isAmong p seen then seen else seen ++ [p] := by
  obtain ⟨id, s, ty⟩ := e
  obtain rfl : s = .parameter p := shape_of_asParameter? he
  rw [freeFrom_mk]

theorem freeFrom_of_none {e : Expr} (he : e.asParameter? = none) (bound seen : List Param) :
    e.freeFrom bound seen = freeFromAll (e.bindings ++ bound) seen e.children := by
  obtain ⟨id, s, ty⟩ := e
  rw [freeFrom_mk]
  cases s with
  | parameter p => cases he
  | _ => rfl

/-- A variable that a walk counts is referred to, if it was not counted before. -/
theorem refers_of_mem_freeFrom (e : Expr) : ∀ {bound seen : List Param} {p : Param},
    p ∈ e.freeFrom bound seen → p ∈ seen ∨ e.Refers p bound := by
  induction e using Expr.induction with
  | step e ih =>
    intro bound seen p hp
    cases he : e.asParameter? with
    | some q =>
      rw [freeFrom_of_some he] at hp
      rw [refers_of_some he]
      split at hp
      next => exact .inl hp
      next hfree =>
        refine (List.mem_append.mp hp).imp_right fun hp => ?_
        obtain rfl := List.mem_singleton.mp hp
        rw [Bool.or_eq_true, not_or] at hfree
        exact ⟨rfl, Bool.eq_false_iff.mpr hfree.1⟩
    | none =>
      rw [freeFrom_of_none he] at hp
      rw [refers_of_none he]
      refine List.foldlRecOn e.children _ (motive := fun met => p ∈ met → p ∈ seen ∨ _) .inl
        (fun met hmet a ha hp => ?_) hp
      exact (ih a ha hp).elim hmet fun h => .inr ⟨a, ha, h⟩

theorem Refers.names {p : Param} (e : Expr) : ∀ {bound : List Param}, e.Refers p bound →
    e.Names p := by
  induction e using Expr.induction with
  | step e ih =>
    intro bound h
    cases he : e.asParameter? with
    | some q =>
      obtain ⟨rfl, -⟩ := (refers_of_some he bound).mp h
      exact ⟨e, e.mem_nodes_self, shape_of_asParameter? he⟩
    | none =>
      obtain ⟨a, ha, h⟩ := (refers_of_none he bound).mp h
      obtain ⟨n, hn, hshape⟩ := ih a ha h
      exact ⟨n, mem_nodes_of_child ha hn, hshape⟩

/-- A free variable of a tree is one that some node refers to. -/
theorem mem_freeFrom (e : Expr) {bound seen : List Param} {p : Param}
    (hp : p ∈ e.freeFrom bound seen) : p ∈ seen ∨ e.Names p :=
  (refers_of_mem_freeFrom e hp).imp_right (Refers.names e)

/-- Trees one after another count what each of them counts, beside what was counted before. -/
theorem isAmong_freeFromAll {p : Param} {bound : List Param} {as : List Expr}
    (has : ∀ a ∈ as, ∀ seen, isAmong p seen ∨ a.Refers p bound → isAmong p (a.freeFrom bound seen))
    {seen : List Param} (h : isAmong p seen ∨ ∃ a ∈ as, a.Refers p bound) :
    isAmong p (freeFromAll bound seen as) := by
  induction as generalizing seen with
  | nil =>
    rcases h with h | ⟨_, ha, -⟩
    · exact h
    · cases ha
  | cons a as ih =>
    rw [List.forall_mem_cons] at has
    refine ih has.2 ?_
    rcases h with h | ⟨b, hb, hrefers⟩
    · exact .inl (has.1 seen (.inl h))
    · rcases List.mem_cons.mp hb with rfl | hb
      · exact .inl (has.1 seen (.inr hrefers))
      · exact .inr ⟨b, hb, hrefers⟩

/-- Every free reference is counted, and what was counted before stays so. -/
theorem isAmong_freeFrom {p : Param} (e : Expr) : ∀ {bound seen : List Param},
    isAmong p seen ∨ e.Refers p bound → isAmong p (e.freeFrom bound seen) := by
  induction e using Expr.induction with
  | step e ih =>
    intro bound seen h
    cases he : e.asParameter? with
    | some q =>
      rw [refers_of_some he] at h
      rw [freeFrom_of_some he]
      split
      next hcounted =>
        refine h.elim (fun h => h) fun h => ?_
        obtain ⟨rfl, hbound⟩ := h
        rwa [hbound, Bool.false_or] at hcounted
      next =>
        rw [isAmong, List.any_append, Bool.or_eq_true]
        refine h.imp (fun h => h) fun h => ?_
        rw [h.1, List.any_cons, Bool.or_eq_true]
        exact .inl (Param.beq_iff.mpr rfl)
    | none =>
      rw [refers_of_none he] at h
      rw [freeFrom_of_none he]
      exact isAmong_freeFromAll (fun a ha _ => ih a ha) h

/-! ## Substituted trees -/

/-- What takes the place of a free reference. -/
def replacement (pool : List Expr) (e : Expr) (p : Param) : Expr :=
  match pool.find? (·.ty == p.ty) with
  | some tree => if tree.asParameter? == some p then e else tree
  | none => e

/-- One step of `Substituted`. -/
def substitutedStep (pool : List Expr) (e : Expr)
    (layer : Shape Value (Expr × (List Param → Expr → Prop))) (bound : List Param) (r : Expr) :
    Prop :=
  match e.asParameter? with
  | some p => r = if isAmong p bound then e else replacement pool e p
  | none => e.Keeps layer (fun child => child.2 (layer.bindings ++ bound)) r

/-- What becomes of a tree that stands below the declarations `bound`. -/
def Substituted (pool : List Expr) : Expr → List Param → Expr → Prop := fold (substitutedStep pool)

theorem substituted_of_some {pool : List Expr} {e : Expr} {p : Param}
    (he : e.asParameter? = some p) (bound : List Param) (r : Expr) :
    e.Substituted pool bound r ↔ r = if isAmong p bound then e else replacement pool e p := by
  obtain ⟨id, s, ty⟩ := e
  rw [Substituted, fold_mk, substitutedStep, he]

theorem substituted_of_none {pool : List Expr} {e : Expr} (he : e.asParameter? = none)
    (bound : List Param) (r : Expr) :
    e.Substituted pool bound r ↔
      e.Keeps e.shape (fun a => a.Substituted pool (e.bindings ++ bound)) r := by
  obtain ⟨id, s, ty⟩ := e
  rw [Substituted, fold_mk, substitutedStep, he, Shape.bindings_map]
  exact keeps_map

/-- Free references to the variable stay: there is no tree of its type, or the first one is a
reference to it. -/
def Spared (pool : List Expr) (p : Param) : Prop :=
  ∀ tree, pool.find? (·.ty == p.ty) = some tree → tree.asParameter? == some p

theorem spared_singleton {self : Expr} {p : Param}
    (h : self.ty == p.ty → self.asParameter? == some p) : Spared [self] p := by
  intro tree hfound
  have hty : (tree.ty == p.ty) = true := List.find?_some (p := fun t : Expr => t.ty == p.ty) hfound
  obtain rfl : tree = self := List.mem_singleton.mp (List.mem_of_find?_eq_some hfound)
  exact h hty

theorem replacement_of_spared {pool : List Expr} {p : Param} (h : Spared pool p) (e : Expr) :
    replacement pool e p = e := by
  unfold replacement
  split
  next tree hfound => rw [if_pos (h tree hfound)]
  next => rfl

theorem replacement_mem (pool : List Expr) (e : Expr) (p : Param) :
    replacement pool e p = e ∨ replacement pool e p ∈ pool := by
  unfold replacement
  split
  next tree hfound =>
    split
    · exact .inl rfl
    · exact .inr (List.mem_of_find?_eq_some hfound)
  next => exact .inl rfl

namespace Substituted

variable {pool : List Expr}

/-- A node gives way to a tree that is put in, or it is kept. -/
theorem mem_or_keeps {e r : Expr} {bound : List Param} (h : e.Substituted pool bound r) :
    r ∈ pool ∨ e.Keeps e.shape (fun a => a.Substituted pool (e.bindings ++ bound)) r := by
  cases he : e.asParameter? with
  | none => exact .inr ((substituted_of_none he bound r).mp h)
  | some p =>
    rw [substituted_of_some he] at h
    have hself : e.Keeps e.shape (fun a => a.Substituted pool (e.bindings ++ bound)) e := by
      refine .self fun a ha => ?_
      cases (mem_children (shape_of_asParameter? he)).mp ha
    split at h
    · exact .inr (h ▸ hself)
    · rcases replacement_mem pool e p with hr | hr
      · exact .inr (h.trans hr ▸ hself)
      · exact .inl (h ▸ hr)

/-- Every node of a substituted tree lies in one of the trees that were put in, or has the type and
layer of a node that was there. -/
theorem nodes (e : Expr) : ∀ {bound : List Param} {r : Expr}, e.Substituted pool bound r →
    ∀ n ∈ r.nodes, (∃ t ∈ pool, n ∈ t.nodes) ∨ ∃ n₀ ∈ e.nodes, n₀.Resembles n := by
  induction e using Expr.induction with
  | step e ih =>
    intro bound r hr n hn
    rcases hr.mem_or_keeps with hpool | hkeeps
    · exact .inl ⟨r, hpool, hn⟩
    rcases mem_nodes.mp hn with rfl | ⟨b, hb, hn⟩
    · exact .inr ⟨e, e.mem_nodes_self, hkeeps.resembles⟩
    · obtain ⟨a, ha, hab⟩ := exists_left_of_forall₂ hkeeps.shape.children b hb
      refine (ih a ha hab n hn).imp_right fun h => ?_
      obtain ⟨n₀, hn₀, h⟩ := h
      exact ⟨n₀, mem_nodes_of_child ha hn₀, h⟩

/-- A test of types and layers that fails on all trees fails when some are put into another. -/
theorem someNode {test : Expr → Bool} (htest : ∀ n n', n.Resembles n' → test n' = test n)
    {e r : Expr} {bound : List Param} (he : e.someNode test = false)
    (hpool : ∀ t ∈ pool, t.someNode test = false) (h : e.Substituted pool bound r) :
    r.someNode test = false := by
  refine someNode_eq_false_iff.mpr fun n hn => ?_
  rcases h.nodes e n hn with ⟨t, ht, hn⟩ | ⟨n₀, hn₀, hlike⟩
  · exact someNode_eq_false_iff.mp (hpool t ht) n hn
  · exact (htest n₀ n hlike).trans (someNode_eq_false_iff.mp he n₀ hn₀)

/-- A tree none of whose free references are replaced is substituted by itself. -/
theorem self (e : Expr) : ∀ {bound : List Param}, (∀ p, e.Refers p bound → Spared pool p) →
    e.Substituted pool bound e := by
  induction e using Expr.induction with
  | step e ih =>
    intro bound h
    cases he : e.asParameter? with
    | some p =>
      rw [substituted_of_some he]
      split
      next => rfl
      next hfree =>
        have hp : e.Refers p bound := (refers_of_some he bound).mpr ⟨rfl, Bool.eq_false_iff.mpr hfree⟩
        exact (replacement_of_spared (h p hp) e).symm
    | none =>
      rw [substituted_of_none he]
      exact .self fun a ha => ih a ha fun p hp => h p ((refers_of_none he bound).mpr ⟨a, ha, hp⟩)

/-- A tree none of whose free references are replaced is left alone. -/
theorem eq (e : Expr) : ∀ {bound : List Param} {r : Expr}, (∀ p, e.Refers p bound → Spared pool p) →
    e.Substituted pool bound r → r = e := by
  induction e using Expr.induction with
  | step e ih =>
    intro bound r h hr
    cases he : e.asParameter? with
    | some p =>
      rw [substituted_of_some he] at hr
      split at hr
      next => exact hr
      next hfree =>
        have hp : e.Refers p bound := (refers_of_some he bound).mpr ⟨rfl, Bool.eq_false_iff.mpr hfree⟩
        exact hr.trans (replacement_of_spared (h p hp) e)
    | none =>
      rw [substituted_of_none he] at hr
      refine hr.eq fun a ha b hb => (ih a ha (fun p hp => h p ?_) hb).symm
      exact (refers_of_none he bound).mpr ⟨a, ha, hp⟩

end Substituted

end Expr

/-! ## The pass -/

namespace Substitution

/-- From the nodes `S`, the pass goes to larger ones and comes back to the state it started in. -/
def Gives {α : Type} (start : Substitution) (S : Set Expr) (Q : Set Expr → α → Prop)
    (x : Pass α) : Prop :=
  Make.Gives S (fun S' out => out.2 = start ∧ Q S' out.1) (x.run start)

namespace Gives

variable {α β : Type} {start : Substitution} {S : Set Expr} {Q : Set Expr → α → Prop}
  {T : Set Expr → β → Prop}

theorem bind {x : Pass α} {f : α → Pass β} (h : start.Gives S Q x)
    (hf : ∀ S' a, S ⊆ S' → Q S' a → start.Gives S' T (f a)) : start.Gives S T (x >>= f) := by
  show Make.Gives S _ (x.run start >>= fun out => (f out.1).run out.2)
  refine Make.Gives.bind h fun S' out hS hout => ?_
  rw [hout.1]
  exact hf S' out.1 hS hout.2

theorem lift {x : Make α} (h : Make.Gives S Q x) : start.Gives S Q (liftM x) := by
  show Make.Gives S _ (x >>= fun a => Pure.pure (a, start))
  exact h.bind fun _ _ _ ha => Make.Gives.pure ⟨rfl, ha⟩

end Gives

/-- The logic of a pass that starts in a given state. -/
def logic (start : Substitution) : Logic Pass :=
  ⟨start.Gives, fun h => Make.Gives.pure ⟨rfl, h⟩, Gives.bind⟩

variable {pool : List Expr} {bound : List Param} {S : Set Expr}

/-- Rewriting the children of a node, run: its declarations stand around them and are dropped after
them. -/
theorem rebuild_run (e : Expr) (g : Expr → Pass Expr) (s : Substitution) :
    (rewriter.rebuild e (e.shape.map fun a => (a, g a))).run s = (do
      let out ← (e.shape.mapM g).run { s with bound := e.bindings ++ s.bound }
      let r ← e.withLayer out.1
      pure (r, { out.2 with bound := out.2.bound.drop e.bindings.length })) := by
  rw [Rewriter.rebuild, Shape.bindings_map, Shape.mapM_map]
  split
  next hempty =>
    have hnone : e.bindings = [] := List.isEmpty_iff.mp hempty
    rw [hnone]
    rfl
  next => rfl

/-- A node whose children are rewritten is kept. -/
theorem Gives.rebuild {e : Expr} (he : e ∈ S) {R : Expr → Expr → Prop} {g : Expr → Pass Expr}
    (h : ∀ a ∈ e.children, ∀ S', S ⊆ S' →
      (Substitution.mk pool false (e.bindings ++ bound)).Gives S' (fun S'' r => r ∈ S'' ∧ R a r) (g a)) :
    (Substitution.mk pool false bound).Gives S (fun S' r => r ∈ S' ∧ e.Keeps e.shape R r)
      (rewriter.rebuild e (e.shape.map fun a => (a, g a))) := by
  have hlayer : (Substitution.mk pool false (e.bindings ++ bound)).Gives S
      (fun S' => Shape.Like Eq (fun _ a r => r ∈ S' ∧ R a r) e.shape) (e.shape.mapM g) :=
    Logic.mapM (L := logic _) (R := fun S a r => r ∈ S ∧ R a r) (fun _ _ _ _ hS h => ⟨hS h.1, h.2⟩) h
  rw [Gives, rebuild_run]
  refine Make.Gives.bind hlayer fun S₁ out h₁ hout => ?_
  refine (Make.Gives.withLayer (h₁ he) hout.2).bind fun S₂ r _ hr => .pure ⟨?_, hr⟩
  rw [hout.1, List.drop_left]

section References

variable {e : Expr} {p : Param} {s : Substitution}

/-- A reference that is declared stays. -/
theorem replaceReference_run_of_bound (hbound : Expr.isAmong p s.bound = true) :
    (replaceReference e p).run s = pure (e, s) := by
  rw [replaceReference, StateT.run_bind, StateT.run_get, pure_bind]
  change StateT.run (ite (Expr.isAmong p s.bound = true) _ _) s = _
  rw [if_pos hbound]
  rfl

/-- Any other reference gives way to the first tree of its type, unless that is a reference to the same
variable. -/
theorem replaceReference_run_of_found (hbound : Expr.isAmong p s.bound = false) {tree : Expr}
    (hfound : s.pool.find? (·.ty == p.ty) = some tree) :
    (replaceReference e p).run s = pure (if tree.asParameter? == some p then e else tree, s) := by
  rw [replaceReference, StateT.run_bind, StateT.run_get, pure_bind]
  change StateT.run (ite (Expr.isAmong p s.bound = true) _ _) s = _
  rw [hbound, if_neg Bool.false_ne_true, hfound]
  dsimp only
  split <;> rfl

/-- Without such a tree the reference stays, and joins the pool of a substitution that collects. -/
theorem replaceReference_run_of_missing (hbound : Expr.isAmong p s.bound = false)
    (hnone : s.pool.find? (·.ty == p.ty) = none) :
    (replaceReference e p).run s =
      pure (e, if s.collecting then { s with pool := s.pool ++ [e] } else s) := by
  rw [replaceReference, StateT.run_bind, StateT.run_get, pure_bind]
  change StateT.run (ite (Expr.isAmong p s.bound = true) _ _) s = _
  rw [hbound, if_neg Bool.false_ne_true, hnone]
  dsimp only
  split <;> rfl

end References

/-- A substitution that does not collect puts in what takes the place of a reference. -/
theorem replaceReference_run (e : Expr) (p : Param) :
    (replaceReference e p).run ⟨pool, false, bound⟩ =
      pure (if Expr.isAmong p bound then e else Expr.replacement pool e p, ⟨pool, false, bound⟩) := by
  by_cases hbound : Expr.isAmong p bound = true
  · rw [if_pos hbound]
    exact replaceReference_run_of_bound hbound
  · rw [if_neg hbound, Expr.replacement]
    rw [Bool.not_eq_true] at hbound
    cases hfound : pool.find? (·.ty == p.ty) with
    | none => exact replaceReference_run_of_missing hbound hfound
    | some tree => exact replaceReference_run_of_found hbound hfound

theorem rewrite_of_some {e : Expr} {p : Param} (he : e.asParameter? = some p) :
    rewriter.rewrite e = replaceReference e p := by
  obtain ⟨id, s, ty⟩ := e
  cases s with
  | parameter q =>
    obtain rfl : q = p := Option.some.inj he
    rfl
  | _ => cases he

theorem rewrite_of_none {e : Expr} (he : e.asParameter? = none) :
    rewriter.rewrite e = rewriter.rebuild e (e.shape.map fun a => (a, rewriter.rewrite a)) := by
  obtain ⟨id, s, ty⟩ := e
  rw [Rewriter.rewrite, Expr.fold_mk]
  cases s with
  | parameter q => cases he
  | _ => rfl

/-- Rewriting a tree substitutes it. -/
theorem Gives.rewrite (e : Expr) : ∀ {bound : List Param} {S : Set Expr}, e ∈ S →
    (∀ t ∈ pool, t ∈ S) →
    (Substitution.mk pool false bound).Gives S (fun S' r => r ∈ S' ∧ e.Substituted pool bound r)
      (rewriter.rewrite e) := by
  induction e using Expr.induction with
  | step e ih =>
    intro bound S he hpool
    cases hparameter : e.asParameter? with
    | some p =>
      simp only [rewrite_of_some hparameter, Expr.substituted_of_some hparameter]
      rw [Gives, replaceReference_run]
      refine Make.Gives.pure ⟨rfl, ?_, rfl⟩
      split
      · exact he
      · show Expr.replacement pool e p ∈ S
        rcases Expr.replacement_mem pool e p with h | h
        · rw [h]
          exact he
        · exact hpool _ h
    | none =>
      simp only [rewrite_of_none hparameter, Expr.substituted_of_none hparameter]
      intro next hS
      refine Gives.rebuild he (fun a ha S' hS' => ?_) next hS
      exact ih a ha (hS' (hS.children e he a ha)) fun t ht => hS' (hpool t ht)

/-- A substitution that does not collect substitutes a tree. -/
theorem Gives.replace {e : Expr} (he : e ∈ S) (hpool : ∀ t ∈ pool, t ∈ S) :
    (Substitution.mk pool false []).Gives S (fun S' r => r ∈ S' ∧ e.Substituted pool [] r)
      (Substitution.replace e) := by
  show Make.Gives S _ (StateT.run (ite (pool.isEmpty && !false) _ _) _)
  split
  next hempty =>
    have hnil : pool = [] := List.isEmpty_iff.mp (Bool.and_eq_true_iff.mp hempty).1
    refine Make.Gives.pure ⟨rfl, he, .self e fun p _ tree hfound => ?_⟩
    rw [hnil] at hfound
    cases hfound
  next => exact Gives.rewrite e he hpool

end Substitution

/-- Replacing parameters substitutes a tree. -/
theorem Expr.replaceParameters_gives {e : Expr} {pool : List Expr} {S : Set Expr} (he : e ∈ S)
    (hpool : ∀ t ∈ pool, t ∈ S) :
    Make.Gives S (fun S' r => r ∈ S' ∧ e.Substituted pool [] r) (e.replaceParameters pool) :=
  Make.Gives.bind (Substitution.Gives.replace he hpool) fun _ _ _ hout => .pure hout.2

end CodeTree
