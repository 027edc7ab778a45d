import CodeTree.Proofs.FoldedOnce

/-!
# Where the free variables of a normalized tree come from

Normalization takes lambdas away, drops receivers, and puts trees that it got from host code under the
declarations of its own tree. `Expr.DrawsOn` says of the result that each of its free references is one
of the tree it was made of, below the same declarations, or is free in a tree that was put in. There is
one rule for each way in which a node comes about; a node that declares something keeps its
declarations, so that nothing that was bound is set free.

Which trees are put in is read off the record of what was asked. `Recounts` says of a recorded action
that the record is a true one (`Follows`), that it asks nothing but what normalization may ask about the
nodes (`Inquiry.Concerns`), and what its result is, given the trees that were put in.

* `Recounts.analyse` — normalization, by induction on the tree;
* `free_after_normalization` — the payoff.
-/

namespace CodeTree

variable {σ : Type}

/-! ## References of a result -/

namespace Expr

variable {T T' : Set Expr} {a e r t u : Expr} {p : Param} {bound : List Param}

theorem refers_of_mem_freeParameters (h : p ∈ e.freeParameters) : e.Refers p [] :=
  (refers_of_mem_freeFrom e h).resolve_left List.not_mem_nil

/-- A node that has children refers to what they refer to. -/
theorem Refers.of_child (ha : a ∈ e.children) (h : a.Refers p (e.bindings ++ bound)) :
    e.Refers p bound := by
  cases he : e.asParameter? with
  | some q =>
    rw [mem_children (shape_of_asParameter? he)] at ha
    cases ha
  | none => exact (refers_of_none he bound).mpr ⟨a, ha, h⟩

/-- What is free in the result is free in the tree that it was made of, at a place below the same
declarations, or in one of the trees `T`. -/
def DrawsOn (T : Set Expr) (e r : Expr) : Prop :=
  ∀ p bound, r.Refers p bound → e.Refers p bound ∨ ∃ t ∈ T, t.Refers p []

namespace DrawsOn

theorem refl (T : Set Expr) (e : Expr) : DrawsOn T e e := fun _ _ => .inl

theorem mono (h : DrawsOn T e r) (hT : T ⊆ T') : DrawsOn T' e r := fun p bound hr =>
  (h p bound hr).imp_right fun ⟨t, ht, hp⟩ => ⟨t, hT ht, hp⟩

theorem trans (h : DrawsOn T e u) (h' : DrawsOn T u r) : DrawsOn T e r := fun p bound hr =>
  (h' p bound hr).elim (h p bound) .inr

/-- A tree that is put in brings its own variables, fewer where some are declared around it. -/
theorem of_mem (ht : t ∈ T) : DrawsOn T e t := fun _ _ hr =>
  .inr ⟨t, ht, hr.of_subset t fun _ hq => by cases hq⟩

/-- What is made of a child of a node that declares nothing. -/
theorem of_child (ha : a ∈ e.children) (hbindings : e.bindings = []) (h : DrawsOn T a r) :
    DrawsOn T e r := by
  intro p bound hr
  refine (h p bound hr).imp_left fun ha' => .of_child ha ?_
  rwa [hbindings, List.nil_append]

/-- What has no children and is no reference. -/
theorem of_leaf (hr : r.asParameter? = none) (hchildren : r.children = []) : DrawsOn T e r := by
  intro p bound hp
  obtain ⟨b, hb, -⟩ := (refers_of_none hr bound).mp hp
  rw [hchildren] at hb
  cases hb

/-- A node with the declarations of another one, whose children are made of its children. -/
theorem of_children (hr : r.asParameter? = none) (hbindings : r.bindings = e.bindings)
    (h : ∀ b ∈ r.children, ∃ a ∈ e.children, DrawsOn T a b) : DrawsOn T e r := by
  intro p bound hp
  obtain ⟨b, hb, hp⟩ := (refers_of_none hr bound).mp hp
  obtain ⟨a, ha, hab⟩ := h b hb
  rw [hbindings] at hp
  exact (hab p _ hp).imp_left (.of_child ha)

/-- A node around what another one is made to. -/
theorem of_around (hr : r.shape = .convert .cast u) : DrawsOn T u r := by
  intro p bound hp
  have hnone : r.asParameter? = none := asParameter?_eq_none hr fun q h => by cases h
  obtain ⟨b, hb, hp⟩ := (refers_of_none hnone bound).mp hp
  obtain rfl := List.mem_singleton.mp ((mem_children hr).mp hb)
  rw [bindings, hr] at hp
  exact .inl hp

/-- A node that has the shape of another one but for what was made of the children. -/
theorem of_like (h : Shape.Like Eq (fun _ => DrawsOn T) e.shape r.shape) : DrawsOn T e r := by
  cases hr : r.asParameter? with
  | some q =>
    -- a reference is like a reference to the same variable only
    have he : e.asParameter? = some q := by
      rw [shape_of_asParameter? hr] at h
      rw [asParameter?]
      generalize e.shape = s at h
      cases h
      rfl
    intro p bound hp
    exact .inl ((refers_of_some he bound).mpr ((refers_of_some hr bound).mp hp))
  | none =>
    refine of_children hr h.bindings_eq.symm fun b hb => ?_
    exact exists_left_of_forall₂ h.children b hb

end DrawsOn

/-- The object and the name, where the node reads a field of a constant object. -/
def fieldRead? (n : Expr) : Option (Value × String) :=
  match n.shape with
  | .member (some target) read =>
    match target.asConstant?, read.kind with
    | some (.object id cls content), .field => some (.object id cls content, read.name)
    | _, _ => none
  | _ => none

end Expr

/-! ## True records -/

/-- Between the machines, nothing has been done but nodes made. -/
def Machine.MakesTo (m m' : Machine σ) : Prop :=
  ∃ next, m.next ≤ next ∧ m' = { m with next := next }

theorem Machine.MakesTo.refl (m : Machine σ) : m.MakesTo m := ⟨m.next, Nat.le_refl _, rfl⟩

theorem Machine.MakesTo.trans {m m₁ m₂ : Machine σ} (h : m.MakesTo m₁) (h' : m₁.MakesTo m₂) :
    m.MakesTo m₂ := by
  obtain ⟨next, hnext, rfl⟩ := h
  obtain ⟨next', hnext', rfl⟩ := h'
  exact ⟨next', Nat.le_trans hnext hnext', rfl⟩

namespace Inquiry

/-- The machine on which the inquiry is made. -/
def before : Inquiry σ → Machine σ
  | .fold _ k _ _ => k
  | .read _ _ k _ _ => k

/-- The machine that it leaves. -/
def after : Inquiry σ → Machine σ
  | .fold _ _ _ k => k
  | .read _ _ _ _ k => k

/-- Host code gives this answer there. -/
def Happens (H : Host σ) (fuel : Nat) : Inquiry σ → Prop
  | .fold call before answer after => evaluateAlone H fuel call before = some (answer, after)
  | .read self name before answer after =>
    Step.play (apply H fuel) (H.readMember self name) before = some (answer, after)

/-- What normalization may ask about the nodes `N`: the values of closed calls, if it folds them, and
the fields of constant objects. -/
def Concerns (options : Normalization) (N : Set Expr) : Inquiry σ → Prop
  | .fold call _ _ _ => options.foldClosedCalls = true ∧ call ∈ N ∧ call.isClosed = true ∧
    ∃ receiver method args, call.shape = .call receiver method args
  | .read self name _ _ _ => ∃ n ∈ N, n.fieldRead? = some (self, name)

end Inquiry

/-- The inquiries happen one after another, with nothing but nodes made before, between and after
them. -/
def Follows (H : Host σ) (fuel : Nat) : Machine σ → List (Inquiry σ) → Machine σ → Prop
  | m, [], m' => m.MakesTo m'
  | m, q :: record, m' => m.MakesTo q.before ∧ q.Happens H fuel ∧ Follows H fuel q.after record m'

theorem Machine.MakesTo.follows {H : Host σ} {fuel : Nat} {m m₁ m' : Machine σ}
    {record : List (Inquiry σ)} (h : m.MakesTo m₁) (h' : Follows H fuel m₁ record m') :
    Follows H fuel m record m' := by
  cases record with
  | nil => exact h.trans h'
  | cons q record => exact ⟨h.trans h'.1, h'.2⟩

theorem Follows.append {H : Host σ} {fuel : Nat} {m₁ m₂ : Machine σ} {second : List (Inquiry σ)} :
    ∀ {first : List (Inquiry σ)} {m : Machine σ}, Follows H fuel m first m₁ →
      Follows H fuel m₁ second m₂ → Follows H fuel m (first ++ second) m₂
  | [], _, h, h' => h.follows h'
  | _ :: _, _, h, h' => ⟨h.1, h.2.1, h.2.2.append h'⟩

theorem Follows.happens {H : Host σ} {fuel : Nat} {m' : Machine σ} : ∀ {record : List (Inquiry σ)}
    {m : Machine σ}, Follows H fuel m record m' → ∀ q ∈ record, q.Happens H fuel
  | [], _, _, _, hq => absurd hq List.not_mem_nil
  | _ :: _, _, h, q, hq => (List.mem_cons.mp hq).elim (fun heq => heq ▸ h.2.1) (h.2.2.happens q)

/-! ## Recorded actions -/

section Recounts

variable (H : Host σ) (fuel : Nat) (options : Normalization) (N : Set Expr)

/-- The recorded action, begun when the trees `S` were put in, has a true record about the nodes `N`,
and a result that satisfies `Q`, given the trees that were put in then and since. -/
def Recounts {α : Type} (S : Set Expr) (Q : Set Expr → α → Prop) (x : Chronicle σ α) : Prop :=
  ∀ m a record m', x.run m = some ((a, record), m') →
    Follows H fuel m record m' ∧ (∀ q ∈ record, q.Concerns options N) ∧
    ∃ S', S ⊆ S' ∧ (∀ t ∈ S', t ∈ S ∨ ∃ q ∈ record, q.spliced? = some t) ∧ Q S' a

end Recounts

namespace Recounts

variable {H : Host σ} {fuel : Nat} {options : Normalization} {N : Set Expr} {α β : Type}
  {S : Set Expr} {Q Q' : Set Expr → α → Prop} {T : Set Expr → β → Prop}

theorem pure {a : α} (h : Q S a) : Recounts H fuel options N S Q (Pure.pure a) := by
  intro m b record m' hrun
  cases hrun
  exact ⟨.refl m, fun q hq => absurd hq List.not_mem_nil, S, subset_rfl, fun t => .inl, h⟩

theorem bind {x : Chronicle σ α} {f : α → Chronicle σ β} (h : Recounts H fuel options N S Q x)
    (hf : ∀ S' a, S ⊆ S' → Q S' a → Recounts H fuel options N S' T (f a)) :
    Recounts H fuel options N S T (x >>= f) := by
  intro m b record m' hrun
  obtain ⟨⟨⟨a, first⟩, m₁⟩, hx, hrest⟩ := Option.bind_eq_some_iff.mp hrun
  obtain ⟨⟨⟨b', second⟩, m₂⟩, hfa, heq⟩ := Option.bind_eq_some_iff.mp hrest
  cases heq
  obtain ⟨hfollows, hconcerns, S₁, h₁, hput, ha⟩ := h m a first m₁ hx
  obtain ⟨hfollows', hconcerns', S₂, h₂, hput', hb⟩ := hf S₁ a h₁ ha m₁ b second m' hfa
  refine ⟨hfollows.append hfollows', List.forall_mem_append.mpr ⟨hconcerns, hconcerns'⟩, S₂,
    h₁.trans h₂, fun t ht => ?_, hb⟩
  rcases hput' t ht with ht | ⟨q, hq, ht⟩
  · refine (hput t ht).imp_right fun ⟨q, hq, ht⟩ => ⟨q, List.mem_append_left _ hq, ht⟩
  · exact .inr ⟨q, List.mem_append_right _ hq, ht⟩

theorem imp {x : Chronicle σ α} (h : Recounts H fuel options N S Q x)
    (hQ : ∀ S' a, S ⊆ S' → Q S' a → Q' S' a) : Recounts H fuel options N S Q' x := by
  intro m a record m' hrun
  obtain ⟨hfollows, hconcerns, S', hS, hput, ha⟩ := h m a record m' hrun
  exact ⟨hfollows, hconcerns, S', hS, hput, hQ S' a hS ha⟩

variable (H fuel options N) in
/-- The trees that are put in grow along an action. -/
def logic : Logic (Chronicle σ) := ⟨Recounts H fuel options N, pure, bind⟩

/-! ### Making nodes -/

theorem make (s : Shape Value Expr) (ty : Ty) : Recounts H fuel options N S
    (fun _ r => r.shape = s ∧ r.ty = ty) (.quiet (Step.make (Expr.make s ty))) := by
  intro m r record m' hrun
  cases hrun
  exact ⟨⟨m.next + 1, Nat.le_succ _, rfl⟩, fun q hq => absurd hq List.not_mem_nil, S, subset_rfl,
    fun t => .inl, rfl, rfl⟩

/-- A node without children. -/
theorem makeLeaf (e : Expr) {s : Shape Value Expr} (hs : s.children = [])
    (hnone : ∀ p, s ≠ .parameter p) (ty : Ty) : Recounts H fuel options N S
    (fun S' r => e.DrawsOn S' r) (.quiet (Step.make (Expr.make s ty))) := by
  refine (make s ty).imp fun S' r _ hr => .of_leaf (Expr.asParameter?_eq_none hr.1 hnone) ?_
  rw [Expr.children, hr.1, hs]

/-- A node with the declarations of another one, whose children are made of its children. -/
theorem makeAbove {e : Expr} {s : Shape Value Expr} (hnone : ∀ p, s ≠ .parameter p)
    (hbindings : s.bindings = e.bindings)
    (h : ∀ b ∈ s.children, ∃ a ∈ e.children, a.DrawsOn S b) (ty : Ty) :
    Recounts H fuel options N S (fun S' r => e.DrawsOn S' r)
      (.quiet (Step.make (Expr.make s ty))) := by
  refine (make s ty).imp fun S' r hS hr =>
    .of_children (Expr.asParameter?_eq_none hr.1 hnone) ?_ fun b hb => ?_
  · rw [Expr.bindings, hr.1, hbindings]
  · obtain ⟨a, ha, hab⟩ := h b ((Expr.mem_children hr.1).mp hb)
    exact ⟨a, ha, hab.mono hS⟩

theorem upcast (u : Expr) (ty : Ty) : Recounts H fuel options N S (fun S' r => u.DrawsOn S' r)
    (.quiet (Step.make (u.upcast ty))) := by
  unfold Expr.upcast
  split
  · show Recounts H fuel options N S _ (.quiet (Pure.pure u))
    rw [Chronicle.quiet_pure]
    exact pure (.refl S u)
  · exact (make (.convert .cast u) ty).imp fun S' r _ hr => .of_around hr.1

/-- A node with new children: itself, or a new one. -/
theorem withLayer {e : Expr} {layer : Shape Value Expr}
    (h : Shape.Like Eq (fun _ => Expr.DrawsOn S) e.shape layer) :
    Recounts H fuel options N S (fun S' r => e.DrawsOn S' r)
      (.quiet (Step.make (e.withLayer layer))) := by
  unfold Expr.withLayer
  split
  · show Recounts H fuel options N S _ (.quiet (Pure.pure e))
    rw [Chronicle.quiet_pure]
    exact pure (.refl S e)
  · refine (make layer e.ty).imp fun S' r hS hr => .of_like ?_
    rw [hr.1]
    exact h.imp (fun _ _ h => h) fun _ _ _ h => h.mono hS

/-! ### Inquiries -/

/-- Something is asked that normalization may ask about the nodes. What the answer puts in counts from
then on. -/
theorem asked {record : Machine σ → α → Machine σ → Inquiry σ} {x : Step σ α}
    (hbefore : ∀ k a k', (record k a k').before = k) (hafter : ∀ k a k', (record k a k').after = k')
    (hhappens : ∀ k a k', x k = some (a, k') → (record k a k').Happens H fuel)
    (hconcerns : ∀ k a k', (record k a k').Concerns options N) :
    Recounts H fuel options N S
      (fun S' a => ∃ k k', ∀ t, (record k a k').spliced? = some t → t ∈ S')
      (Chronicle.asked record x) := by
  intro m a l m' hrun
  obtain ⟨hx, rfl⟩ := Chronicle.asked_run hrun
  refine ⟨⟨?_, hhappens m a m' hx, ?_⟩, List.forall_mem_singleton.mpr (hconcerns m a m'),
    S ∪ {t | (record m a m').spliced? = some t}, Set.subset_union_left, ?_, m, m', fun t => .inr⟩
  · rw [hbefore]
    exact .refl m
  · rw [hafter]
    exact .refl m'
  · exact fun t ht => ht.imp_right fun ht => ⟨_, List.mem_cons_self, ht⟩

theorem foldCall {e receiver method args} (hfold : options.foldClosedCalls = true) (he : e ∈ N)
    (hshape : e.shape = .call receiver method args) (hclosed : e.isClosed = true) :
    Recounts H fuel options N S (fun S' o => ∀ r ∈ o, e.DrawsOn S' r)
      (Recorded.foldCall H fuel e) := by
  have hleaf : ∀ (S : Set Expr) (s : Shape Value Expr) ty, s.children = [] →
      (∀ p, s ≠ .parameter p) → Recounts H fuel options N S (fun S' o => ∀ r ∈ o, e.DrawsOn S' r) (do
        let r ← .quiet (Step.make (Expr.make s ty))
        Pure.pure (some r)) := by
    intro S s ty hs hnone
    refine bind (makeLeaf e hs hnone ty) fun S' r _ hr => pure ?_
    rintro _ ⟨⟩
    exact hr
  refine bind (asked (fun _ _ _ => rfl) (fun _ _ _ => rfl) (fun _ _ _ hx => hx)
    fun _ _ _ => ⟨hfold, he, hclosed, receiver, method, args, hshape⟩) fun S' answer _ hput => ?_
  obtain ⟨k, k', hput⟩ := hput
  cases answer with
  | error _ => exact pure fun r hr => by cases hr
  | ok v =>
    cases v with
    | node tree =>
      refine pure ?_
      rintro _ ⟨⟩
      exact .of_mem (hput tree rfl)
    | void => exact hleaf S' .empty .void rfl fun p h => by cases h
    | _ => exact hleaf S' (.constant _) e.ty rfl fun p h => by cases h

/-- A conversion gives what its operand gives, with a conversion around it or without, or is kept. -/
theorem unwrapConversion {e n operand : Expr} {x y : Chronicle σ Expr}
    (hx : Recounts H fuel options N S (fun S' r => e.DrawsOn S' r) x)
    (hy : Recounts H fuel options N S (fun S' r => e.DrawsOn S' r) y) :
    Recounts H fuel options N S (fun S' r => e.DrawsOn S' r)
      (Recorded.unwrapConversion n operand x y) := by
  unfold Recorded.unwrapConversion
  split
  · refine bind hx fun S' u _ hu => ?_
    split
    · exact pure hu
    · exact (upcast u n.ty).imp fun S'' r hS hr => (hu.mono hS).trans hr
  · split
    · exact hx
    · exact hy

theorem capturedValue (e n : Expr) {v : Value} (hput : ∀ t, v.asNode? = some t → t ∈ S) :
    Recounts H fuel options N S (fun S' r => e.DrawsOn S' r) (.quiet (CodeTree.capturedValue n v)) := by
  have hplain : Recounts H fuel options N S (fun S' r => e.DrawsOn S' r) (.quiet (
    if v.runtimeTy?.any (· == n.ty) then Step.make (Expr.typedConstant v n.ty)
    else do
      let operand ← Step.make (Expr.constant v)
      let converted ← Step.make (operand.convert n.ty)
      CodeTree.unwrapConversion converted operand (Pure.pure operand) (Pure.pure converted))) := by
    split
    · exact makeLeaf e rfl (fun p h => by cases h) n.ty
    · simp only [Chronicle.quiet_bind, Recorded.quiet_unwrapConversion, Chronicle.quiet_pure]
      refine bind (makeLeaf e rfl (fun p h => by cases h) _) fun S₁ operand _ ho => ?_
      refine bind (make (.convert .cast operand) n.ty) fun S₂ converted h₂ hc => ?_
      have ho' : e.DrawsOn S₂ operand := ho.mono h₂
      exact unwrapConversion (pure ho') (pure (ho'.trans (.of_around hc.1)))
  cases v with
  | node tree =>
    show Recounts H fuel options N S _ (.quiet (Pure.pure tree))
    rw [Chronicle.quiet_pure]
    exact pure (.of_mem (hput tree rfl))
  | _ => exact hplain

theorem resolveRead {e target : Expr} {member : Member} (he : e ∈ N)
    (hshape : e.shape = .member (some target) member) {x : Chronicle σ Expr}
    (hx : ∀ S', S ⊆ S' → Recounts H fuel options N S' (fun S'' r => e.DrawsOn S'' r) x) :
    Recounts H fuel options N S (fun S' r => e.DrawsOn S' r)
      (Recorded.resolveRead H fuel e target member x) := by
  unfold Recorded.resolveRead
  split
  next id cls content hconstant hkind =>
    have hread : e.fieldRead? = some (.object id cls content, member.name) := by
      rw [Expr.fieldRead?, hshape]
      simp only [hconstant, hkind]
    refine bind (asked (fun _ _ _ => rfl) (fun _ _ _ => rfl) (fun _ _ _ hx => hx)
      fun _ _ _ => ⟨e, he, hread⟩) fun S' reply hS hput => ?_
    obtain ⟨k, k', hput⟩ := hput
    cases reply with
    | ok v => exact capturedValue e e hput
    | error _ => exact hx S' hS
  next => exact hx S subset_rfl

/-! ### Normalization -/

section Steps

variable {e : Expr} {g : Expr → Recorded σ}

theorem mapM {ν : Type} {s : Shape ν Expr} {f : Expr → Chronicle σ Expr}
    (h : ∀ a ∈ s.children, ∀ S, Recounts H fuel options N S (fun S' r => a.DrawsOn S' r) (f a)) :
    Recounts H fuel options N S (fun S' => Shape.Like Eq (fun _ => Expr.DrawsOn S') s) (s.mapM f) :=
  Logic.mapM (L := logic H fuel options N) (fun _ _ _ _ hS h => h.mono hS) fun a ha S' _ => h a ha S'

theorem mapM_list {as : List Expr} {f : Expr → Chronicle σ Expr}
    (h : ∀ a ∈ as, ∀ S, Recounts H fuel options N S (fun S' r => a.DrawsOn S' r) (f a)) :
    Recounts H fuel options N S (fun S' => List.Forall₂ (Expr.DrawsOn S') as) (as.mapM f) :=
  Logic.mapM_list (L := logic H fuel options N) (fun _ _ _ _ hS h => h.mono hS)
    fun a ha S' _ => h a ha S'

theorem mapM_option {o : Option Expr} {f : Expr → Chronicle σ Expr}
    (h : ∀ a ∈ o.toList, ∀ S, Recounts H fuel options N S (fun S' r => a.DrawsOn S' r) (f a)) :
    Recounts H fuel options N S (fun S' => Option.Rel (Expr.DrawsOn S') o) (o.mapM f) :=
  Logic.mapM_option (L := logic H fuel options N) fun a ha S' _ => h a ha S'

/-- A node with normalized children. -/
theorem normalChildren
    (hg : ∀ a ∈ e.children, ∀ S, Recounts H fuel options N S (fun S' r => a.DrawsOn S' r) (g a).node) :
    Recounts H fuel options N S (fun S' r => e.DrawsOn S' r)
      (Recorded.normalChildren e (e.shape.map fun a => (a, g a))) := by
  rw [Recorded.normalChildren, Shape.mapM_map]
  exact bind (mapM hg) fun S' layer _ hlayer => withLayer hlayer

/-- One step of normalization. -/
theorem normalizeStep (he : e ∈ N)
    (hg : ∀ a ∈ e.children, ∀ S, Recounts H fuel options N S (fun S' r => a.DrawsOn S' r) (g a).node)
    (hd : ∀ a ∈ e.children, ∀ S,
      Recounts H fuel options N S (fun S' r => a.DrawsOn S' r) (g a).described) :
    Recounts H fuel options N S (fun S' r => e.DrawsOn S' r)
      (Recorded.normalizeStep H fuel options e (e.shape.map fun a => (a, g a))) := by
  have hkept := fun S => normalChildren (S := S) hg
  obtain ⟨id, s, ty⟩ := e
  cases s with
  | call receiver method args =>
    rw [Expr.shape, Shape.map, Recorded.normalizeStep]
    split
    next hfold =>
      obtain ⟨hfold, hclosed⟩ := Bool.and_eq_true_iff.mp hfold
      refine bind (foldCall hfold he rfl hclosed) fun S' o _ ho => ?_
      cases o with
      | none => exact hkept S'
      | some r => exact pure (ho r rfl)
    next => exact hkept S
  | member target read =>
    cases target with
    | none => exact hkept S
    | some target => exact resolveRead he rfl fun S' _ => hkept S'
  | convert kind operand =>
    refine unwrapConversion ((hg operand List.mem_cons_self S).imp fun S' r _ hr => ?_) (hkept S)
    exact .of_child List.mem_cons_self rfl hr
  | lambda params body =>
    cases params with
    | nil =>
      rw [Expr.shape, Shape.map, Recorded.normalizeStep]
      split
      · refine (hd body List.mem_cons_self S).imp fun S' r _ hr => ?_
        exact .of_child List.mem_cons_self rfl hr
      · exact hkept S
    | cons p ps => exact hkept S
  | _ => exact hkept S

/-- A call whose operands are made of the children of a node that declares nothing. -/
theorem settledCall (hbindings : e.bindings = []) (method : Method) {receiver : Option Expr}
    {args : List Expr} (hreceiver : ∀ b ∈ receiver.toList, ∃ a ∈ e.children, a.DrawsOn S b)
    (hargs : ∀ b ∈ args, ∃ a ∈ e.children, a.DrawsOn S b) :
    Recounts H fuel options N S (fun S' r => e.DrawsOn S' r)
      (.quiet (Step.make (Expr.settledCall receiver method args))) := by
  have hcall : ∀ (S' : Set Expr) (receiver' : Option Expr), S ⊆ S' →
      (∀ b ∈ receiver'.toList, ∃ a ∈ e.children, a.DrawsOn S' b) →
      Recounts H fuel options N S' (fun S'' r => e.DrawsOn S'' r)
        (.quiet (Step.make (Expr.call receiver' method args))) := by
    intro S' receiver' hS hreceiver'
    refine makeAbove (s := .call receiver' method args) (fun p h => by cases h) hbindings.symm
      (fun b hb => ?_) method.ret
    rcases List.mem_append.mp hb with hb | hb
    · exact hreceiver' b hb
    · obtain ⟨a, ha, hab⟩ := hargs b hb
      exact ⟨a, ha, hab.mono hS⟩
  unfold Expr.settledCall
  split
  · exact hcall S none subset_rfl fun b hb => by cases hb
  · cases receiver with
    | none => exact hcall S none subset_rfl fun b hb => by cases hb
    | some r =>
      obtain ⟨a, ha, har⟩ := hreceiver r List.mem_cons_self
      show Recounts H fuel options N S _
        (.quiet (Step.make (r.upcast method.declaring) >>= fun r =>
          Step.make (Expr.call (some r) method args)))
      rw [Chronicle.quiet_bind]
      refine bind (upcast r method.declaring) fun S' r' hS hr' => hcall S' (some r') hS fun b hb => ?_
      obtain rfl := List.mem_singleton.mp hb
      exact ⟨a, ha, (har.mono hS).trans hr'⟩

/-- One step of describing. -/
theorem describeStep (he : e ∈ N)
    (hg : ∀ a ∈ e.children, ∀ S, Recounts H fuel options N S (fun S' r => a.DrawsOn S' r) (g a).node)
    (hd : ∀ a ∈ e.children, ∀ S,
      Recounts H fuel options N S (fun S' r => a.DrawsOn S' r) (g a).described) :
    Recounts H fuel options N S (fun S' r => e.DrawsOn S' r)
      (Recorded.describeStep H fuel options e (e.shape.map fun a => (a, g a))) := by
  have hother := normalizeStep (S := S) he hg hd
  obtain ⟨id, s, ty⟩ := e
  cases s with
  | construct ctor args =>
    rw [Expr.shape, Shape.map, Recorded.describeStep, List.mapM_map]
    refine bind (mapM_list hg) fun S' args' _ hargs => ?_
    exact makeAbove (s := .construct ctor args') (fun p h => by cases h) rfl
      (exists_left_of_forall₂ hargs) ctor.declaring
  | call receiver method args =>
    have hchildren : (Expr.mk id (.call receiver method args) ty).children =
        receiver.toList ++ args := rfl
    rw [hchildren, List.forall_mem_append] at hg
    rw [Expr.shape, Shape.map, Recorded.describeStep, List.mapM_map, optionMapM_map]
    refine bind (mapM_option hg.1) fun S₁ receiver' _ hreceiver => ?_
    refine bind (mapM_list hg.2) fun S₂ args' h₂ hargs => settledCall rfl method ?_ ?_
    · intro b hb
      obtain ⟨a, ha, hab⟩ := exists_left_of_forall₂ (forall₂_toList hreceiver) b hb
      exact ⟨a, List.mem_append_left _ ha, hab.mono h₂⟩
    · intro b hb
      obtain ⟨a, ha, hab⟩ := exists_left_of_forall₂ hargs b hb
      exact ⟨a, List.mem_append_right _ ha, hab⟩
  | invoke target args =>
    have hchildren : (Expr.mk id (.invoke target args) ty).children = target :: args := rfl
    rw [hchildren, List.forall_mem_cons] at hg
    rw [Expr.shape, Shape.map, Recorded.describeStep, List.mapM_map]
    refine bind (mapM_list hg.2) fun S' args' _ hargs =>
      makeAbove (s := .invoke target args') (fun p h => by cases h) rfl (fun b hb => ?_) ty
    rcases List.mem_cons.mp hb with rfl | hb
    · exact ⟨b, List.mem_cons_self, .refl S' b⟩
    · obtain ⟨a, ha, hab⟩ := exists_left_of_forall₂ hargs b hb
      exact ⟨a, List.mem_cons_of_mem _ ha, hab⟩
  | _ => exact hother

end Steps

variable (H fuel options) in
/-- Normalization asks about the nodes of its tree, and draws on the tree and on what is put in. -/
theorem analyse (e : Expr) : (∀ n ∈ e.nodes, n ∈ N) →
    (∀ S, Recounts H fuel options N S (fun S' r => e.DrawsOn S' r)
      (Recorded.analyse H fuel options e).node) ∧
    ∀ S, Recounts H fuel options N S (fun S' r => e.DrawsOn S' r)
      (Recorded.analyse H fuel options e).described := by
  induction e using Expr.induction with
  | step e ih =>
    intro hN
    have hchildren := fun a ha => ih a ha fun n hn => hN n (Expr.mem_nodes_of_child ha hn)
    have hnode := fun a ha => (hchildren a ha).1
    have hdescribed := fun a ha => (hchildren a ha).2
    have he := hN e e.mem_nodes_self
    rw [Recorded.analyse_eq]
    exact ⟨fun S => normalizeStep he hnode hdescribed, fun S => describeStep he hnode hdescribed⟩

end Recounts

/-! ## Free variables -/

/-- What the description of a closure body asks, in order, when there is no instance to bind. -/
def descriptionInquiries (H : Host σ) (fuel : Nat) (options : Normalization) (e : Expr)
    (m : Machine σ) : List (Inquiry σ) :=
  match (Recorded.analyse H fuel options e).described.run m with
  | some ((_, record), _) => record
  | none => []

/-- A description that ends has made its inquiries. -/
theorem described_run {H : Host σ} {fuel : Nat} {options : Normalization} {e r : Expr}
    {m m' : Machine σ} (h : describedCall H fuel options e none m = some (r, m')) :
    (Recorded.analyse H fuel options e).described.run m =
      some ((r, descriptionInquiries H fuel options e m), m') := by
  have herase : (Recorded.analyse H fuel options e).described.erase m = some (r, m') := by
    rw [← h, describedCall, ← Recorded.erase_analyse]
    rfl
  obtain ⟨⟨⟨r', record⟩, k⟩, hrun, heq⟩ := Option.bind_eq_some_iff.mp herase
  cases heq
  rw [descriptionInquiries, hrun]

/-- A tree that one of the inquiries has put in: host code has answered with it where a closed call of
the tree was evaluated or a field read. -/
def SplicedIn (H : Host σ) (fuel : Nat) (options : Normalization) (e : Expr)
    (record : List (Inquiry σ)) (t : Expr) : Prop :=
  ∃ q ∈ record, q.Concerns options {n | n ∈ e.nodes} ∧ q.Happens H fuel ∧ q.spliced? = some t

/-- The free variables of the result are among those of the tree and of what was put in. -/
theorem Recounts.free {H : Host σ} {fuel : Nat} {options : Normalization} {e r : Expr}
    {x : Chronicle σ Expr} (h : Recounts H fuel options {n | n ∈ e.nodes} ∅
      (fun S r => e.DrawsOn S r) x) {m m' : Machine σ} {record : List (Inquiry σ)}
    (hrun : x.run m = some ((r, record), m')) : ∀ p ∈ r.freeParameters,
      Expr.isAmong p e.freeParameters = true ∨ ∃ t, SplicedIn H fuel options e record t ∧
        Expr.isAmong p t.freeParameters = true := by
  intro p hp
  obtain ⟨hfollows, hconcerns, S, -, hput, hdraws⟩ := h m r record m' hrun
  rcases hdraws p [] (Expr.refers_of_mem_freeParameters hp) with he | ⟨t, ht, hp⟩
  · exact .inl (e.isAmong_freeFrom (.inr he))
  · obtain ⟨q, hq, htree⟩ := (hput t ht).resolve_left (Set.notMem_empty t)
    exact .inr ⟨t, ⟨q, hq, hconcerns q hq, hfollows.happens q hq, htree⟩,
      t.isAmong_freeFrom (.inr hp)⟩

/-- A variable that is free in a normalized tree was free in the tree before, or is free in a tree that
this normalization has put in. The same holds of the node that a closure body describes. -/
theorem free_after_normalization (H : Host σ) (fuel : Nat) (options : Normalization) (e : Expr)
    (m : Machine σ) :
    (∀ r m', normalize H fuel options e m = some (r, m') → ∀ p ∈ r.freeParameters,
      Expr.isAmong p e.freeParameters = true ∨
        ∃ t, SplicedIn H fuel options e (inquiries H fuel options e m) t ∧
          Expr.isAmong p t.freeParameters = true) ∧
    ∀ r m', describedCall H fuel options e none m = some (r, m') → ∀ p ∈ r.freeParameters,
      Expr.isAmong p e.freeParameters = true ∨
        ∃ t, SplicedIn H fuel options e (descriptionInquiries H fuel options e m) t ∧
          Expr.isAmong p t.freeParameters = true := by
  obtain ⟨hnode, hdescribed⟩ := Recounts.analyse H fuel options e fun n hn => hn
  exact ⟨fun r m' hrun => (hnode ∅).free (recorded_run hrun),
    fun r m' hrun => (hdescribed ∅).free (described_run hrun)⟩

namespace Sample

/-- Another variable, beside a captured reference to the first one. -/
def borrowing : Expr :=
  .mk 9 (.binary .add (.mk 5 (.parameter ⟨2, some "t", .int⟩) .int)
    (.mk 8 (.convert .cast (.mk 7
      (.member (some (.mk 6 (.constant (.object 1 .captureRecord (.fields [("n", .node unknown)])))
        .captureRecord)) ⟨"n", .captureRecord, .node .int, .field⟩) (.node .int))) .int)) .int

end Sample

open Sample in
/-- Of the two variables of the result, one was there before, and the other one comes from the captured
tree. -/
theorem free_in_borrowing :
    (∃ r m', normalize tally 2 {} borrowing bareAbacus = some (r, m') ∧
      borrowing.freeParameters = [⟨2, some "t", .int⟩] ∧
      r.freeParameters = [⟨2, some "t", .int⟩, ⟨3, some "s", .int⟩] ∧
      ∀ p ∈ r.freeParameters, Expr.isAmong p borrowing.freeParameters = true ∨
        ∃ t, SplicedIn tally 2 {} borrowing (inquiries tally 2 {} borrowing bareAbacus) t ∧
          Expr.isAmong p t.freeParameters = true) ∧
    ∃ r m', describedCall tally 2 {} (passed 10 borrowing) none bareAbacus = some (r, m') ∧
      r.freeParameters = [⟨2, some "t", .int⟩, ⟨3, some "s", .int⟩] ∧
      ∀ p ∈ r.freeParameters, Expr.isAmong p (passed 10 borrowing).freeParameters = true ∨
        ∃ t, SplicedIn tally 2 {} (passed 10 borrowing)
            (descriptionInquiries tally 2 {} (passed 10 borrowing) bareAbacus) t ∧
          Expr.isAmong p t.freeParameters = true :=
  ⟨⟨_, _, rfl, rfl, rfl, (free_after_normalization tally 2 {} borrowing bareAbacus).1 _ _ rfl⟩,
    _, _, rfl, rfl, (free_after_normalization tally 2 {} (passed 10 borrowing) bareAbacus).2 _ _ rfl⟩

end CodeTree
