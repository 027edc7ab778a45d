import CodeTree.Rewrite
import CodeTree.Proofs.Correspondence
import Mathlib.Data.Set.Insert

/-!
# The nodes that exist

Nodes are told apart by their identities, and a pass keeps a node when its children come back
identical. That this keeps the right node rests on how nodes come about: each identity is handed
out once, so it belongs to one node, and what a node holds was made before it. A set of nodes with
these properties is `Coherent`; a new node may be added to it (`Coherent.insert`).

Passes are actions that make nodes. `Make.Gives S Q x` says that `x` takes the nodes `S` to a larger
coherent set, with a result that satisfies `Q` there; a `Logic` says so of other kinds of actions.
Two rules carry the passes:

* `Make.Gives.withLayer` — a node with a new layer of its own shape keeps its type and shape, and
  is the same node when its children are the same;
* `Logic.mapM` — a traversal of a layer gives a layer like it, when each child gives a child that
  corresponds.
-/

namespace CodeTree

theorem Expr.mem_nodes {e n : Expr} : n ∈ e.nodes ↔ n = e ∨ ∃ a ∈ e.children, n ∈ a.nodes := by
  rw [nodes_eq, List.mem_cons, List.mem_flatMap]

theorem Expr.mem_children {e a : Expr} {s : Shape Value Expr} (h : e.shape = s) :
    a ∈ e.children ↔ a ∈ s.children := by
  rw [children, h]

/-! ## Coherent sets of nodes -/

/-- A set of nodes in which each identity below `next` belongs to one node, with all that the nodes
hold. -/
structure Coherent (S : Set Expr) (next : Nat) : Prop where
  children : ∀ e ∈ S, ∀ a ∈ e.children, a ∈ S
  known : ∀ e ∈ S, e.id < next
  unique : ∀ a ∈ S, ∀ b ∈ S, a.id = b.id → a = b

namespace Coherent

variable {S : Set Expr} {next : Nat}

theorem mono (h : Coherent S next) {next' : Nat} (hnext : next ≤ next') : Coherent S next' :=
  ⟨h.children, fun e he => Nat.lt_of_lt_of_le (h.known e he) hnext, h.unique⟩

/-- A new node may be added when its children are there. -/
theorem insert (h : Coherent S next) {s : Shape Value Expr} (hs : ∀ a ∈ s.children, a ∈ S)
    (ty : Ty) : Coherent (insert (.mk next s ty) S) (next + 1) := by
  refine ⟨?_, ?_, ?_⟩
  · rintro e (rfl | he) a ha
    · exact .inr (hs a ha)
    · exact .inr (h.children e he a ha)
  · rintro e (rfl | he)
    · exact Nat.lt_succ_self next
    · exact Nat.lt_succ_of_lt (h.known e he)
  · rintro a (rfl | ha) b (rfl | hb) hid
    · rfl
    · exact absurd hid (Nat.ne_of_gt (h.known b hb))
    · exact absurd hid (Nat.ne_of_lt (h.known a ha))
    · exact h.unique a ha b hb hid

theorem nodes_mem (h : Coherent S next) (e : Expr) (he : e ∈ S) : ∀ n ∈ e.nodes, n ∈ S := by
  induction e using Expr.induction with
  | step e ih =>
    intro n hn
    rcases Expr.mem_nodes.mp hn with rfl | ⟨a, ha, hn⟩
    · exact he
    · exact ih a ha (h.children e he a ha) n hn

theorem eq_of_map_id (h : Coherent S next) : ∀ {as bs : List Expr}, (∀ a ∈ as, a ∈ S) →
    (∀ b ∈ bs, b ∈ S) → as.map Expr.id = bs.map Expr.id → as = bs
  | [], [], _, _, _ => rfl
  | a :: as, b :: bs, has, hbs, hids => by
    obtain ⟨hid, hids⟩ := List.cons_eq_cons.mp hids
    rw [List.forall_mem_cons] at has hbs
    rw [h.unique a has.1 b hbs.1 hid, eq_of_map_id h has.2 hbs.2 hids]

/-- Children with the same identities are the same. -/
theorem children_eq (h : Coherent S next) {e : Expr} (he : e ∈ S) {layer : Shape Value Expr}
    (hlayer : ∀ a ∈ layer.children, a ∈ S) (hsame : e.hasChildren layer) :
    layer.children = e.children :=
  h.eq_of_map_id hlayer (h.children e he) (beq_iff_eq.mp hsame)

end Coherent

/-! ## Actions that make nodes -/

/-- A way to say what actions do to the nodes that exist: from the nodes `S`, the action goes to
larger ones, with a result that satisfies `Q` there. -/
structure Logic (m : Type → Type) [Monad m] where
  Gives : {α : Type} → Set Expr → (Set Expr → α → Prop) → m α → Prop
  pure : ∀ {α : Type} {S : Set Expr} {Q : Set Expr → α → Prop} {a : α}, Q S a →
    Gives S Q (Pure.pure a)
  bind : ∀ {α β : Type} {S : Set Expr} {Q : Set Expr → α → Prop} {T : Set Expr → β → Prop}
    {x : m α} {f : α → m β}, Gives S Q x →
    (∀ S' a, S ⊆ S' → Q S' a → Gives S' T (f a)) → Gives S T (x >>= f)

namespace Logic

variable {m : Type → Type} [Monad m] [LawfulMonad m] (L : Logic m) {α β ν : Type} {S : Set Expr}

/-! ## Traversals -/

section Traversals

variable {R : Set Expr → α → β → Prop} {f : α → m β}

/-- What an element gives is known once the elements before it have been visited. -/
def Visits (L : Logic m) (S : Set Expr) (R : Set Expr → α → β → Prop) (f : α → m β) (a : α) :
    Prop :=
  ∀ S', S ⊆ S' → L.Gives S' (fun S'' => R S'' a) (f a)

/-- A correspondence that lasts when nodes are added. -/
def Lasts (R : Set Expr → α → β → Prop) : Prop :=
  ∀ S S' a b, S ⊆ S' → R S a b → R S' a b

variable {L}

omit [LawfulMonad m] in
theorem Visits.mono {S' : Set Expr} {a : α} (h : L.Visits S R f a) (hS : S ⊆ S') :
    L.Visits S' R f a :=
  fun S'' hS' => h S'' (hS.trans hS')

theorem mapM_list (hR : Lasts R) : ∀ {as : List α} {S : Set Expr},
    (∀ a ∈ as, L.Visits S R f a) →
    L.Gives S (fun S' => List.Forall₂ (R S') as) (as.mapM f)
  | [], _, _ => by
    rw [List.mapM_nil]
    exact L.pure .nil
  | a :: as, S, h => by
    rw [List.mapM_cons]
    refine L.bind (h a List.mem_cons_self S subset_rfl) fun S₁ b h₁ hb => ?_
    refine L.bind (mapM_list hR fun c hc => (h c (List.mem_cons_of_mem a hc)).mono h₁)
      fun S₂ bs h₂ hbs => ?_
    exact L.pure (.cons (hR S₁ S₂ a b h₂ hb) hbs)

theorem mapM_option {o : Option α} (h : ∀ a ∈ o.toList, L.Visits S R f a) :
    L.Gives S (fun S' => Option.Rel (R S') o) (o.mapM f) := by
  cases o with
  | none => exact L.pure .none
  | some a =>
    rw [Option.mapM_some, map_eq_pure_bind]
    exact L.bind (h a List.mem_cons_self S subset_rfl) fun _ _ _ hb => L.pure (.some hb)

theorem mapM_case (hR : Lasts R) {c : Case α} (h : ∀ a ∈ c.children, L.Visits S R f a) :
    L.Gives S (fun S' => CaseLike (R S') c) (c.mapM f) := by
  refine L.bind (mapM_list hR fun a ha => h a (List.mem_append_left _ ha)) fun S₁ tests h₁ ht => ?_
  refine L.bind (h _ (List.mem_append_right _ List.mem_cons_self) S₁ h₁) fun S₂ body h₂ hb => ?_
  exact L.pure ⟨ht.imp fun _ _ => hR S₁ S₂ _ _ h₂, hb⟩

theorem mapM_handler (hR : Lasts R) {c : Handler α} (h : ∀ a ∈ c.children, L.Visits S R f a) :
    L.Gives S (fun S' => HandlerLike (fun _ => R S') c) (c.mapM f) := by
  refine L.bind (mapM_option fun a ha => h a (List.mem_append_left _ ha)) fun S₁ filter h₁ hf => ?_
  refine L.bind (h _ (List.mem_append_right _ List.mem_cons_self) S₁ h₁) fun S₂ body h₂ hb => ?_
  exact L.pure ⟨rfl, rfl, optionRel_imp (fun _ _ => hR S₁ S₂ _ _ h₂) hf, hb⟩

theorem Lasts.caseLike (hR : Lasts R) : Lasts fun S => CaseLike (R S) :=
  fun S S' _ _ h => CaseLike.imp fun a b => hR S S' a b h

theorem Lasts.handlerLike (hR : Lasts R) : Lasts fun S => HandlerLike fun _ => R S :=
  fun S S' _ _ h => HandlerLike.imp fun _ a b => hR S S' a b h

theorem Lasts.option (hR : Lasts R) : Lasts fun S => Option.Rel (R S) :=
  fun S S' _ _ h => optionRel_imp fun a b => hR S S' a b h

theorem Lasts.list (hR : Lasts R) : Lasts fun S => List.Forall₂ (R S) :=
  fun S S' _ _ h => List.Forall₂.imp fun a b => hR S S' a b h

theorem mapM_cases (hR : Lasts R) {cs : List (Case α)}
    (h : ∀ a ∈ cs.flatMap Case.children, L.Visits S R f a) :
    L.Gives S (fun S' => List.Forall₂ (CaseLike (R S')) cs)
      (cs.mapM (Case.mapM f)) :=
  mapM_list hR.caseLike fun c hc _ hS =>
    mapM_case hR fun a ha => (h a (List.mem_flatMap.mpr ⟨c, hc, ha⟩)).mono hS

theorem mapM_handlers (hR : Lasts R) {cs : List (Handler α)}
    (h : ∀ a ∈ cs.flatMap Handler.children, L.Visits S R f a) :
    L.Gives S (fun S' => List.Forall₂ (HandlerLike fun _ => R S') cs)
      (cs.mapM (Handler.mapM f)) :=
  mapM_list hR.handlerLike fun c hc _ hS =>
    mapM_handler hR fun a ha => (h a (List.mem_flatMap.mpr ⟨c, hc, ha⟩)).mono hS

/-- A layer whose children each give something that corresponds gives a layer like it. -/
theorem mapM_like (hR : Lasts R) {V : ν → ν → Prop} {s : Shape ν α}
    (hv : ∀ v, s = .constant v → V v v) (h : ∀ a ∈ s.children, L.Visits S R f a) :
    L.Gives S (fun S' => Shape.Like V (fun _ => R S') s) (s.mapM f) := by
  cases s with
  | empty => exact L.pure .empty
  | constant v => exact L.pure (.constant (hv v rfl))
  | parameter p => exact L.pure (.parameter p)
  | block locals body =>
    exact L.bind (mapM_list hR h) fun _ _ _ hbody => L.pure (.block locals hbody)
  | conditional test a b =>
    rw [Shape.children, List.forall_mem_cons, List.forall_mem_cons, List.forall_mem_singleton] at h
    refine L.bind (h.1 S subset_rfl) fun S₁ _ h₁ ht => ?_
    refine L.bind (h.2.1 S₁ h₁) fun S₂ _ h₂ ha => ?_
    refine L.bind (h.2.2 S₂ (h₁.trans h₂)) fun S₃ _ h₃ hb => ?_
    exact L.pure (.conditional (hR S₁ S₃ _ _ (h₂.trans h₃) ht) (hR S₂ S₃ _ _ h₃ ha) hb)
  | switch value cases default comparer =>
    rw [Shape.children, List.forall_mem_cons, List.forall_mem_append] at h
    refine L.bind (h.1 S subset_rfl) fun S₁ _ h₁ hv => ?_
    refine L.bind (mapM_cases hR fun a ha => (h.2.1 a ha).mono h₁) fun S₂ _ h₂ hc => ?_
    refine L.bind (mapM_option fun a ha => (h.2.2 a ha).mono (h₁.trans h₂)) fun S₃ _ h₃ hd => ?_
    exact L.pure (.switch comparer (hR S₁ S₃ _ _ (h₂.trans h₃) hv)
      (hR.caseLike.list S₂ S₃ _ _ h₃ hc) hd)
  | guarded body handlers cleanup =>
    rw [Shape.children, List.forall_mem_cons, List.forall_mem_append] at h
    refine L.bind (h.1 S subset_rfl) fun S₁ _ h₁ hb => ?_
    refine L.bind (mapM_handlers hR fun a ha => (h.2.1 a ha).mono h₁) fun S₂ _ h₂ hh => ?_
    refine L.bind (mapM_option fun a ha => (h.2.2 a ha).mono (h₁.trans h₂)) fun S₃ _ h₃ hc => ?_
    exact L.pure (.guarded (hR S₁ S₃ _ _ (h₂.trans h₃) hb)
      (hR.handlerLike.list S₂ S₃ _ _ h₃ hh) hc)
  | throw value => exact L.bind (mapM_option h) fun _ _ _ hv => L.pure (.throw hv)
  | call receiver method args =>
    rw [Shape.children, List.forall_mem_append] at h
    refine L.bind (mapM_option h.1) fun S₁ _ h₁ hr => ?_
    refine L.bind (mapM_list hR fun a ha => (h.2 a ha).mono h₁) fun S₂ _ h₂ ha => ?_
    exact L.pure (.call method (hR.option S₁ S₂ _ _ h₂ hr) ha)
  | construct ctor args => exact L.bind (mapM_list hR h) fun _ _ _ ha => L.pure (.construct ctor ha)
  | invoke target args =>
    rw [Shape.children, List.forall_mem_cons] at h
    refine L.bind (h.1 S subset_rfl) fun S₁ _ h₁ ht => ?_
    refine L.bind (mapM_list hR fun a ha => (h.2 a ha).mono h₁) fun S₂ _ h₂ ha => ?_
    exact L.pure (.invoke (hR S₁ S₂ _ _ h₂ ht) ha)
  | member target read => exact L.bind (mapM_option h) fun _ _ _ ht => L.pure (.member read ht)
  | convert kind a =>
    exact L.bind (h a List.mem_cons_self S subset_rfl) fun _ _ _ ha => L.pure (.convert kind ha)
  | typeIs a testTy =>
    exact L.bind (h a List.mem_cons_self S subset_rfl) fun _ _ _ ha => L.pure (.typeIs testTy ha)
  | unary op a =>
    exact L.bind (h a List.mem_cons_self S subset_rfl) fun _ _ _ ha => L.pure (.unary op ha)
  | binary op a b =>
    rw [Shape.children, List.forall_mem_cons, List.forall_mem_singleton] at h
    refine L.bind (h.1 S subset_rfl) fun S₁ _ h₁ ha => ?_
    refine L.bind (h.2 S₁ h₁) fun S₂ _ h₂ hb => ?_
    exact L.pure (.binary op (hR S₁ S₂ _ _ h₂ ha) hb)
  | assign target a =>
    exact L.bind (h a List.mem_cons_self S subset_rfl) fun _ _ _ ha => L.pure (.assign target ha)
  | lambda params body =>
    exact L.bind (h body List.mem_cons_self S subset_rfl) fun _ _ _ hb =>
      L.pure (.lambda params hb)
  | await a => exact L.bind (h a List.mem_cons_self S subset_rfl) fun _ _ _ ha => L.pure (.await ha)
  | newArray elem items =>
    exact L.bind (mapM_list hR h) fun _ _ _ hi => L.pure (.newArray elem hi)
  | jump kind target value =>
    exact L.bind (mapM_option h) fun _ _ _ hv => L.pure (.jump kind target hv)
  | label target default =>
    exact L.bind (mapM_option h) fun _ _ _ hd => L.pure (.label target hd)
  | loop body breakLabel continueLabel =>
    exact L.bind (h body List.mem_cons_self S subset_rfl) fun _ _ _ hb =>
      L.pure (.loop breakLabel continueLabel hb)

/-- The constants stay. -/
theorem mapM (hR : Lasts R) {s : Shape ν α} (h : ∀ a ∈ s.children, L.Visits S R f a) :
    L.Gives S (fun S' => Shape.Like Eq (fun _ => R S') s) (s.mapM f) :=
  mapM_like hR (fun _ _ => rfl) h

end Traversals

end Logic

/-! ## Making nodes -/

/-- From the nodes `S`, the action goes to larger ones, with a result that satisfies `Q` there. -/
def Make.Gives {α : Type} (S : Set Expr) (Q : Set Expr → α → Prop) (x : Make α) : Prop :=
  ∀ next, Coherent S next → next ≤ (x.run next).2 ∧
    ∃ S', S ⊆ S' ∧ Coherent S' (x.run next).2 ∧ Q S' (x.run next).1

/-- What becomes of a node that is kept: a node of its type and shape whose children correspond to
those of the layer, and the node itself when they are its own. -/
structure Expr.Keeps {α : Type} (e : Expr) (layer : Shape Value α) (R : α → Expr → Prop)
    (r : Expr) : Prop where
  ty : r.ty = e.ty
  shape : Shape.Like Eq (fun _ => R) layer r.shape
  same : r.children = e.children → r = e

theorem Expr.keeps_map {α β : Type} {e : Expr} {s : Shape Value α} {f : α → β}
    {R : β → Expr → Prop} {r : Expr} : e.Keeps (s.map f) R r ↔ e.Keeps s (fun a => R (f a)) r :=
  ⟨fun h => ⟨h.ty, Shape.like_map.mp h.shape, h.same⟩,
    fun h => ⟨h.ty, Shape.like_map.mpr h.shape, h.same⟩⟩

theorem Expr.Keeps.imp {α : Type} {e r : Expr} {layer : Shape Value α} {R R' : α → Expr → Prop}
    (h : e.Keeps layer R r) (hR : ∀ a b, R a b → R' a b) : e.Keeps layer R' r :=
  ⟨h.ty, h.shape.imp (fun _ _ h => h) fun _ => hR, h.same⟩

/-- Nodes of one type with the same layer but for its children. -/
structure Expr.Resembles (e r : Expr) : Prop where
  ty : r.ty = e.ty
  shape : Shape.Like Eq (fun _ _ _ => True) e.shape r.shape

theorem Expr.Resembles.asParameter? {e r : Expr} (h : e.Resembles r) :
    r.asParameter? = e.asParameter? := by
  obtain ⟨id, s, ty⟩ := e
  obtain ⟨id', t, ty'⟩ := r
  cases h.shape <;> rfl

theorem Expr.Keeps.resembles {e r : Expr} {R : Expr → Expr → Prop} (h : e.Keeps e.shape R r) :
    e.Resembles r :=
  ⟨h.ty, h.shape.imp (fun _ _ h => h) fun _ _ _ _ => trivial⟩

/-- A node is kept as it is when its children are. -/
theorem Expr.Keeps.self {e : Expr} {R : Expr → Expr → Prop} (h : ∀ a ∈ e.children, R a a) :
    e.Keeps e.shape R e :=
  ⟨rfl, Shape.like_self (fun _ _ => rfl) fun _ a ha => h a (Shape.mem_children_of_mem_positions ha),
    fun _ => rfl⟩

/-- A node whose children can only be themselves stays. -/
theorem Expr.Keeps.eq {e r : Expr} {R : Expr → Expr → Prop} (h : e.Keeps e.shape R r)
    (hR : ∀ a ∈ e.children, ∀ b, R a b → a = b) : r = e := by
  have hpairs := (List.forall₂_and_left (p := (· ∈ e.children)) e.children r.children).mpr
    ⟨fun _ ha => ha, h.shape.children⟩
  have hsame : List.Forall₂ Eq e.children r.children := hpairs.imp fun a b hab => hR a hab.1 b hab.2
  rw [List.forall₂_eq_eq_eq] at hsame
  exact h.same hsame.symm

namespace Make.Gives

variable {α β : Type} {S : Set Expr} {Q : Set Expr → α → Prop} {T : Set Expr → β → Prop}

theorem pure {a : α} (h : Q S a) : Make.Gives S Q (Pure.pure a) :=
  fun next hS => ⟨Nat.le_refl next, S, subset_rfl, hS, h⟩

theorem bind {x : Make α} {f : α → Make β} (h : Make.Gives S Q x)
    (hf : ∀ S' a, S ⊆ S' → Q S' a → Make.Gives S' T (f a)) : Make.Gives S T (x >>= f) := by
  intro next hS
  obtain ⟨hnext, S₁, h₁, hS₁, hQ⟩ := h next hS
  obtain ⟨hnext', S₂, h₂, hS₂, hT⟩ := hf S₁ _ h₁ hQ _ hS₁
  exact ⟨Nat.le_trans hnext hnext', S₂, h₁.trans h₂, hS₂, hT⟩

/-- What every run of an action gives may be added to what the action gives. -/
theorem and_always {P : α → Prop} {x : Make α} (h : Make.Gives S Q x)
    (hP : ∀ next, P (x.run next).1) : Make.Gives S (fun S' a => Q S' a ∧ P a) x := by
  intro next hS
  obtain ⟨hnext, S', hS', hcoherent, hQ⟩ := h next hS
  exact ⟨hnext, S', hS', hcoherent, hQ, hP next⟩

theorem imp {Q' : Set Expr → α → Prop} {x : Make α} (h : Make.Gives S Q x)
    (hQ : ∀ S' a, S ⊆ S' → Q S' a → Q' S' a) : Make.Gives S Q' x := by
  intro next hS
  obtain ⟨hnext, S', hS', hcoherent, ha⟩ := h next hS
  exact ⟨hnext, S', hS', hcoherent, hQ S' _ hS' ha⟩

/-- An identity that is used for something else than a node. -/
theorem fresh : Make.Gives S (fun _ _ => True) Make.fresh :=
  fun next hS => ⟨Nat.le_succ next, S, subset_rfl, hS.mono (Nat.le_succ next), trivial⟩

/-- A new node. -/
theorem make {s : Shape Value Expr} (hs : ∀ a ∈ s.children, a ∈ S) (ty : Ty) :
    Make.Gives S (fun S' r => r ∈ S' ∧ r.shape = s ∧ r.ty = ty) (Expr.make s ty) :=
  fun next hS => ⟨Nat.le_succ next, insert (.mk next s ty) S, Set.subset_insert _ _,
    hS.insert hs ty, Set.mem_insert _ _, rfl, rfl⟩

/-- A node with a new layer is itself when the children of the layer are its own, and a new node
otherwise. -/
theorem withLayer_cases {e : Expr} (he : e ∈ S) {layer : Shape Value Expr}
    (hmem : ∀ b ∈ layer.children, b ∈ S) :
    Make.Gives S (fun S' r => r ∈ S' ∧ (r = e ∧ layer.children = e.children ∨
      r.ty = e.ty ∧ r.shape = layer ∧ layer.children ≠ e.children)) (e.withLayer layer) := by
  intro next hS
  rw [Expr.withLayer]
  split
  next hsame =>
    exact ⟨Nat.le_refl next, S, subset_rfl, hS, he, .inl ⟨rfl, hS.children_eq he hmem hsame⟩⟩
  next hdifferent =>
    refine ⟨Nat.le_succ next, insert (.mk next layer e.ty) S, Set.subset_insert _ _,
      hS.insert hmem e.ty, Set.mem_insert _ _, .inr ⟨rfl, rfl, fun heq => absurd ?_ hdifferent⟩⟩
    exact beq_iff_eq.mpr (congrArg (List.map Expr.id) heq)

/-- A node with a new layer of its own shape. -/
theorem withLayer {e : Expr} (he : e ∈ S) {R : Expr → Expr → Prop} {layer : Shape Value Expr}
    (hlayer : Shape.Like Eq (fun _ a b => b ∈ S ∧ R a b) e.shape layer) :
    Make.Gives S (fun S' r => r ∈ S' ∧ e.Keeps e.shape R r) (e.withLayer layer) := by
  have hmem : ∀ b ∈ layer.children, b ∈ S := fun b hb =>
    have ⟨_, _, h⟩ := exists_left_of_forall₂ hlayer.children b hb
    h.1
  have hlike : Shape.Like Eq (fun _ => R) e.shape layer := hlayer.imp (fun _ _ h => h) fun _ _ _ h => h.2
  refine (withLayer_cases he hmem).imp fun S' r _ hr => ⟨hr.1, ?_⟩
  rcases hr.2 with ⟨rfl, heq⟩ | ⟨hty, rfl, hdifferent⟩
  · have hself : ∀ a ∈ r.children, R a a :=
      List.forall₂_same.mp (show List.Forall₂ R r.shape.children r.children from heq ▸ hlike.children)
    exact .self hself
  · exact ⟨hty, hlike, fun heq => absurd heq hdifferent⟩

/-- It has the children of that layer. -/
theorem withLayer_children {e : Expr} (he : e ∈ S) {layer : Shape Value Expr}
    (hmem : ∀ b ∈ layer.children, b ∈ S)
    (hlike : Shape.Like Eq (fun _ _ _ => True) e.shape layer) :
    Make.Gives S (fun S' r => r ∈ S' ∧ e.Resembles r ∧ r.children = layer.children)
      (e.withLayer layer) := by
  refine (withLayer_cases he hmem).imp fun S' r _ hr => ⟨hr.1, ?_⟩
  rcases hr.2 with ⟨rfl, heq⟩ | ⟨hty, rfl, -⟩
  · exact ⟨⟨rfl, Shape.like_self (fun _ _ => rfl) fun _ _ _ => trivial⟩, heq.symm⟩
  · exact ⟨⟨hty, hlike⟩, rfl⟩

end Make.Gives

end CodeTree
