import CodeTree.Expr.Free
import CodeTree.Expr.Walk
import Mathlib.Data.List.Forall2

/-!
# Layers, their positions and their variables

A child of a layer stands in the layer's own scope, under variables that the layer declares,
or in a catch clause. `Shape.positions` lists the children with their positions, and two
things are defined along it:

* `Expr.isScoped` — every variable that a tree reads or writes is declared around it. A catch
  variable is declared in its own clause only; a rethrow needs a catch clause around it, in
  the tree or, where the `Context` says so, outside of it.
* `Shape.Like` — two layers are the same but for their children, which correspond position by
  position.

Main statements: `Shape.like_self`, which reduces likeness of a layer with itself to its
children, and `Expr.isScoped_mk`, the equation of scoping.
-/

namespace CodeTree

/-! ## Positions -/

/-- Where a child stands in its layer. -/
inductive Position where
  /-- In the scope of the layer itself. -/
  | plain
  /-- Under variables that the layer declares. -/
  | under (params : List Param)
  /-- In a catch clause. -/
  | catching (binder : Option Param)

/-- The variables that a layer declares for a child in this position. -/
def Position.declared : Position → List Param
  | .plain => []
  | .under params => params
  | .catching binder => binder.toList

namespace Handler

variable {α β : Type}

/-- Filter and body of a catch clause, in its scope. -/
def positions (h : Handler α) : List (Position × α) :=
  h.children.map fun a => (.catching h.binder, a)

theorem positions_map (f : α → β) (h : Handler α) :
    (h.map f).positions = h.positions.map fun x => (x.1, f x.2) := by
  rw [positions, positions, children_map, List.map_map, List.map_map]
  rfl

end Handler

namespace Shape

variable {ν α β : Type}

/-- The children of a layer with their positions. -/
def positions : Shape ν α → List (Position × α)
  | .block locals body => body.map fun a => (.under locals, a)
  | .lambda params body => [(.under params, body)]
  | .guarded body handlers cleanup =>
    (.plain, body) :: (handlers.flatMap Handler.positions ++ cleanup.toList.map fun a => (.plain, a))
  | s => s.children.map fun a => (.plain, a)

theorem positions_map (f : α → β) (s : Shape ν α) :
    (s.map f).positions = s.positions.map fun x => (x.1, f x.2) := by
  cases s with
  | block locals body => simp [map, positions]
  | lambda params body => rfl
  | guarded body handlers cleanup =>
    cases cleanup <;>
      simp [map, positions, List.map_flatMap, List.flatMap_map, Handler.positions_map]
  | _ =>
    simp only [map, positions]
    rw [← map, children_map, List.map_map, List.map_map]
    rfl

/-- The positions of a layer are those of its children. -/
theorem map_positions (s : Shape ν α) : s.positions.map Prod.snd = s.children := by
  have hh : ∀ h : Handler α, h.positions.map Prod.snd = h.children := by
    intro h
    simp [Handler.positions, Function.comp_def]
  cases s with
  | guarded body handlers cleanup =>
    simp [positions, children, List.map_flatMap, hh, Function.comp_def]
  | _ => simp [positions, children, Function.comp_def]

theorem mem_children_of_mem_positions {s : Shape ν α} {q : Position} {a : α}
    (h : (q, a) ∈ s.positions) : a ∈ s.children := by
  rw [← s.map_positions]
  exact List.mem_map_of_mem h

/-- A position declares nothing that its layer does not. -/
theorem mem_bindings_of_declared {s : Shape ν α} {q : Position} {a : α}
    (h : (q, a) ∈ s.positions) {p : Param} (hp : p ∈ q.declared) : p ∈ s.bindings := by
  cases q with
  | plain => cases hp
  | under params =>
    cases s with
    | block locals body =>
      obtain ⟨b, -, hb⟩ := List.mem_map.mp h
      cases hb
      exact hp
    | lambda params' body =>
      cases List.mem_singleton.mp h
      exact hp
    | guarded body handlers cleanup =>
      simp [positions, Handler.positions] at h
    | _ => simp [positions] at h
  | catching binder =>
    cases s with
    | guarded body handlers cleanup =>
      obtain ⟨k, hk, rfl⟩ : ∃ k ∈ handlers, k.binder = binder := by
        simp only [positions, Handler.positions, List.mem_cons, List.mem_append,
          List.mem_flatMap, List.mem_map, Prod.mk.injEq] at h
        rcases h with ⟨h, -⟩ | ⟨k, hk, -, -, h, -⟩ | ⟨-, -, h, -⟩
        · cases h
        · cases h
          exact ⟨k, hk, rfl⟩
        · cases h
      exact List.mem_filterMap.mpr ⟨k, hk, Option.mem_toList.mp hp⟩
    | _ => simp [positions] at h

end Shape

/-! ## Scoping -/

/-- What stands around a tree. -/
structure Context where
  /-- The variables that are declared. -/
  bound : List Param
  /-- Whether an exception may be thrown once more. -/
  rethrow : Bool

/-- What stands around a child. -/
def Position.extend (c : Context) : Position → Context
  | .plain => c
  | .under params => { c with bound := params ++ c.bound }
  | .catching binder => ⟨binder.toList ++ c.bound, true⟩

namespace Expr

/-- Whether a layer, apart from its children, uses what stands around it. -/
def layerScoped {α : Type} (c : Context) : Shape Value α → Bool
  | .parameter p => isAmong p c.bound
  | .assign target _ => isAmong target c.bound
  | .throw none => c.rethrow
  | _ => true

/-- One step of `isScoped`. -/
def scopedStep (_ : Expr) (layer : Shape Value (Expr × (Context → Bool))) (c : Context) : Bool :=
  layerScoped c layer && layer.positions.all fun x => x.2.2 (x.1.extend c)

/-- Whether every variable that a tree reads or writes is declared in it or around it, and
every rethrow stands in a catch clause. -/
def isScoped : Expr → Context → Bool := fold scopedStep

/-- Every variable that a tree reads or writes is declared by a block or lambda above it, or
by the catch clause in which it stands. -/
def isWellScoped (e : Expr) : Bool := e.isScoped ⟨[], true⟩

/-- A tree that needs nothing from its surroundings: it is well scoped, and every rethrow in
it stands in a catch clause in it. -/
def isSelfContained (e : Expr) : Bool := e.isScoped ⟨[], false⟩

theorem layerScoped_map {α β : Type} (f : α → β) (c : Context) (s : Shape Value α) :
    layerScoped c (s.map f) = layerScoped c s := by
  cases s with
  | throw value => cases value <;> rfl
  | _ => rfl

/-- A layer is scoped when it is on its own and all its children are where they stand. -/
theorem isScoped_mk (id : Nat) (s : Shape Value Expr) (ty : Ty) (c : Context) :
    isScoped (.mk id s ty) c =
      (layerScoped c s && s.positions.all fun x => x.2.isScoped (x.1.extend c)) := by
  rw [isScoped, fold_mk, scopedStep, layerScoped_map, Shape.positions_map, List.all_map]
  rfl

theorem isScoped_layer {e : Expr} {c : Context} (h : e.isScoped c) : layerScoped c e.shape := by
  obtain ⟨id, s, ty⟩ := e
  rw [isScoped_mk, Bool.and_eq_true] at h
  exact h.1

theorem isScoped_child {e : Expr} {c : Context} (h : e.isScoped c) {q : Position} {a : Expr}
    (ha : (q, a) ∈ e.shape.positions) : a.isScoped (q.extend c) := by
  obtain ⟨id, s, ty⟩ := e
  rw [isScoped_mk, Bool.and_eq_true] at h
  exact List.all_eq_true.mp h.2 _ ha

theorem isAmong_iff {p : Param} {ps : List Param} : isAmong p ps ↔ ∃ q ∈ ps, q.id = p.id := by
  rw [isAmong, List.any_eq_true]
  constructor
  · intro hfound
    obtain ⟨q, hq, h⟩ := hfound
    exact ⟨q, hq, beq_iff_eq.mp (show (q.id == p.id) = true from h)⟩
  · intro hfound
    obtain ⟨q, hq, h⟩ := hfound
    exact ⟨q, hq, show (q.id == p.id) = true from beq_iff_eq.mpr h⟩

/-! ## Nodes -/

theorem nodes_eq (e : Expr) : e.nodes = e :: e.children.flatMap nodes := by
  obtain ⟨id, s, ty⟩ := e
  rw [nodes, fold_mk, Shape.children_map, List.flatMap_map]
  rfl

theorem mem_nodes_self (e : Expr) : e ∈ e.nodes := by
  rw [nodes_eq]
  exact List.mem_cons_self

theorem mem_nodes_of_child {e a n : Expr} (ha : a ∈ e.children) (hn : n ∈ a.nodes) :
    n ∈ e.nodes := by
  rw [nodes_eq]
  exact List.mem_cons_of_mem _ (List.mem_flatMap.mpr ⟨a, ha, hn⟩)

theorem depth_lt_of_child {e a : Expr} (ha : a ∈ e.children) : a.depth < e.depth := by
  obtain ⟨id, s, ty⟩ := e
  have hdepth : depth (.mk id s ty) = 1 + (s.children.map depth).foldl max 0 := by
    rw [depth, fold_mk, Shape.children_map, List.map_map]
    rfl
  have hmax : ∀ (l : List Nat) (n k : Nat), k ∈ l ∨ k ≤ n → k ≤ l.foldl max n := by
    intro l
    induction l with
    | nil => simp
    | cons x l ih =>
      intro n k hk
      refine ih (max n x) k ?_
      rcases hk with hk | hk
      · rcases List.mem_cons.mp hk with rfl | hk
        · exact .inr (Nat.le_max_right n k)
        · exact .inl hk
      · exact .inr (Nat.le_trans hk (Nat.le_max_left n x))
  have := hmax (s.children.map depth) 0 a.depth (.inl (List.mem_map_of_mem ha))
  omega

/-- What holds of a tree when it holds of the children holds of all trees. -/
theorem induction {motive : Expr → Prop}
    (step : ∀ e, (∀ a ∈ e.children, motive a) → motive e) (e : Expr) : motive e := by
  suffices h : ∀ n, ∀ e : Expr, e.depth < n → motive e from h (e.depth + 1) e (Nat.lt_succ_self _)
  intro n
  induction n with
  | zero => exact fun _ h => absurd h (Nat.not_lt_zero _)
  | succ n ih =>
    intro e he
    exact step e fun a ha => ih a (by have := depth_lt_of_child ha; omega)

/-- The label that a node marks when it stands as a statement. -/
def label? (e : Expr) : Option Label :=
  match e.shape with
  | .label target _ => some target
  | _ => none

end Expr

/-! ## Likeness of layers -/

section Like

variable {ν α β : Type}

/-- Arms of a switch whose children correspond. -/
structure CaseLike (R : α → β → Prop) (c : Case α) (d : Case β) : Prop where
  tests : List.Forall₂ R c.tests d.tests
  body : R c.body d.body

/-- Catch clauses for the same exceptions whose children correspond. -/
structure HandlerLike (R : Position → α → β → Prop) (h : Handler α) (k : Handler β) : Prop where
  exceptionTy : h.exceptionTy = k.exceptionTy
  binder : h.binder = k.binder
  filter : Option.Rel (R (.catching h.binder)) h.filter k.filter
  body : R (.catching h.binder) h.body k.body

/-- Layers that are the same but for their constants, which correspond by `V`, and their
children, which correspond by `R` in their positions. -/
inductive Shape.Like (V : ν → ν → Prop) (R : Position → α → β → Prop) :
    Shape ν α → Shape ν β → Prop
  | empty : Like V R .empty .empty
  | constant {v v' : ν} (value : V v v') : Like V R (.constant v) (.constant v')
  | parameter (p : Param) : Like V R (.parameter p) (.parameter p)
  | block (locals : List Param) {body body'} (h : List.Forall₂ (R (.under locals)) body body') :
      Like V R (.block locals body) (.block locals body')
  | conditional {test test' a a' b b'} (ht : R .plain test test') (ha : R .plain a a')
      (hb : R .plain b b') : Like V R (.conditional test a b) (.conditional test' a' b')
  | switch {value value' cases cases' default default'} (comparer : Option Method)
      (hv : R .plain value value') (hc : List.Forall₂ (CaseLike (R .plain)) cases cases')
      (hd : Option.Rel (R .plain) default default') :
      Like V R (.switch value cases default comparer) (.switch value' cases' default' comparer)
  | guarded {body body' handlers handlers' cleanup cleanup'} (hb : R .plain body body')
      (hh : List.Forall₂ (HandlerLike R) handlers handlers')
      (hc : Option.Rel (R .plain) cleanup cleanup') :
      Like V R (.guarded body handlers cleanup) (.guarded body' handlers' cleanup')
  | throw {value value'} (h : Option.Rel (R .plain) value value') :
      Like V R (.throw value) (.throw value')
  | call {receiver receiver' args args'} (method : Method)
      (hr : Option.Rel (R .plain) receiver receiver') (ha : List.Forall₂ (R .plain) args args') :
      Like V R (.call receiver method args) (.call receiver' method args')
  | construct (ctor : Ctor) {args args'} (ha : List.Forall₂ (R .plain) args args') :
      Like V R (.construct ctor args) (.construct ctor args')
  | invoke {target target' args args'} (ht : R .plain target target')
      (ha : List.Forall₂ (R .plain) args args') :
      Like V R (.invoke target args) (.invoke target' args')
  | member {target target'} (read : Member) (ht : Option.Rel (R .plain) target target') :
      Like V R (.member target read) (.member target' read)
  | convert (kind : ConvertKind) {a a'} (ha : R .plain a a') :
      Like V R (.convert kind a) (.convert kind a')
  | typeIs {a a'} (testTy : Ty) (ha : R .plain a a') :
      Like V R (.typeIs a testTy) (.typeIs a' testTy)
  | unary (op : UnaryOp) {a a'} (ha : R .plain a a') : Like V R (.unary op a) (.unary op a')
  | binary (op : BinaryOp) {a a' b b'} (ha : R .plain a a') (hb : R .plain b b') :
      Like V R (.binary op a b) (.binary op a' b')
  | assign (target : Param) {a a'} (ha : R .plain a a') :
      Like V R (.assign target a) (.assign target a')
  | lambda (params : List Param) {body body'} (h : R (.under params) body body') :
      Like V R (.lambda params body) (.lambda params body')
  | await {a a'} (ha : R .plain a a') : Like V R (.await a) (.await a')
  | newArray (elem : Ty) {items items'} (h : List.Forall₂ (R .plain) items items') :
      Like V R (.newArray elem items) (.newArray elem items')
  | jump (kind : JumpKind) (target : Label) {value value'}
      (h : Option.Rel (R .plain) value value') :
      Like V R (.jump kind target value) (.jump kind target value')
  | label (target : Label) {default default'} (h : Option.Rel (R .plain) default default') :
      Like V R (.label target default) (.label target default')
  | loop {body body'} (breakLabel continueLabel : Option Label) (h : R .plain body body') :
      Like V R (.loop body breakLabel continueLabel) (.loop body' breakLabel continueLabel)

theorem optionRel_imp {R R' : α → β → Prop} (h : ∀ a b, R a b → R' a b) {o : Option α}
    {o' : Option β} (l : Option.Rel R o o') : Option.Rel R' o o' := by
  cases l with
  | none => exact .none
  | some hab => exact .some (h _ _ hab)

theorem CaseLike.imp {R R' : α → β → Prop} (h : ∀ a b, R a b → R' a b) {c : Case α} {d : Case β}
    (l : CaseLike R c d) : CaseLike R' c d :=
  ⟨l.tests.imp h, h _ _ l.body⟩

theorem HandlerLike.imp {R R' : Position → α → β → Prop} (h : ∀ q a b, R q a b → R' q a b)
    {c : Handler α} {d : Handler β} (l : HandlerLike R c d) : HandlerLike R' c d :=
  ⟨l.exceptionTy, l.binder, optionRel_imp (h _) l.filter, h _ _ _ l.body⟩

/-- Layers that are alike are so by every relation that follows. -/
theorem Shape.Like.imp {V V' : ν → ν → Prop} {R R' : Position → α → β → Prop}
    (hv : ∀ v v', V v v' → V' v v') (h : ∀ q a b, R q a b → R' q a b) {s : Shape ν α}
    {t : Shape ν β} (l : Shape.Like V R s t) : Shape.Like V' R' s t := by
  cases l with
  | empty => exact .empty
  | constant value => exact .constant (hv _ _ value)
  | parameter p => exact .parameter p
  | block locals hb => exact .block locals (hb.imp (h _))
  | conditional ht ha hb => exact .conditional (h _ _ _ ht) (h _ _ _ ha) (h _ _ _ hb)
  | switch comparer hvalue hc hd =>
    exact .switch comparer (h _ _ _ hvalue) (hc.imp fun _ _ => CaseLike.imp (h _))
      (optionRel_imp (h _) hd)
  | guarded hb hh hc =>
    exact .guarded (h _ _ _ hb) (hh.imp fun _ _ => HandlerLike.imp h) (optionRel_imp (h _) hc)
  | throw hvalue => exact .throw (optionRel_imp (h _) hvalue)
  | call method hr ha => exact .call method (optionRel_imp (h _) hr) (ha.imp (h _))
  | construct ctor ha => exact .construct ctor (ha.imp (h _))
  | invoke ht ha => exact .invoke (h _ _ _ ht) (ha.imp (h _))
  | member read ht => exact .member read (optionRel_imp (h _) ht)
  | convert kind ha => exact .convert kind (h _ _ _ ha)
  | typeIs testTy ha => exact .typeIs testTy (h _ _ _ ha)
  | unary op ha => exact .unary op (h _ _ _ ha)
  | binary op ha hb => exact .binary op (h _ _ _ ha) (h _ _ _ hb)
  | assign target ha => exact .assign target (h _ _ _ ha)
  | lambda params hb => exact .lambda params (h _ _ _ hb)
  | await ha => exact .await (h _ _ _ ha)
  | newArray elem hi => exact .newArray elem (hi.imp (h _))
  | jump kind target hvalue => exact .jump kind target (optionRel_imp (h _) hvalue)
  | label target hd => exact .label target (optionRel_imp (h _) hd)
  | loop breakLabel continueLabel hb => exact .loop breakLabel continueLabel (h _ _ _ hb)

/-- An optional child corresponds to itself when it does so where it is present. -/
theorem optionRel_self {R : α → α → Prop} : ∀ {o : Option α}, (∀ a ∈ o, R a a) → Option.Rel R o o
  | none, _ => .none
  | some a, h => .some (h a rfl)

/-- A list of children corresponds to itself when each of them does. -/
theorem forall₂_self {R : Position → α → α → Prop} {s : Shape ν α} {as : List α} {q : Position}
    (hc : ∀ q a, (q, a) ∈ s.positions → R q a a) (hs : ∀ a ∈ as, (q, a) ∈ s.positions) :
    List.Forall₂ (R q) as as :=
  List.forall₂_same.mpr fun a ha => hc q a (hs a ha)

/-- The arms of a switch correspond to themselves when all their children do. -/
theorem casesLike_self {R : α → α → Prop} {cases : List (Case α)}
    (h : ∀ a ∈ cases.flatMap Case.children, R a a) : List.Forall₂ (CaseLike R) cases cases := by
  refine List.forall₂_same.mpr fun c hcase => ?_
  have hmem : ∀ a ∈ c.children, R a a := fun a ha => h a (List.mem_flatMap.mpr ⟨c, hcase, ha⟩)
  exact ⟨List.forall₂_same.mpr fun a ha => hmem a (List.mem_append_left _ ha),
    hmem _ (List.mem_append_right _ List.mem_cons_self)⟩

/-- Catch clauses correspond to themselves when all their children do. -/
theorem handlersLike_self {R : Position → α → α → Prop} {handlers : List (Handler α)}
    (h : ∀ q a, (q, a) ∈ handlers.flatMap Handler.positions → R q a a) :
    List.Forall₂ (HandlerLike R) handlers handlers := by
  refine List.forall₂_same.mpr fun k hk => ?_
  have hmem : ∀ a ∈ k.children, R (.catching k.binder) a a := fun a ha =>
    h _ a (List.mem_flatMap.mpr ⟨k, hk, List.mem_map_of_mem ha⟩)
  refine ⟨rfl, rfl, optionRel_self fun a ha => hmem a (List.mem_append_left _ ?_),
    hmem _ (List.mem_append_right _ List.mem_cons_self)⟩
  exact Option.mem_toList.mpr ha

/-- A layer is like itself when its constants and its children are. -/
theorem Shape.like_self {V : ν → ν → Prop} {R : Position → α → α → Prop} {s : Shape ν α}
    (hv : ∀ v, s = .constant v → V v v) (hc : ∀ q a, (q, a) ∈ s.positions → R q a a) :
    Shape.Like V R s s := by
  -- the membership facts below all read off `positions`
  cases s with
  | empty => exact .empty
  | constant v => exact .constant (hv v rfl)
  | parameter p => exact .parameter p
  | block locals body => exact .block locals (forall₂_self hc (by simp [positions]))
  | conditional test a b =>
    exact .conditional (hc _ _ (by simp [positions, children]))
      (hc _ _ (by simp [positions, children])) (hc _ _ (by simp [positions, children]))
  | switch value cases default comparer =>
    refine .switch comparer (hc _ _ (by simp [positions, children]))
      (casesLike_self fun a ha => hc _ a ?_) (optionRel_self fun a ha => hc _ a ?_)
    · simp only [positions, children, List.mem_map, List.mem_cons, List.mem_append]
      exact ⟨a, .inr (.inl ha), rfl⟩
    · simp only [positions, children, List.mem_map, List.mem_cons, List.mem_append]
      exact ⟨a, .inr (.inr (Option.mem_toList.mpr ha)), rfl⟩
  | guarded body handlers cleanup =>
    refine .guarded (hc _ _ (by simp [positions]))
      (handlersLike_self fun q a ha => hc q a ?_) (optionRel_self fun a ha => hc _ a ?_)
    · simp only [positions, List.mem_cons, List.mem_append]
      exact .inr (.inl ha)
    · simp only [positions, List.mem_cons, List.mem_append]
      exact .inr (.inr (List.mem_map_of_mem (Option.mem_toList.mpr ha)))
  | throw value => exact .throw (optionRel_self fun a ha => hc _ a (by simp_all [positions, children]))
  | call receiver method args =>
    exact .call method (optionRel_self fun a ha => hc _ a (by simp_all [positions, children]))
      (forall₂_self hc fun a ha => by simp_all [positions, children])
  | construct ctor args =>
    exact .construct ctor (forall₂_self hc fun a ha => by simp_all [positions, children])
  | invoke target args =>
    exact .invoke (hc _ _ (by simp [positions, children]))
      (forall₂_self hc fun a ha => by simp_all [positions, children])
  | member target read =>
    exact .member read (optionRel_self fun a ha => hc _ a (by simp_all [positions, children]))
  | convert kind a => exact .convert kind (hc _ _ (by simp [positions, children]))
  | typeIs a testTy => exact .typeIs testTy (hc _ _ (by simp [positions, children]))
  | unary op a => exact .unary op (hc _ _ (by simp [positions, children]))
  | binary op a b =>
    exact .binary op (hc _ _ (by simp [positions, children]))
      (hc _ _ (by simp [positions, children]))
  | assign target a => exact .assign target (hc _ _ (by simp [positions, children]))
  | lambda params body => exact .lambda params (hc _ _ (by simp [positions]))
  | await a => exact .await (hc _ _ (by simp [positions, children]))
  | newArray elem items =>
    exact .newArray elem (forall₂_self hc fun a ha => by simp_all [positions, children])
  | jump kind target value =>
    exact .jump kind target (optionRel_self fun a ha => hc _ a (by simp_all [positions, children]))
  | label target default =>
    exact .label target (optionRel_self fun a ha => hc _ a (by simp_all [positions, children]))
  | loop body breakLabel continueLabel =>
    exact .loop breakLabel continueLabel (hc _ _ (by simp [positions, children]))

end Like

/-- Nodes with layers that are alike mark the same label. -/
theorem Expr.label?_eq_of_like {a b : Expr} {V : Value → Value → Prop}
    {R : Position → Expr → Expr → Prop} (h : Shape.Like V R a.shape b.shape) :
    a.label? = b.label? := by
  unfold Expr.label?
  revert h
  generalize a.shape = s, b.shape = t
  intro h
  cases h <;> rfl

end CodeTree
