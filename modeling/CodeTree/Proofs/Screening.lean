import CodeTree.Proofs.Description

/-!
# What keeps out of a described node

A `Ban` names types and variables that are not to occur in a tree. Normalization makes new nodes and
splices in trees, so whether its results keep to a ban depends on three things: what the nodes that
stay are (`Ban.Admits`), what records hold (`Ban.ClearsHeld`), and what host code answers
(`Ban.ClearsValue`). A read of a captured tree may break the ban, since it gives way to the tree.

* `Ban.clears_of_substituted` — putting in trees that keep to a ban keeps to it;
* `Ban.clears_of_resolves` — so does normalization of an admitted tree;
* `Ban.admits_of_substituted` — a tree is still admitted when such trees are put into it.
-/

namespace CodeTree

namespace Expr

/-- The types of a node: its own, and those that it has when it is described. -/
def tys (e : Expr) : List Ty :=
  e.ty ::
    match e.shape with
    | .construct ctor _ => [ctor.declaring]
    | .call _ method _ => [method.ret, method.declaring]
    | _ => []

theorem Resembles.tys {e r : Expr} (h : e.Resembles r) : r.tys = e.tys := by
  obtain ⟨id, s, ty⟩ := e
  obtain ⟨id', t, ty'⟩ := r
  obtain rfl : ty' = ty := h.ty
  cases h.shape <;> rfl

end Expr

/-! ## Bans -/

/-- Types and variables that are not to occur in a tree. -/
structure Ban where
  ty : Ty → Bool
  /-- Variables that are not to be referred to. -/
  reference : Param → Bool
  /-- Variables that are not to be assigned or declared. -/
  binding : Param → Bool
  void : ty .void = false

namespace Ban

section Definitions

variable (b : Ban)

/-- Whether a node itself breaks the ban. -/
def hits (n : Expr) : Bool :=
  n.tys.any b.ty || n.bindings.any b.binding ||
    match n.shape with
    | .parameter p => b.reference p
    | .assign target _ => b.binding target
    | _ => false

/-- Whether a value breaks the ban as a constant, or as a tree. -/
def hitsValue (v : Value) : Bool :=
  match v with
  | .node tree => tree.someNode b.hits
  | v => b.ty (v.runtimeTy?.getD .object)

/-- A tree that keeps to the ban. -/
def Clears (e : Expr) : Prop := e.someNode b.hits = false

/-- A value that keeps to the ban. -/
def ClearsValue (v : Value) : Prop := b.hitsValue v = false

instance (v : Value) : Decidable (b.ClearsValue v) :=
  inferInstanceAs (Decidable (b.hitsValue v = false))

/-- The records in a tree hold values that keep to the ban. -/
def ClearsHeld (e : Expr) : Prop :=
  ∀ n ∈ e.nodes, ∀ name v, n.field? name = some v → b.ClearsValue v

/-- The target of an invocation keeps to the ban: it stays as it is where the invocation is
described. -/
def ClearsTarget (e : Expr) : Prop :=
  ∀ target args, e.shape = .invoke target args → b.Clears target

/-- Trees whose normal forms keep to the ban: their nodes do, except in reads of captured trees that
do, and so do the targets of invocations in thunks and the values that records answer reads with. -/
inductive Admits : Expr → Prop
  | read {e tree : Expr} (read : e.capturedTree? = some tree) (ty : b.ty e.ty = false)
      (tree : b.Clears tree) : Admits e
  | node {e : Expr} (node : b.hits e = false) (children : ∀ a ∈ e.children, Admits a)
      (thunk : ∀ body, e.shape = .lambda [] body → b.ClearsTarget body)
      (field : ∀ target read v, e.shape = .member (some target) read →
        target.field? read.name = some v → b.ClearsValue v) : Admits e

end Definitions

variable {b : Ban}

theorem clears_iff {e : Expr} : b.Clears e ↔ b.hits e = false ∧ ∀ a ∈ e.children, b.Clears a := by
  constructor
  · exact fun h => ⟨Expr.someNode_self h, fun a ha => Expr.someNode_child h ha⟩
  · intro h
    refine Expr.someNode_eq_false_iff.mpr fun n hn => ?_
    rcases Expr.mem_nodes.mp hn with rfl | ⟨a, ha, hn⟩
    · exact h.1
    · exact Expr.someNode_eq_false_iff.mp (h.2 a ha) n hn

theorem clearsHeld_of_members {e : Expr}
    (h : ∀ n ∈ e.nodes, ∀ member ∈ n.members, b.ClearsValue member.2) : b.ClearsHeld e :=
  fun n hn name v hfield => h n hn (name, v) (Expr.mem_members hfield)

theorem ClearsHeld.child {e a : Expr} (h : b.ClearsHeld e) (ha : a ∈ e.children) :
    b.ClearsHeld a :=
  fun n hn => h n (Expr.mem_nodes_of_child ha hn)

theorem ty_of_hits {e : Expr} (h : b.hits e = false) {ty : Ty} (hty : ty ∈ e.tys) :
    b.ty ty = false := by
  rw [hits, Bool.or_eq_false_iff, Bool.or_eq_false_iff, List.any_eq_false] at h
  exact Bool.eq_false_iff.mpr (h.1.1 ty hty)

theorem tys_of_call {e : Expr} {receiver : Option Expr} {method : Method} {args : List Expr}
    (h : b.hits e = false) (hshape : e.shape = .call receiver method args) :
    b.ty method.ret = false ∧ b.ty method.declaring = false := by
  have htys : e.tys = [e.ty, method.ret, method.declaring] := by rw [Expr.tys, hshape]
  exact ⟨ty_of_hits h (by simp [htys]), ty_of_hits h (by simp [htys])⟩

/-- Nodes of one type and layer break the ban alike. -/
theorem hits_eq_of_resembles {e r : Expr} (h : e.Resembles r) : b.hits r = b.hits e := by
  have hbindings : r.bindings = e.bindings := h.shape.bindings_eq.symm
  rw [hits, hits, h.tys, hbindings]
  congr 1
  obtain ⟨id, s, ty⟩ := e
  obtain ⟨id', t, ty'⟩ := r
  cases h.shape <;> rfl

theorem clearsTarget_of_clears {e : Expr} (h : b.Clears e) : b.ClearsTarget e :=
  fun target _ hshape =>
    (clears_iff.mp h).2 target ((Expr.mem_children hshape).mpr List.mem_cons_self)

/-- Trees that keep to the ban are admitted. -/
theorem admits_of_clears (e : Expr) (h : b.Clears e) (hheld : b.ClearsHeld e) : b.Admits e := by
  induction e using Expr.induction with
  | step e ih =>
    obtain ⟨hnode, hchildren⟩ := clears_iff.mp h
    refine .node hnode (fun a ha => ih a ha (hchildren a ha) (hheld.child ha)) ?_ ?_
    · intro body hbody
      exact clearsTarget_of_clears (hchildren body ((Expr.mem_children hbody).mpr List.mem_cons_self))
    · intro target read v hshape hfield
      have hmem : target ∈ e.children := (Expr.mem_children hshape).mpr List.mem_cons_self
      exact hheld target (Expr.mem_nodes_of_child hmem target.mem_nodes_self) read.name v hfield

/-! ## Nodes that normalization makes -/

section Made

variable {e u r : Expr} {v : Value} {ty : Ty}

theorem clears_of_empty (h : r.shape = .empty) (hty : b.ty r.ty = false) : b.Clears r := by
  refine clears_iff.mpr ⟨?_, fun a ha => ?_⟩
  · simp [hits, Expr.tys, Expr.bindings, Shape.bindings, h, hty]
  · cases (Expr.mem_children h).mp ha

theorem clears_of_constant (h : r.shape = .constant v) (hty : b.ty r.ty = false) : b.Clears r := by
  refine clears_iff.mpr ⟨?_, fun a ha => ?_⟩
  · simp [hits, Expr.tys, Expr.bindings, Shape.bindings, h, hty]
  · cases (Expr.mem_children h).mp ha

theorem clears_of_convert {kind : ConvertKind} (h : r.shape = .convert kind u)
    (hty : b.ty r.ty = false) (hu : b.Clears u) : b.Clears r := by
  refine clears_iff.mpr ⟨?_, fun a ha => ?_⟩
  · simp [hits, Expr.tys, Expr.bindings, Shape.bindings, h, hty]
  · exact List.mem_singleton.mp ((Expr.mem_children h).mp ha) ▸ hu

theorem clears_of_upcastTo (h : u.UpcastTo ty r) (hty : b.ty ty = false) (hu : b.Clears u) :
    b.Clears r := by
  unfold Expr.UpcastTo at h
  split at h
  · exact h ▸ hu
  · exact clears_of_convert h.1 (h.2 ▸ hty) hu

theorem clears_of_unwrappedTo (h : u.UnwrappedTo ty r) (hty : b.ty ty = false) (hu : b.Clears u) :
    b.Clears r := by
  unfold Expr.UnwrappedTo at h
  split at h
  · exact h ▸ hu
  · exact clears_of_upcastTo h hty hu

theorem clears_of_answeredBy (h : e.AnsweredBy v r) (hty : b.ty e.ty = false)
    (hv : b.ClearsValue v) : b.Clears r := by
  unfold Expr.AnsweredBy at h
  split at h
  · exact h ▸ hv
  · exact clears_of_empty h.1 (h.2 ▸ b.void)
  · exact clears_of_constant h.1 (h.2 ▸ hty)

theorem clears_of_readAs (h : e.ReadAs v r) (hty : b.ty e.ty = false) (hv : b.ClearsValue v) :
    b.Clears r := by
  have hplain : b.ty (v.runtimeTy?.getD .object) = false →
      ((r.shape = .constant v ∧ r.ty = e.ty) ∨ (e.ty.isNode ∧ r.IsConstant v) ∨
        ∃ operand, operand.IsConstant v ∧ r.shape = .convert .cast operand ∧ r.ty = e.ty) →
      b.Clears r := by
    rintro hv (⟨hshape, hr⟩ | ⟨-, hshape, hr⟩ | ⟨operand, ⟨hshape, ho⟩, hconvert, hr⟩)
    · exact clears_of_constant hshape (hr ▸ hty)
    · exact clears_of_constant hshape (hr ▸ hv)
    · exact clears_of_convert hconvert (hr ▸ hty) (clears_of_constant hshape (ho ▸ hv))
  cases v with
  | node tree =>
    obtain rfl : r = tree := h
    exact hv
  | _ => exact hplain hv h

/-- A node that is kept keeps to the ban when its children do. -/
theorem clears_of_keeps {N : Expr → Expr → Prop} (h : e.Keeps e.shape N r) (he : b.hits e = false)
    (hN : ∀ a ∈ e.children, ∀ c, N a c → b.Clears c) : b.Clears r := by
  refine clears_iff.mpr ⟨(hits_eq_of_resembles h.resembles).trans he, fun c hc => ?_⟩
  obtain ⟨a, ha, hac⟩ := exists_left_of_forall₂ h.shape.children c hc
  exact hN a ha c hac

theorem clears_of_settledAs {receiver : Option Expr} {method : Method} {args : List Expr}
    (h : Expr.SettledAs receiver method args r) (hret : b.ty method.ret = false)
    (hdeclaring : b.ty method.declaring = false)
    (hreceiver : method.isStatic = false → ∀ a ∈ receiver, b.Clears a)
    (hargs : ∀ a ∈ args, b.Clears a) : b.Clears r := by
  obtain ⟨hty, receiver', hshape, hupcast⟩ := h
  refine clears_iff.mpr ⟨?_, fun a ha => ?_⟩
  · simp [hits, Expr.tys, Expr.bindings, Shape.bindings, hshape, hty, hret, hdeclaring]
  · rcases List.mem_append.mp ((Expr.mem_children hshape).mp ha) with ha | ha
    · obtain rfl := Option.mem_toList.mp ha
      split at hupcast
      next => cases hupcast
      next hinstance =>
        cases hupcast with
        | some hupcast =>
          exact clears_of_upcastTo hupcast hdeclaring
            (hreceiver (Bool.eq_false_iff.mpr hinstance) _ rfl)
    · exact hargs a ha

end Made

/-! ## Normalization keeps to a ban -/

section Normalization

variable {A : Value → Prop} {options : Normalization} {e r : Expr}

/-- One step of normalization keeps to a ban. -/
theorem clears_of_resolvesBy (hA : ∀ v, A v → b.ClearsValue v) (he : b.Admits e)
    (hN : ∀ a ∈ e.children, b.Admits a → ∀ c, Resolves A options a c → b.Clears c)
    (hD : ∀ a ∈ e.children, b.Admits a → b.ClearsTarget a → ∀ c, Describes A options a c → b.Clears c)
    (h : ResolvesBy A options (Resolves A options) (Describes A options) e r) : b.Clears r := by
  cases he with
  | read read ty tree =>
    exact clears_of_unwrappedTo (h.of_capturedTree? (fun _ _ => Resolves.dest) read) ty tree
  | node node children thunk field =>
    have hty : b.ty e.ty = false := ty_of_hits node List.mem_cons_self
    have hchild : ∀ a ∈ e.children, ∀ c, Resolves A options a c → b.Clears c :=
      fun a ha => hN a ha (children a ha)
    cases h with
    | answered folds shape closed answer result => exact clears_of_answeredBy result hty (hA _ answer)
    | captured shape kind found result => exact clears_of_readAs result hty (field _ _ _ shape found)
    | read shape unknown constant answer result => exact clears_of_readAs result hty (hA _ answer)
    | unwrapped shape node operand result =>
      have hmem := (Expr.mem_children shape).mpr List.mem_cons_self
      exact clears_of_unwrappedTo result hty (hchild _ hmem _ operand)
    | wrapped shape plain node result =>
      exact hchild _ ((Expr.mem_children shape).mpr List.mem_cons_self) _ result
    | thunk flattens shape result =>
      have hmem := (Expr.mem_children shape).mpr List.mem_cons_self
      exact hD _ hmem (children _ hmem) (thunk _ shape) _ result
    | kept unresolved result => exact clears_of_keeps result node hchild

/-- The results that list elements correspond to keep to a ban. -/
theorem clears_of_forall₂ {N : Expr → Expr → Prop} {as cs : List Expr} (h : List.Forall₂ N as cs)
    (hN : ∀ a ∈ as, ∀ c, N a c → b.Clears c) : ∀ c ∈ cs, b.Clears c := by
  intro c hc
  obtain ⟨a, ha, hac⟩ := exists_left_of_forall₂ h c hc
  exact hN a ha c hac

/-- A body that is described by itself is no read. -/
theorem Admits.of_isDescribed (h : b.Admits e) (hdescribed : e.isDescribed) :
    b.hits e = false ∧ ∀ a ∈ e.children, b.Admits a := by
  cases h with
  | read read =>
    obtain ⟨kind, operand, _, _, hshape, _⟩ := Expr.capturedTree?_eq_some read
    rw [Expr.isDescribed, hshape] at hdescribed
    cases hdescribed
  | node node children => exact ⟨node, children⟩

/-- One step of describing a node keeps to a ban. -/
theorem clears_of_describesBy (hA : ∀ v, A v → b.ClearsValue v) (he : b.Admits e)
    (htarget : b.ClearsTarget e)
    (hN : ∀ a ∈ e.children, b.Admits a → ∀ c, Resolves A options a c → b.Clears c)
    (hD : ∀ a ∈ e.children, b.Admits a → b.ClearsTarget a → ∀ c, Describes A options a c → b.Clears c)
    (h : DescribesBy A options (Resolves A options) (Describes A options) e r) : b.Clears r := by
  cases h with
  | other shape result => exact clears_of_resolvesBy hA he hN hD result
  | construct shape args result ty =>
    obtain ⟨hnode, hchildren⟩ := he.of_isDescribed (by rw [Expr.isDescribed, shape])
    have hargs := clears_of_forall₂ args fun a ha =>
      have hmem := (Expr.mem_children shape).mpr ha
      hN a hmem (hchildren a hmem)
    refine clears_iff.mpr ⟨?_, fun c hc => hargs c ((Expr.mem_children result).mp hc)⟩
    have hdeclaring : b.ty _ = false :=
      ty_of_hits hnode (by rw [Expr.tys, shape]; exact .tail _ List.mem_cons_self)
    simp [hits, Expr.tys, Expr.bindings, Shape.bindings, result, ty, hdeclaring]
  | call shape receiver args result =>
    obtain ⟨hnode, hchildren⟩ := he.of_isDescribed (by rw [Expr.isDescribed, shape])
    have hchild : ∀ a ∈ e.children, ∀ c, Resolves A options a c → b.Clears c :=
      fun a ha => hN a ha (hchildren a ha)
    obtain ⟨hret, hdeclaring⟩ := tys_of_call hnode shape
    refine clears_of_settledAs result hret hdeclaring ?_ ?_
    · rintro - c ⟨⟩
      cases receiver with
      | some hreceiver =>
        exact hchild _ ((Expr.mem_children shape).mpr List.mem_cons_self) c hreceiver
    · exact clears_of_forall₂ args fun a ha =>
        hchild a ((Expr.mem_children shape).mpr (List.mem_append_right _ ha))
  | invoke shape args result ty =>
    obtain ⟨hnode, hchildren⟩ := he.of_isDescribed (by rw [Expr.isDescribed, shape])
    have hargs := clears_of_forall₂ args fun a ha =>
      have hmem := (Expr.mem_children shape).mpr (List.mem_cons_of_mem _ ha)
      hN a hmem (hchildren a hmem)
    refine clears_iff.mpr ⟨?_, fun c hc => ?_⟩
    · have hty : b.ty e.ty = false := ty_of_hits hnode List.mem_cons_self
      simp [hits, Expr.tys, Expr.bindings, Shape.bindings, result, ty, hty]
    · rcases List.mem_cons.mp ((Expr.mem_children result).mp hc) with rfl | hc
      · exact htarget c _ shape
      · exact hargs c hc

/-- Normalization of an admitted tree keeps to the ban, and so does what it describes. -/
theorem clears_of_resolves (hA : ∀ v, A v → b.ClearsValue v) (e : Expr) :
    (b.Admits e → ∀ r, Resolves A options e r → b.Clears r) ∧
      (b.Admits e → b.ClearsTarget e → ∀ r, Describes A options e r → b.Clears r) := by
  induction e using Expr.induction with
  | step e ih =>
    have hN := fun a ha => (ih a ha).1
    have hD := fun a ha => (ih a ha).2
    exact ⟨fun he _ h => clears_of_resolvesBy hA he hN hD h.dest,
      fun he htarget _ h => clears_of_describesBy hA he htarget hN hD h.dest⟩

end Normalization

/-! ## Substitution keeps to a ban -/

section Substitution

variable {pool : List Expr}

/-- A tree with trees put into it keeps to a ban when they all do. -/
theorem clears_of_substituted {e r : Expr} {bound : List Param} (he : b.Clears e)
    (hpool : ∀ t ∈ pool, b.Clears t) (h : e.Substituted pool bound r) : b.Clears r :=
  h.someNode (fun _ _ => hits_eq_of_resembles) he hpool

theorem clearsHeld_of_substituted {e r : Expr} {bound : List Param} (he : b.ClearsHeld e)
    (hpool : ∀ t ∈ pool, b.ClearsHeld t) (h : e.Substituted pool bound r) : b.ClearsHeld r := by
  intro n hn name v hfield
  rcases h.nodes e n hn with ⟨t, ht, hn⟩ | ⟨n₀, hn₀, hlike⟩
  · exact hpool t ht n hn name v hfield
  · rw [Expr.field?, hlike.members] at hfield
    exact he n₀ hn₀ name v hfield

theorem clearsTarget_of_substituted {e r : Expr} {bound : List Param} (he : b.ClearsTarget e)
    (hpool : ∀ t ∈ pool, b.Clears t) (h : e.Substituted pool bound r) : b.ClearsTarget r := by
  rcases h.mem_or_keeps with hr | hkeeps
  · exact clearsTarget_of_clears (hpool r hr)
  · intro target args hshape
    obtain ⟨a, as, ha, hsub, -⟩ := (hshape ▸ hkeeps.shape).of_invoke
    exact clears_of_substituted (he a as ha) hpool hsub

/-- A tree is still admitted when trees that keep to the ban are put into it. -/
theorem admits_of_substituted (hpool : ∀ t ∈ pool, b.Clears t ∧ b.ClearsHeld t) (e : Expr) :
    ∀ {bound : List Param} {r : Expr}, b.Admits e → e.Substituted pool bound r → b.Admits r := by
  induction e using Expr.induction with
  | step e ih =>
    intro bound r he h
    rcases h.mem_or_keeps with hr | hkeeps
    · exact admits_of_clears r (hpool r hr).1 (hpool r hr).2
    cases he with
    | read read ty tree =>
      rw [h.eq_of_capturedTree? read]
      exact .read read ty tree
    | node node children thunk field =>
      refine .node ((hits_eq_of_resembles hkeeps.resembles).trans node) ?_ ?_ ?_
      · intro c hc
        obtain ⟨a, ha, hac⟩ := exists_left_of_forall₂ hkeeps.shape.children c hc
        exact ih a ha (children a ha) hac
      · intro body hbody
        obtain ⟨a, ha, hsub⟩ := (hbody ▸ hkeeps.shape).of_lambda
        exact clearsTarget_of_substituted (thunk a ha) (fun t ht => (hpool t ht).1) hsub
      · intro target read v hshape hfield
        obtain ⟨a, ha, hsub⟩ := (hshape ▸ hkeeps.shape).of_member
        rcases hsub.mem_or_keeps with htarget | hkept
        · exact (hpool target htarget).2 target target.mem_nodes_self read.name v hfield
        · rw [Expr.field?, hkept.resembles.members] at hfield
          exact field a read v ha hfield

end Substitution

end Ban

end CodeTree
