import CodeTree.Proofs.Description
import CodeTree.Proofs.Disposal
import CodeTree.Proofs.ExtraFrame

/-!
# Putting constants in is binding them outside

A tree in which constants have replaced free references does what the tree itself does in a new
scope that binds those variables to the values of the constants. The two evaluations go in step
(`Lockstep`): the second one has a frame more, the one with the constants. Every evaluation outside the
tree, by closures that were there before, does not see that frame; every part of the tree sees it
(`Replacing.Places`).

For this no free variable may be declared or assigned anywhere in the tree (`Expr.SparesFree`). One
more thing can go wrong: a lambda whose type does not say what it returns returns what its body's type
says, and a constant in place of a body that is a bare reference may have another type. `Expr.KeepsReturns`
rules this out, and `constant_changes_return` is a tree where it happens.

Main statement: `replaceParameters_binds`.
-/

namespace CodeTree

variable {σ : Type}

/-! ## Free variables with a constant -/

namespace Expr

/-- The value of the constant that takes the place of free references to a variable. -/
def constantFor (pool : List Expr) (p : Param) : Option Value :=
  (pool.find? (·.ty == p.ty)).bind asConstant?

/-- The free variables of a tree for which there is a constant, each with the constant's value. -/
def constantBindings (e : Expr) (pool : List Expr) : List (Param × Value) :=
  e.freeParameters.filterMap fun p => (constantFor pool p).map fun v => (p, v)

/-- The frame that binds them. -/
def constantFrame (e : Expr) (pool : List Expr) : Frame := Frame.setAll [] (e.constantBindings pool)

/-- No free variable of a tree is declared or assigned anywhere in it. -/
structure SparesFree (e : Expr) : Prop where
  undeclared : ∀ p ∈ e.freeParameters, ∀ n ∈ e.nodes, isAmong p n.bindings = false
  unassigned : ∀ p ∈ e.freeParameters, e.assigns p = false

/-- A variable has one type wherever the tree refers to it. The identity of a variable is handed out
together with its type, so trees that come about by building them are like this. -/
def TypesVariablesOnce (e : Expr) : Prop :=
  ∀ a ∈ e.nodes, ∀ b ∈ e.nodes, ∀ p q, a.shape = .parameter p → b.shape = .parameter q →
    p.id = q.id → p.ty = q.ty

/-- Where the type of a lambda does not say what it returns and the body is a reference that gives
way to a constant, the constant has the type of the reference. -/
def KeepsReturns (e : Expr) (pool : List Expr) : Prop :=
  ∀ n ∈ e.nodes, ∀ params body p, n.shape = .lambda params body → n.ty.signature? = none →
    body.asParameter? = some p → isAmong p e.freeParameters →
    (replacement pool body p).ty = body.ty

variable {e : Expr} {pool : List Expr} {p q : Param}

/-- A tree that refers to one variable only. -/
theorem typesVariablesOnce_of_eq (h : ∀ q ∈ e.nodes.filterMap asParameter?, q = p) :
    e.TypesVariablesOnce := by
  have heq : ∀ n ∈ e.nodes, ∀ q, n.shape = .parameter q → q = p := fun n hn q hshape =>
    h q (List.mem_filterMap.mpr ⟨n, hn, by rw [asParameter?, hshape]⟩)
  intro a ha b hb q r hq hr _
  rw [heq a ha q hq, heq b hb r hr]

/-- A tree that refers to each of its variables once. -/
theorem typesVariablesOnce_of_nodup
    (h : ((e.nodes.filterMap asParameter?).map Param.id).Nodup) : e.TypesVariablesOnce := by
  have hmem : ∀ n ∈ e.nodes, ∀ p, n.shape = .parameter p → p ∈ e.nodes.filterMap asParameter? :=
    fun n hn p hshape => List.mem_filterMap.mpr ⟨n, hn, by rw [asParameter?, hshape]⟩
  intro a ha b hb p q hp hq hid
  rw [List.inj_on_of_nodup_map h (hmem a ha p hp) (hmem b hb q hq) hid]

theorem isAmong_congr (h : p.id = q.id) {ps : List Param} : isAmong p ps = isAmong q ps := by
  rw [Bool.eq_iff_iff, isAmong_iff, isAmong_iff, h]

namespace SparesFree

variable (h : e.SparesFree) {n : Expr} (hn : n ∈ e.nodes)

include h hn

theorem not_free_of_declared (hp : p ∈ n.bindings) : isAmong p e.freeParameters = false := by
  by_contra hfree
  obtain ⟨q, hq, hid⟩ := isAmong_iff.mp (Bool.not_eq_false _ ▸ hfree)
  have hnot := h.undeclared q hq n hn
  rw [isAmong_iff.mpr ⟨p, hp, hid.symm⟩] at hnot
  cases hnot

theorem not_free_of_assigned {a : Expr} (hshape : n.shape = .assign p a) :
    isAmong p e.freeParameters = false := by
  by_contra hfree
  obtain ⟨q, hq, hid⟩ := isAmong_iff.mp (Bool.not_eq_false _ ▸ hfree)
  have hnot := someNode_eq_false_iff.mp (h.unassigned q hq) n hn
  rw [hshape] at hnot
  exact Bool.eq_false_iff.mp hnot (Param.beq_iff.mpr hid.symm)

end SparesFree

theorem mem_constantBindings {b : Param × Value} (hb : b ∈ e.constantBindings pool) :
    b.1 ∈ e.freeParameters ∧ constantFor pool b.1 = some b.2 := by
  obtain ⟨q, hq, hb⟩ := List.mem_filterMap.mp hb
  obtain ⟨v, hv, rfl⟩ := Option.map_eq_some_iff.mp hb
  exact ⟨hq, hv⟩

/-- The frame binds free variables only. -/
theorem get?_constantFrame_of_not_free (h : isAmong p e.freeParameters = false) :
    (e.constantFrame pool).get? p.id = none := by
  rw [constantFrame, Frame.get?_setAll_of_ne]
  · rfl
  · intro b hb hid
    rw [isAmong_iff.mpr ⟨b.1, (mem_constantBindings hb).1, hid⟩] at h
    cases h

/-- The frame binds each free variable to its constant. -/
theorem get?_constantFrame (hty : e.TypesVariablesOnce) {n : Expr} (hn : n ∈ e.nodes)
    (hshape : n.shape = .parameter p) (hfree : isAmong p e.freeParameters) :
    (e.constantFrame pool).get? p.id = constantFor pool p := by
  have hsame : ∀ q ∈ e.freeParameters, q.id = p.id → constantFor pool q = constantFor pool p := by
    intro q hq hid
    rcases mem_freeFrom e hq with hnil | ⟨n', hn', hshape'⟩
    · cases hnil
    · rw [constantFor, constantFor, hty n' hn' n hn q p hshape' hshape hid]
  have hagree : ∀ b ∈ e.constantBindings pool, b.1.id = p.id → constantFor pool p = some b.2 :=
    fun b hb hid => (hsame b.1 (mem_constantBindings hb).1 hid).symm.trans (mem_constantBindings hb).2
  cases hconstant : constantFor pool p with
  | none =>
    rw [constantFrame, Frame.get?_setAll_of_ne]
    · rfl
    · intro b hb hid
      rw [hagree b hb hid] at hconstant
      cases hconstant
  | some v =>
    refine Frame.get?_setAll_of_agree (fun b hb hid => ?_) (.inr ?_)
    · exact Option.some.inj ((hagree b hb hid).symm.trans hconstant)
    · obtain ⟨q, hq, hid⟩ := isAmong_iff.mp hfree
      refine ⟨(q, v), List.mem_filterMap.mpr ⟨q, hq, ?_⟩, hid⟩
      rw [hsame q hq hid, hconstant]
      rfl

/-! ## Parts of the tree -/

/-- What becomes of a part of the tree `e` that stands below the declarations `bound` in it. -/
structure Part (e : Expr) (pool : List Expr) (bound : List Param) (a b : Expr) : Prop where
  within : ∀ n ∈ a.nodes, n ∈ e.nodes
  free : ∀ p, a.Refers p bound → isAmong p e.freeParameters
  around : ∀ p ∈ bound, isAmong p e.freeParameters = false
  gives : a.Substituted pool bound b

namespace Part

variable {bound : List Param} {a b : Expr}

/-- The whole tree. -/
theorem whole (h : e.Substituted pool [] b) : e.Part pool [] e b :=
  ⟨fun _ h => h, fun _ hp => isAmong_freeFrom e (.inr hp), List.forall_mem_nil _, h⟩

/-- A node that is no reference is kept, and its children are parts of the tree again. -/
theorem keeps (h : e.Part pool bound a b) (hfree : e.SparesFree) (ha : a.asParameter? = none) :
    a.Keeps a.shape (fun c d => c ∈ a.children → e.Part pool (a.bindings ++ bound) c d) b := by
  refine ((substituted_of_none ha bound b).mp h.gives).imp fun c d hcd hc => ?_
  refine ⟨fun n hn => h.within n (mem_nodes_of_child hc hn), fun p hp => ?_, fun p hp => ?_, hcd⟩
  · exact h.free p ((refers_of_none ha bound).mpr ⟨c, hc, hp⟩)
  · rcases List.mem_append.mp hp with hp | hp
    · exact hfree.not_free_of_declared (h.within a a.mem_nodes_self) hp
    · exact h.around p hp

/-- A reference stays, and the frame of the constants does not bind the variable, or it becomes a
constant and the frame binds the variable to its value. -/
theorem reference (h : e.Part pool bound a b) (hty : e.TypesVariablesOnce)
    (hconstants : ∀ t ∈ pool, t.asConstant?.isSome) (ha : a.asParameter? = some p) :
    (b = a ∧ (e.constantFrame pool).get? p.id = none) ∨
      ∃ v, b.shape = .constant v ∧ (e.constantFrame pool).get? p.id = some v := by
  have hgives := (substituted_of_some ha bound b).mp h.gives
  cases hfree : isAmong p e.freeParameters with
  | false =>
    -- a reference that is not free is bound
    have hbound : isAmong p bound := by
      by_contra hnot
      have hp := h.free p ((refers_of_some ha bound).mpr ⟨rfl, Bool.eq_false_iff.mpr hnot⟩)
      rw [hfree] at hp
      cases hp
    rw [if_pos hbound] at hgives
    exact .inl ⟨hgives, get?_constantFrame_of_not_free hfree⟩
  | true =>
    have hbound : ¬isAmong p bound = true := by
      intro hbound
      obtain ⟨q, hq, hid⟩ := isAmong_iff.mp hbound
      have hnot := h.around q hq
      rw [isAmong_congr hid, hfree] at hnot
      cases hnot
    rw [if_neg hbound, replacement] at hgives
    have hframe : (e.constantFrame pool).get? p.id = constantFor pool p :=
      get?_constantFrame hty (h.within a a.mem_nodes_self) (shape_of_asParameter? ha) hfree
    rw [hframe, constantFor]
    cases hfound : pool.find? (·.ty == p.ty) with
    | none =>
      rw [hfound] at hgives
      exact .inl ⟨hgives, rfl⟩
    | some t =>
      obtain ⟨v, hv⟩ := Option.isSome_iff_exists.mp (hconstants t (List.mem_of_find?_eq_some hfound))
      have hshape := shape_of_asConstant? hv
      have hnone : t.asParameter? = none := by rw [asParameter?, hshape]
      rw [hfound] at hgives
      dsimp only at hgives
      rw [hnone] at hgives
      obtain rfl : b = t := hgives
      exact .inr ⟨v, hshape, hv⟩

/-- Labels stay. -/
theorem label?_eq (h : e.Part pool bound a b) (hty : e.TypesVariablesOnce)
    (hconstants : ∀ t ∈ pool, t.asConstant?.isSome) : a.label? = b.label? := by
  cases ha : a.asParameter? with
  | none => exact label?_eq_of_like ((substituted_of_none ha bound b).mp h.gives).shape
  | some p =>
    rcases h.reference hty hconstants ha with ⟨rfl, -⟩ | ⟨v, hshape, -⟩
    · rfl
    · rw [label?, label?, shape_of_asParameter? ha, hshape]

/-- The body of a lambda keeps its type, where the lambda returns what it says. -/
theorem ty_eq (h : e.Part pool bound a b) (hreturns : e.KeepsReturns pool) {n : Expr}
    (hn : n ∈ e.nodes) {params : List Param} (hshape : n.shape = .lambda params a)
    (hnone : n.ty.signature? = none) : a.ty = b.ty := by
  cases ha : a.asParameter? with
  | none => exact (((substituted_of_none ha bound b).mp h.gives).ty).symm
  | some p =>
    have hgives := (substituted_of_some ha bound b).mp h.gives
    split at hgives
    next => rw [hgives]
    next hbound =>
      have hp := h.free p ((refers_of_some ha bound).mpr ⟨rfl, Bool.eq_false_iff.mpr hbound⟩)
      rw [hgives]
      exact (hreturns n hn params a p hshape hnone ha hp).symm

end Part

end Expr

/-! ## The two evaluations -/

/-- The frames that parts of the tree have opened, in front of the one with the constants. -/
structure Front where
  frames : Set Nat

instance : Preorder Front where
  le w w' := w.frames ⊆ w'.frames
  le_refl _ _ h := h
  le_trans _ _ _ h h' _ hf := h' (h hf)

/-- Where the two evaluations are: outside the tree, at the same place but for the numbers of frames,
or in a part of it, in scopes of which the left one sees the constants. -/
inductive Placed (e : Expr) (pool : List Expr) (n : Nat) (w : Front) (P Q : Place) : Prop
  | outside (interp : P.interp = Q.interp) (tree : P.tree = Q.tree) (scope : P.scope = Q.scope.raise n)
  | inside (interp : P.interp = Q.interp) (bound : List Param) (part : e.Part pool bound P.tree Q.tree)
      (scope : P.scope.Shows n w.frames Q.scope)

/-- The tree beside what it becomes, with the constants in frame `n` on the left. -/
def substituting (e : Expr) (pool : List Expr) (n : Nat) : Lockstep Front where
  both := True
  memory w st₁ st₂ := Store.Exceeds n (e.constantFrame pool) st₁ st₂ ∧
    Store.Leaves (e.constantFrame pool) w.frames st₂
  place := Placed e pool n
  place_mono hw _ _ h := by
    cases h with
    | outside interp tree scope => exact .outside interp tree scope
    | inside interp bound part scope => exact .inside interp bound part (scope.mono hw)

namespace Substituting

variable {e : Expr} {pool : List Expr} {n : Nat} {w : Front} {P Q : Place} {s₁ s₂ : Scope}
  {p : Param}

/-- A new frame on either side keeps the stores related. -/
theorem opens_anyhow (s₁ s₂ : Scope) (vars : List Param) :
    (substituting e pool n).Opens w s₁ s₂ vars fun _ _ _ => True :=
  fun w' _ _ _ hst _ bindings _ =>
    ⟨w', le_refl w', ⟨hst.1.opened bindings, hst.2.opened bindings⟩, trivial⟩

/-- A new frame in front of scopes that do not see the constants. -/
theorem opens_outside (s : Scope) (vars : List Param) :
    (substituting e pool n).Opens w (s.raise n) s vars fun _ t₁ t₂ => t₁ = t₂.raise n := by
  intro w' _ st₁ st₂ hst handling bindings _
  refine ⟨w', le_refl w', ⟨hst.1.opened bindings, hst.2.opened bindings⟩, ?_⟩
  show (s.raise n).extended st₁.frames.size handling = (s.extended st₂.frames.size handling).raise n
  rw [Scope.raise_extended, hst.1.raise_size]

/-- A new frame in front of scopes of which the left one sees the constants. It must not bind their
variables. -/
theorem opens_inside (hs : s₁.Shows n w.frames s₂) {vars : List Param}
    (hvars : ∀ p ∈ vars, (e.constantFrame pool).get? p.id = none) :
    (substituting e pool n).Opens w s₁ s₂ vars fun w' t₁ t₂ => t₁.Shows n w'.frames t₂ := by
  intro w' hw st₁ st₂ hst handling bindings hbindings
  have hclear : ∀ b ∈ bindings, (e.constantFrame pool).get? b.1.id = none := fun b hb =>
    hvars b.1 (hbindings ▸ List.mem_map_of_mem hb)
  refine ⟨⟨insert st₂.frames.size w'.frames⟩, Set.subset_insert _ _,
    ⟨hst.1.opened bindings, hst.2.opened_insert hclear⟩, ?_⟩
  rw [← hst.1.raise_size]
  exact (hs.mono (Set.Subset.trans hw (Set.subset_insert _ _))).extended (Set.mem_insert _ _) handling

/-- Variables that both scopes find in corresponding frames. -/
def Finds (e : Expr) (pool : List Expr) (n : Nat) (w : Front) (s₁ s₂ : Scope) (p : Param) : Prop :=
  ∀ w', w ≤ w' → ∀ st₁ st₂, (substituting e pool n).memory w' st₁ st₂ →
    st₁.owner? s₁ p.id = (st₂.owner? s₂ p.id).map (raise n)

theorem Finds.reads (h : Finds e pool n w s₁ s₂ p) : (substituting e pool n).Reads w s₁ s₂ p :=
  fun w' hw st₁ st₂ hst => hst.1.lookup (h w' hw st₁ st₂ hst)

theorem Finds.writes (h : Finds e pool n w s₁ s₂ p) : (substituting e pool n).Writes w s₁ s₂ p := by
  intro w' hw st₁ st₂ hst v
  obtain ⟨hfound, hexceeds⟩ := hst.1.assign (h w' hw st₁ st₂ hst) v
  exact ⟨hfound, hexceeds, hst.2.assign s₂ p.id v⟩

theorem finds_outside (s : Scope) : Finds e pool n w (s.raise n) s p :=
  fun _ _ _ _ hst => hst.1.owner?_raise s p.id

theorem finds_inside (hs : s₁.Shows n w.frames s₂) (hp : (e.constantFrame pool).get? p.id = none) :
    Finds e pool n w s₁ s₂ p :=
  fun _ hw _ _ hst => hst.1.owner?_shows (hs.mono hw) hp

/-- Outside the tree, layers are the same. -/
theorem layer_outside (hinterp : P.interp = Q.interp) (htree : P.tree = Q.tree)
    (hscope : P.scope = Q.scope.raise n) :
    (substituting e pool n).LayerLike w P Q fun _ a b => a = b := by
  obtain ⟨I, s₁, a⟩ := P
  obtain ⟨I', s₂, b⟩ := Q
  obtain rfl : I = I' := hinterp
  obtain rfl : a = b := htree
  obtain rfl : s₁ = s₂.raise n := hscope
  refine ⟨rfl, rfl, Shape.like_self (fun _ _ => rfl) fun _ _ _ => rfl, fun _ a b hab => by rw [hab],
    fun a b hab => .outside rfl hab rfl, fun q _ => ?_, fun params a b ha hb => ?_,
    fun _ _ => (finds_outside s₂).reads, fun _ _ _ => (finds_outside s₂).writes,
    fun _ => Scope.currentException?_raise n s₂⟩
  · exact (opens_outside s₂ q.declared).imp fun _ _ _ ht _ _ hab => .outside rfl hab ht
  · rw [ha] at hb
    injection hb with _ hbody
    rw [hbody]

/-- In the tree, a node that is kept has a layer of parts. -/
theorem layer_inside (hfree : e.SparesFree) (hty : e.TypesVariablesOnce)
    (hconstants : ∀ t ∈ pool, t.asConstant?.isSome) (hreturns : e.KeepsReturns pool)
    {bound : List Param} (hinterp : P.interp = Q.interp) (hpart : e.Part pool bound P.tree Q.tree)
    (hscope : P.scope.Shows n w.frames Q.scope)
    (hkeeps : P.tree.Keeps P.tree.shape
      (fun c d => c ∈ P.tree.children → e.Part pool (P.tree.bindings ++ bound) c d) Q.tree)
    (hread : ∀ p, P.tree.shape = .parameter p → (e.constantFrame pool).get? p.id = none) :
    (substituting e pool n).LayerLike w P Q fun q c d =>
      (q, c) ∈ P.tree.shape.positions ∧ e.Part pool (P.tree.bindings ++ bound) c d := by
  have hin : P.tree ∈ e.nodes := hpart.within _ P.tree.mem_nodes_self
  refine ⟨hkeeps.ty.symm, hinterp, ?_, fun _ c d hcd => hcd.2.label?_eq hty hconstants,
    fun c d hcd => .inside hinterp _ hcd.2 hscope, fun q _ => ?_, fun params c d hc hd => ?_,
    fun p hp => (finds_inside hscope (hread p hp)).reads, fun p a ha => ?_,
    fun _ => hscope.currentException?⟩
  · refine hkeeps.shape.with_positions.imp (fun _ _ h => h) fun q c d hcd => ?_
    exact ⟨hcd.1, hcd.2 (Shape.mem_children_of_mem_positions hcd.1)⟩
  · by_cases hq : ∃ c, (q, c) ∈ P.tree.shape.positions
    · obtain ⟨c₀, hc₀⟩ := hq
      have hvars : ∀ p ∈ q.declared, (e.constantFrame pool).get? p.id = none := fun p hp =>
        Expr.get?_constantFrame_of_not_free
          (hfree.not_free_of_declared hin (Shape.mem_bindings_of_declared hc₀ hp))
      exact (opens_inside hscope hvars).imp fun _ _ _ ht c d hcd => .inside hinterp _ hcd.2 ht
    · exact (opens_anyhow P.scope Q.scope _).imp fun _ _ _ _ c d hcd => absurd ⟨c, hcd.1⟩ hq
  · have hlike := hkeeps.shape
    rw [hd, hc] at hlike
    have hchild : c ∈ P.tree.children := (Expr.mem_children hc).mpr List.mem_cons_self
    cases hnone : P.tree.ty.signature? with
    | some signature => rfl
    | none =>
      cases hlike with
      | lambda _ hbody => exact (hbody hchild).ty_eq hreturns hin hc hnone
  · exact (finds_inside hscope
      (Expr.get?_constantFrame_of_not_free (hfree.not_free_of_assigned hin ha))).writes

/-- A reference beside the constant that replaces it. -/
theorem runs_constant (H : Host σ) {E₁ E₂ : Engine σ} {d : Array Nat} {v : Value}
    (hscope : P.scope.Shows n w.frames Q.scope) (href : P.tree.shape = .parameter p)
    (hconstant : Q.tree.shape = .constant v) (hbinds : (e.constantFrame pool).get? p.id = some v) :
    (substituting e pool n).Runs d w Eq (evalNode H E₁ P.interp P.scope P.tree)
      (evalNode H E₂ Q.interp Q.scope Q.tree) := by
  intro m₁ m₂ hm
  have hlookup := hm.store.2.lookup_extra hm.store.1 hscope hbinds
  have hleft : (evalNode H E₁ P.interp P.scope P.tree).run m₁ = some (.ok v, m₁) := by
    simp only [evalNode, href]
    rw [run_step_bind, Step.lookup, hlookup]
    rfl
  have hright : (evalNode H E₂ Q.interp Q.scope Q.tree).run m₂ = some (.ok v, m₂) := by
    simp only [evalNode, hconstant]
    rfl
  rw [hleft, hright]
  exact .ended ⟨w, le_refl w, hm, .ok rfl⟩

theorem lawful (hfree : e.SparesFree) (hty : e.TypesVariablesOnce)
    (hconstants : ∀ t ∈ pool, t.asConstant?.isSome) (hreturns : e.KeepsReturns pool) (H : Host σ) :
    (substituting e pool n).Lawful H := by
  intro w P Q hplace
  cases hplace with
  | outside interp tree scope => exact .inl ⟨_, layer_outside interp tree scope⟩
  | inside interp bound part scope =>
    cases ha : P.tree.asParameter? with
    | none =>
      refine .inl ⟨_, layer_inside hfree hty hconstants hreturns interp part scope
        (part.keeps hfree ha) fun p hp => ?_⟩
      rw [Expr.asParameter?, hp] at ha
      cases ha
    | some p =>
      have href := Expr.shape_of_asParameter? ha
      rcases part.reference hty hconstants ha with ⟨hstays, hnone⟩ | ⟨v, hconstant, hbinds⟩
      · have hkeeps : P.tree.Keeps P.tree.shape
            (fun c d => c ∈ P.tree.children → e.Part pool (P.tree.bindings ++ bound) c d) Q.tree := by
          rw [hstays]
          refine .self fun a ha => ?_
          cases (Expr.mem_children href).mp ha
        refine .inl ⟨_, layer_inside hfree hty hconstants hreturns interp part scope hkeeps ?_⟩
        intro q hq
        rw [href] at hq
        cases hq
        exact hnone
      · exact .inr fun d E₁ E₂ _ => runs_constant H scope href hconstant hbinds

end Substituting

/-! ## The whole tree -/

/-- Evaluates a tree in a new scope that binds variables to values. -/
def evalBinding (H : Host σ) (fuel : Nat) (I : Interp) (scope : Scope)
    (bindings : List (Param × Value)) (e : Expr) : Run σ Value := do
  let inner ← Run.step (Step.onStore fun s => s.child scope)
  Run.step (Step.declareAll inner bindings)
  eval H fuel I inner e

/-- Closures that are the same but for the numbers of frames, or whose bodies are a part of the tree
and what becomes of it. -/
structure ClosureSubstituted (e : Expr) (pool : List Expr) (n : Nat) (c₁ c₂ : Closure) : Prop where
  params : c₁.params = c₂.params
  ret : c₁.ret = c₂.ret
  interp : c₁.interp = c₂.interp
  body : (c₁.body = c₂.body ∧ c₁.scope = c₂.scope.raise n) ∨
    ∃ bound, e.Part pool bound c₁.body c₂.body

/-- Evaluations that have ended alike: with one outcome, the same effects on the host, the same
identities drawn, closures whose bodies correspond, and stores that differ in the frame of the
constants only. -/
structure EndsSubstituted (e : Expr) (pool : List Expr) (n : Nat)
    (x y : Except Exit Value × Machine σ) : Prop where
  outcome : x.1 = y.1
  host : x.2.host = y.2.host
  next : x.2.next = y.2.next
  depths : x.2.depths = y.2.depths
  closures : ∀ i : Nat, Option.Rel (ClosureSubstituted e pool n) x.2.closures[i]? y.2.closures[i]?
  store : Store.Exceeds n (e.constantFrame pool) x.2.store y.2.store

section Whole

variable {e : Expr} {pool : List Expr} {n : Nat} {w : Front} {d : Array Nat}

/-- Closures in step have bodies that correspond. -/
theorem ClosureSubstituted.of_like {c₁ c₂ : Closure} {st₁ st₂ : Store}
    (hst : (substituting e pool n).memory w st₁ st₂)
    (h : (substituting e pool n).ClosureLike w c₁ c₂) : ClosureSubstituted e pool n c₁ c₂ := by
  obtain ⟨_, hplace⟩ := h.place hst
  refine ⟨h.params, h.ret, h.interp, ?_⟩
  cases hplace with
  | outside _ tree scope =>
    refine .inl ⟨tree, ?_⟩
    have hlinks := (List.cons.inj (congrArg Scope.links scope)).2
    exact congrArg Scope.mk hlinks
  | inside _ bound part _ => exact .inr ⟨bound, part⟩

theorem EndsSubstituted.of_similar {r : Except Exit Value} {m₁ m₂ : Machine σ}
    (h : (substituting e pool n).Similar w d m₁ m₂) :
    EndsSubstituted e pool n (r, m₁) (r, m₂) where
  outcome := rfl
  host := h.host
  next := h.next
  depths := h.depths₁.trans h.depths₂.symm
  closures i := optionRel_imp (fun _ _ => ClosureSubstituted.of_like h.store) (h.closures i)
  store := h.store.1

/-- A machine beside itself, once the constants are bound. -/
theorem similar_binding {m : Machine σ} (hm : m.ScopesExist) :
    (substituting e pool m.store.frames.size).Similar ⟨∅⟩ m.depths
      { m with store := m.store.opened (e.constantBindings pool) } m where
  next := rfl
  host := rfl
  depths₁ := rfl
  depths₂ := rfl
  store := ⟨m.store.exceeds_opened _, fun _ hf => hf.elim⟩
  made := rfl
  closures i := by
    show Option.Rel _ m.closures[i]? m.closures[i]?
    cases hc : m.closures[i]? with
    | none => exact .none
    | some c =>
      refine .some ⟨rfl, rfl, rfl, ?_⟩
      have hraise : c.scope.raise m.store.frames.size = c.scope := Scope.raise_eq (hm i c hc)
      have hopens : (substituting e pool m.store.frames.size).Opens ⟨∅⟩
          (c.scope.raise m.store.frames.size) c.scope c.params
          fun _ t₁ t₂ => t₁ = t₂.raise m.store.frames.size := Substituting.opens_outside _ _
      rw [hraise] at hopens
      exact hopens.imp fun _ _ _ ht => .outside rfl rfl ht

end Whole

/-- Putting constants in is binding them outside. Of existing nodes, let a tree be given whose free
variables are neither declared nor assigned anywhere in it, and constants. Evaluating what
replacing parameters by the constants makes of the tree is, with any host, in any scope and with any
fuel, evaluating the tree itself in a new scope that binds each free variable for whose type there is a
constant to the value of the first one: either both end or neither does, with the same outcome and
the same effects, and with closures whose bodies correspond. This takes lambdas that return what
they returned. -/
theorem replaceParameters_binds {S : Set Expr} {next : Nat} (hS : Coherent S next) {e : Expr}
    (he : e ∈ S) {pool : List Expr} (hpool : ∀ t ∈ pool, t ∈ S)
    (hconstants : ∀ t ∈ pool, t.asConstant?.isSome) (hfree : e.SparesFree)
    (hty : e.TypesVariablesOnce) (hreturns : e.KeepsReturns pool) (H : Host σ) (fuel : Nat)
    (I : Interp) {scope : Scope} {m : Machine σ} (hm : m.ScopesExist)
    (hscope : ∀ link ∈ scope.links, link.frame < m.store.frames.size) :
    Option.Rel (EndsSubstituted e pool m.store.frames.size)
      ((evalBinding H fuel I scope (e.constantBindings pool) e).run m)
      ((eval H fuel I scope ((e.replaceParameters pool).run next).1).run m) := by
  obtain ⟨-, _, -, -, -, hsub⟩ := Expr.replaceParameters_gives he hpool next hS
  have hshows : (scope.extended m.store.frames.size none).Shows m.store.frames.size ∅ scope :=
    ⟨[], scope.links, rfl, congrArg (List.cons _) (congrArg Scope.links (Scope.raise_eq hscope).symm),
      fun _ h => nomatch h⟩
  have hengines : (substituting e pool m.store.frames.size).Engines m.depths (engine H fuel)
      (engine H fuel) :=
    Lockstep.engines (Substituting.lawful hfree hty hconstants hreturns H) (Nat.le_refl fuel)
      (fun _ => rfl) m.depths
  have hrun := hengines.eval ⟨∅⟩ ⟨I, scope.extended m.store.frames.size none, e⟩ ⟨I, scope, _⟩
    (.inside rfl [] (.whole hsub) hshows) _ _ (similar_binding hm)
  have hopening : (evalBinding H fuel I scope (e.constantBindings pool) e).run m =
      (eval H fuel I (scope.extended m.store.frames.size none) e).run
        { m with store := m.store.opened (e.constantBindings pool) } :=
    Lockstep.opening_run scope none (e.constantBindings pool) (eval H fuel I · e) m
  rw [hopening]
  refine (hrun.imp fun x y hxy => ?_).rel trivial
  obtain ⟨w, -, hsimilar, hr⟩ := hxy
  obtain ⟨r₁, m₁⟩ := x
  obtain ⟨r₂, m₂⟩ := y
  obtain rfl : r₁ = r₂ := hr.eq
  exact .of_similar hsimilar

namespace Sample

def fiveNode : Expr := .mk 23 (.constant (.int 5)) .int

/-- Calls a closure that adds a variable to seven. -/
def adder : Expr :=
  .mk 22 (.invoke
    (.mk 21 (.lambda [] (.mk 20 (.binary .add (outer .int) seven) .int)) (.func [] .int)) []) .int

/-- Calls a closure that returns a variable. Neither the lambda nor the reference has the type that
it is made with: the lambda does not say what it returns, and the reference is of no value. -/
def returner : Expr :=
  .mk 22 (.invoke
    (.mk 21 (.lambda [] (.mk 20 (.parameter ⟨10, some "y", .int⟩) .void)) .int) []) .object

end Sample

open Sample in
/-- The closure adds five to seven, whether `5` is put in for `y` or `y` is bound to `5`. -/
theorem adder_binds :
    adder.constantBindings [fiveNode] = [(⟨10, some "y", .int⟩, .int 5)] ∧
    Option.Rel (EndsSubstituted adder [fiveNode] 0)
      ((evalBinding mute 6 ⟨0, 8⟩ ⟨[]⟩ (adder.constantBindings [fiveNode]) adder).run (shelf 27))
      ((eval mute 6 ⟨0, 8⟩ ⟨[]⟩ ((adder.replaceParameters [fiveNode]).run 24).1).run (shelf 27)) ∧
    ∃ k, (eval mute 6 ⟨0, 8⟩ ⟨[]⟩ ((adder.replaceParameters [fiveNode]).run 24).1).run (shelf 27) =
      some (.ok (.int 12), k) := by
  have hS : Coherent (nodesOf [adder, fiveNode]) 24 := coherent_nodesOf (by decide) (by decide)
  have hfree : adder.SparesFree := ⟨by decide, by decide⟩
  have hty : adder.TypesVariablesOnce :=
    Expr.typesVariablesOnce_of_eq (List.forall_mem_singleton.mpr rfl)
  have hreturns : adder.KeepsReturns [fiveNode] := by
    -- the type of the one lambda says what it returns
    have hnodes : adder.nodes = [adder, .mk 21 (.lambda [] (.mk 20 (.binary .add (outer .int) seven)
      .int)) (.func [] .int), .mk 20 (.binary .add (outer .int) seven) .int, outer .int, seven] := rfl
    intro n hn params body p hshape hnone
    rw [hnodes] at hn
    simp only [List.mem_cons, List.not_mem_nil, or_false] at hn
    rcases hn with rfl | rfl | rfl | rfl | rfl
    · cases hshape
    · cases hnone
    · cases hshape
    · cases hshape
    · cases hshape
  have hpool : ∀ t ∈ [fiveNode], t ∈ nodesOf [adder, fiveNode] :=
    List.forall_mem_singleton.mpr (mem_nodesOf (.tail _ List.mem_cons_self))
  have hexist : (shelf 27).ScopesExist := fun i c hc => nomatch hc
  refine ⟨rfl, ?_, _, rfl⟩
  exact replaceParameters_binds hS (mem_nodesOf List.mem_cons_self) hpool (by decide) hfree hty
    hreturns mute 6 ⟨0, 8⟩ hexist (List.forall_mem_nil _)

open Sample in
/-- A bare reference gives way to a constant of another type, and the closure returns `5` where it
returned nothing. -/
theorem constant_changes_return :
    Coherent (nodesOf [returner, fiveNode]) 24 ∧ returner.SparesFree ∧ returner.TypesVariablesOnce ∧
    returner.constantBindings [fiveNode] = [(⟨10, some "y", .int⟩, .int 5)] ∧
    (∃ k, (evalBinding mute 6 ⟨0, 8⟩ ⟨[]⟩ (returner.constantBindings [fiveNode]) returner).run
      (shelf 27) = some (.ok .void, k)) ∧
    ∃ k, (eval mute 6 ⟨0, 8⟩ ⟨[]⟩ ((returner.replaceParameters [fiveNode]).run 24).1).run (shelf 27) =
      some (.ok (.int 5), k) := by
  have hty : returner.TypesVariablesOnce :=
    Expr.typesVariablesOnce_of_eq (List.forall_mem_singleton.mpr rfl)
  exact ⟨coherent_nodesOf (by decide) (by decide), ⟨by decide, by decide⟩, hty, rfl, ⟨_, rfl⟩, _, rfl⟩

end CodeTree
