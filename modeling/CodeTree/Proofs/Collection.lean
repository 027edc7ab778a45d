import CodeTree.Proofs.ConstantSubstitution
import CodeTree.Proofs.Occurrence

/-!
# What stays free after a substitution

Trees without free variables take the place of free references. What stays free are the variables for
whose type there is no such tree (`Expr.Substituted.freeFrom`).

A substitution that collects goes on to put its own finds in: the first reference of a type for which
there is no tree joins the pool, and later references of the type give way to it. `Gathered` says what
such a substitution has in its pool after it has met some free variables, and `Gathers` that an action
keeps this up, with the variables of the trees it goes through; there is one step for a reference, one
for a node, and the rest is an induction over the tree.

Main statement: `free_after_replacement`.
-/

namespace CodeTree

/-! ## Variables by type -/

/-- Whether there is a tree that takes the place of references to a variable of this type. -/
def provides (pool : List Expr) (p : Param) : Bool := pool.any (·.ty == p.ty)

/-- The variables of a list for which there is no such tree. -/
def unprovided (pool : List Expr) (ps : List Param) : List Param := ps.filter fun p => !provides pool p

/-- The first variable of each type, in order. -/
def firstOfEachType : List Param → List Param
  | [] => []
  | p :: ps => p :: (firstOfEachType ps).filter fun q => !(q.ty == p.ty)

theorem firstOfEachType_concat (p : Param) (ps : List Param) : firstOfEachType (ps ++ [p]) =
    if ps.any (·.ty == p.ty) then firstOfEachType ps else firstOfEachType ps ++ [p] := by
  induction ps with
  | nil => rfl
  | cons q ps ih =>
    rw [List.cons_append, firstOfEachType, firstOfEachType, ih, List.any_cons]
    have hcomm : (p.ty == q.ty) = (q.ty == p.ty) := BEq.comm
    by_cases hqp : (q.ty == p.ty) = true
    · rw [hqp, Bool.true_or, if_pos rfl]
      split
      · rfl
      · rw [List.filter_append, List.filter_singleton, hcomm, hqp]
        exact congrArg (List.cons q) (List.append_nil _)
    · rw [Bool.not_eq_true] at hqp
      rw [hqp, Bool.false_or]
      split
      · rfl
      · rw [List.filter_append, List.filter_singleton, hcomm, hqp]
        rfl

theorem any_firstOfEachType (p : Param) (ps : List Param) :
    (firstOfEachType ps).any (·.ty == p.ty) = ps.any (·.ty == p.ty) := by
  induction ps with
  | nil => rfl
  | cons q ps ih =>
    rw [firstOfEachType, List.any_cons, List.any_cons, ← ih]
    by_cases hqp : (q.ty == p.ty) = true
    · rw [hqp, Bool.true_or, Bool.true_or]
    · rw [Bool.not_eq_true] at hqp
      rw [hqp, Bool.false_or, Bool.false_or, List.any_filter]
      refine List.any_congr rfl fun r => ?_
      by_cases hrp : (r.ty == p.ty) = true
      · rw [hrp, Bool.and_true, BEq.congr_left hrp, BEq.comm, hqp]
        rfl
      · rw [Bool.not_eq_true] at hrp
        rw [hrp, Bool.and_false]

/-- No two of them have the same type. -/
theorem pairwise_firstOfEachType (ps : List Param) :
    (firstOfEachType ps).Pairwise fun p q => (q.ty == p.ty) = false := by
  induction ps with
  | nil => exact .nil
  | cons p ps ih =>
    refine .cons (fun q hq => ?_) (ih.sublist List.filter_sublist)
    exact Bool.not_eq_true' _ ▸ (List.mem_filter.mp hq).2

theorem mem_of_mem_firstOfEachType {p : Param} {ps : List Param} (hp : p ∈ firstOfEachType ps) :
    p ∈ ps := by
  induction ps with
  | nil => exact hp
  | cons q ps ih =>
    rcases List.mem_cons.mp hp with rfl | hp
    · exact List.mem_cons_self
    · exact List.mem_cons_of_mem q (ih (List.mem_filter.mp hp).1)

/-! ## Walks for free variables -/

namespace Expr

/-- References have the types of the variables that they are to. -/
def TypesReferences (e : Expr) : Prop :=
  ∀ n ∈ e.nodes, ∀ p, n.shape = .parameter p → (n.ty == p.ty) = true

variable {e : Expr} {bound seen : List Param} {p : Param}

/-- A tree adds nothing to the variables that were met before if they include its free ones. -/
theorem freeFrom_eq_self (e : Expr) : ∀ {bound seen : List Param},
    (∀ p, e.Refers p bound → isAmong p seen) → e.freeFrom bound seen = seen := by
  induction e using Expr.induction with
  | step e ih =>
    intro bound seen h
    cases he : e.asParameter? with
    | some p =>
      rw [freeFrom_of_some he, if_pos]
      by_cases hbound : isAmong p bound = true
      · rw [hbound, Bool.true_or]
      · rw [h p ((refers_of_some he bound).mpr ⟨rfl, Bool.eq_false_iff.mpr hbound⟩), Bool.or_true]
    | none =>
      rw [freeFrom_of_none he]
      -- no child adds anything
      refine List.foldlRecOn e.children _ (motive := fun met => met = seen) rfl fun met hmet a ha => ?_
      rw [hmet]
      exact ih a ha fun p hp => h p ((refers_of_none he bound).mpr ⟨a, ha, hp⟩)

theorem freeFrom_of_closed {t : Expr} (h : t.freeParameters = []) (bound seen : List Param) :
    t.freeFrom bound seen = seen :=
  freeFrom_eq_self t fun _ hrefers => absurd hrefers (not_refers_of_closed h)

/-- A tree without free variables is not a reference. -/
theorem asParameter?_of_closed {t : Expr} (h : t.freeParameters = []) : t.asParameter? = none := by
  cases ht : t.asParameter? with
  | none => rfl
  | some q => exact absurd ((freeFrom_of_some ht [] []).symm.trans h) (List.cons_ne_nil q [])

/-- A walk meets variables that the trees name. -/
theorem names_of_mem_freeFromAll {root : Expr} {as : List Expr}
    (has : ∀ a ∈ as, ∀ n ∈ a.nodes, n ∈ root.nodes) (hseen : ∀ q ∈ seen, root.Names q) :
    ∀ q ∈ freeFromAll bound seen as, root.Names q := by
  refine List.foldlRecOn as _ (motive := fun met => ∀ q ∈ met, root.Names q) hseen
    fun met hmet a ha q hq => (mem_freeFrom a hq).elim (hmet q) fun h => ?_
  obtain ⟨n, hn, hshape⟩ := h
  exact ⟨n, has a ha n hn, hshape⟩

/-- A variable that was met has the type that it has elsewhere. -/
theorem TypesVariablesOnce.ty_eq_of_isAmong {root : Expr} (honce : root.TypesVariablesOnce)
    (hseen : ∀ q ∈ seen, root.Names q) (hp : root.Names p) (hamong : isAmong p seen) :
    ∃ q ∈ seen, q.id = p.id ∧ q.ty = p.ty := by
  obtain ⟨q, hq, hid⟩ := isAmong_iff.mp hamong
  obtain ⟨a, ha, haq⟩ := hseen q hq
  obtain ⟨b, hb, hbp⟩ := hp
  exact ⟨q, hq, hid, honce a ha b hb q p haq hbp hid⟩

end Expr

/-! ## Without collecting -/

section Unprovided

variable {root : Expr} (honce : root.TypesVariablesOnce) {pool : List Expr} {seen : List Param}
  {p : Param}

theorem unprovided_concat_of_provided (h : provides pool p = true) (ps : List Param) :
    unprovided pool (ps ++ [p]) = unprovided pool ps := by
  rw [unprovided, unprovided, List.filter_append, List.filter_singleton, h]
  exact List.append_nil _

theorem unprovided_concat_of_not (h : provides pool p = false) (ps : List Param) :
    unprovided pool (ps ++ [p]) = unprovided pool ps ++ [p] := by
  rw [unprovided, unprovided, List.filter_append, List.filter_singleton, h]
  rfl

include honce in
/-- For a variable for whose type there is no tree it makes no difference that others are left out. -/
theorem isAmong_unprovided (hseen : ∀ q ∈ seen, root.Names q) (hp : root.Names p)
    (hnone : provides pool p = false) :
    Expr.isAmong p (unprovided pool seen) = Expr.isAmong p seen := by
  rw [Bool.eq_iff_iff]
  refine ⟨fun h => ?_, fun h => ?_⟩
  · obtain ⟨q, hq, hid⟩ := Expr.isAmong_iff.mp h
    exact Expr.isAmong_iff.mpr ⟨q, (List.mem_filter.mp hq).1, hid⟩
  · obtain ⟨q, hq, hid, hty⟩ := honce.ty_eq_of_isAmong hseen hp h
    refine Expr.isAmong_iff.mpr ⟨q, List.mem_filter.mpr ⟨hq, ?_⟩, hid⟩
    rw [provides, hty]
    exact Bool.not_eq_true' _ ▸ hnone

theorem find?_of_provided (h : provides pool p = true) :
    ∃ tree, pool.find? (·.ty == p.ty) = some tree := by
  obtain ⟨tree, htree, hty⟩ := List.any_eq_true.mp h
  exact Option.isSome_iff_exists.mp (List.find?_isSome.mpr ⟨tree, htree, hty⟩)

theorem find?_of_not_provided (h : provides pool p = false) :
    pool.find? (·.ty == p.ty) = none := by
  refine List.find?_eq_none.mpr fun tree htree => ?_
  exact List.any_eq_false.mp h tree htree

/-- A tree without free variables is put in for every reference of its type. -/
theorem replacement_of_closed (hclosed : ∀ t ∈ pool, t.freeParameters = []) {e tree : Expr}
    (hfound : pool.find? (·.ty == p.ty) = some tree) : Expr.replacement pool e p = tree := by
  have htree := hclosed tree (List.mem_of_find?_eq_some hfound)
  rw [Expr.replacement, hfound]
  dsimp only
  rw [Expr.asParameter?_of_closed htree]
  exact if_neg Bool.false_ne_true

include honce in
/-- What takes the place of a reference adds the variable where there is no tree for it. -/
theorem freeFrom_replaced (hclosed : ∀ t ∈ pool, t.freeParameters = []) {e : Expr}
    (he : e.asParameter? = some p) (hp : root.Names p) (hseen : ∀ q ∈ seen, root.Names q)
    (bound : List Param) :
    (if Expr.isAmong p bound then e else Expr.replacement pool e p).freeFrom bound
        (unprovided pool seen) = unprovided pool (e.freeFrom bound seen) := by
  rw [Expr.freeFrom_of_some he]
  by_cases hbound : Expr.isAmong p bound = true
  · rw [if_pos hbound, Expr.freeFrom_of_some he, hbound, Bool.true_or, Bool.true_or, if_pos rfl,
      if_pos rfl]
  · rw [if_neg hbound]
    rw [Bool.not_eq_true] at hbound
    rw [hbound, Bool.false_or]
    by_cases hprovided : provides pool p = true
    · obtain ⟨tree, hfound⟩ := find?_of_provided hprovided
      rw [replacement_of_closed hclosed hfound,
        Expr.freeFrom_of_closed (hclosed tree (List.mem_of_find?_eq_some hfound))]
      split
      · rfl
      · exact (unprovided_concat_of_provided hprovided seen).symm
    · rw [Bool.not_eq_true] at hprovided
      rw [Expr.replacement, find?_of_not_provided hprovided, Expr.freeFrom_of_some he, hbound,
        Bool.false_or, isAmong_unprovided honce hseen hp hprovided]
      split
      · rfl
      · exact (unprovided_concat_of_not hprovided seen).symm

/-- Trees one after another, when each of them leaves out the variables for which there is a tree. -/
theorem freeFromAll_of_forall₂ {R : Expr → Expr → Prop} {bound : List Param} {as bs : List Expr}
    (h : List.Forall₂ R as bs) (hwithin : ∀ a ∈ as, ∀ n ∈ a.nodes, n ∈ root.nodes)
    (hR : ∀ a ∈ as, ∀ b, R a b → ∀ seen, (∀ q ∈ seen, root.Names q) →
      b.freeFrom bound (unprovided pool seen) = unprovided pool (a.freeFrom bound seen))
    (hseen : ∀ q ∈ seen, root.Names q) :
    Expr.freeFromAll bound (unprovided pool seen) bs =
      unprovided pool (Expr.freeFromAll bound seen as) := by
  induction h generalizing seen with
  | nil => rfl
  | @cons a b as bs hab _ ih =>
    rw [List.forall_mem_cons] at hwithin hR
    have hnamed : ∀ q ∈ Expr.freeFromAll bound seen [a], root.Names q :=
      Expr.names_of_mem_freeFromAll (List.forall_mem_singleton.mpr hwithin.1) hseen
    show Expr.freeFromAll _ (b.freeFrom _ _) bs = _
    rw [hR.1 b hab seen hseen]
    exact ih hwithin.2 hR.2 hnamed

include honce in
/-- What is free in a substituted tree: the variables for whose type there is no tree. -/
theorem Expr.Substituted.freeFrom (hclosed : ∀ t ∈ pool, t.freeParameters = []) (e : Expr) :
    ∀ {bound seen : List Param} {r : Expr}, (∀ n ∈ e.nodes, n ∈ root.nodes) →
      (∀ q ∈ seen, root.Names q) → e.Substituted pool bound r →
      r.freeFrom bound (unprovided pool seen) = unprovided pool (e.freeFrom bound seen) := by
  induction e using Expr.induction with
  | step e ih =>
    intro bound seen r hnodes hseen hr
    cases he : e.asParameter? with
    | some p =>
      have hp : root.Names p := ⟨e, hnodes e e.mem_nodes_self, shape_of_asParameter? he⟩
      rw [substituted_of_some he] at hr
      rw [hr]
      exact freeFrom_replaced honce hclosed he hp hseen bound
    | none =>
      have hkeeps := (substituted_of_none he bound r).mp hr
      have hbindings : r.bindings = e.bindings := hkeeps.shape.bindings_eq.symm
      have hchild : ∀ a ∈ e.children, ∀ n ∈ a.nodes, n ∈ root.nodes := fun a ha n hn =>
        hnodes n (mem_nodes_of_child ha hn)
      rw [freeFrom_of_none he, freeFrom_of_none (hkeeps.resembles.asParameter?.trans he), hbindings]
      exact freeFromAll_of_forall₂ hkeeps.shape.children hchild
        (fun a ha b hab seen hseen => ih a ha (hchild a ha) hseen hab) hseen

end Unprovided

/-! ## With collecting -/

/-- The variables to which a collecting substitution has found references, after it has met the free
variables `seen`: the first one of each type for which there is no tree. -/
def collected (pool : List Expr) (seen : List Param) : List Param :=
  firstOfEachType (unprovided pool seen)

section Collected

variable {pool : List Expr} {seen : List Param} {p : Param}

theorem collected_concat_of_provided (h : provides pool p = true) :
    collected pool (seen ++ [p]) = collected pool seen := by
  rw [collected, unprovided_concat_of_provided h]
  rfl

theorem collected_concat_of_met (h : provides pool p = false)
    (hmet : (collected pool seen).any (·.ty == p.ty) = true) :
    collected pool (seen ++ [p]) = collected pool seen := by
  rw [collected, any_firstOfEachType] at hmet
  rw [collected, unprovided_concat_of_not h, firstOfEachType_concat, if_pos hmet]
  rfl

theorem collected_concat_of_new (h : provides pool p = false)
    (hnew : (collected pool seen).any (·.ty == p.ty) = false) :
    collected pool (seen ++ [p]) = collected pool seen ++ [p] := by
  rw [collected, any_firstOfEachType] at hnew
  rw [collected, unprovided_concat_of_not h, firstOfEachType_concat, hnew]
  rfl

/-- A variable of a type that was not met is not met either. -/
theorem isAmong_eq_false_of_new {root : Expr} (honce : root.TypesVariablesOnce)
    (hseen : ∀ q ∈ seen, root.Names q) (hp : root.Names p) (h : provides pool p = false)
    (hnew : (collected pool seen).any (·.ty == p.ty) = false) : Expr.isAmong p seen = false := by
  rw [collected, any_firstOfEachType] at hnew
  by_contra hmet
  obtain ⟨q, hq, -, hty⟩ := honce.ty_eq_of_isAmong hseen hp ((Bool.not_eq_false _).mp hmet)
  refine List.any_eq_false.mp hnew q (List.mem_filter.mpr ⟨hq, ?_⟩) ?_
  · rw [provides, hty]
    exact Bool.not_eq_true' _ ▸ h
  · rw [hty]
    exact BEq.rfl

end Collected

namespace Substitution

/-- A substitution that collects in the tree `root`, in the state in which it stands below the
declarations `bound` and has met the free variables `seen`. It started with the trees `pool`. -/
def Gathered (root : Expr) (pool : List Expr) (bound seen : List Param) (s : Substitution) : Prop :=
  ∃ refs, s = ⟨pool ++ refs, true, bound⟩ ∧ (∀ n ∈ refs, n ∈ root.nodes) ∧
    refs.map Expr.asParameter? = (collected pool seen).map some

/-- An action of such a substitution goes through the trees `es` and gives those that `trees` lists. It
keeps up the state, and a walk through the trees that it gives meets what has been collected. -/
def Gathers (root : Expr) (pool : List Expr) (bound : List Param) (es : List Expr) {α : Type}
    (trees : α → List Expr) (x : Pass α) : Prop :=
  ∀ (S : Set Expr) (seen : List Param) (s : Substitution), (∀ n ∈ root.nodes, n ∈ S) →
    (∀ t ∈ pool, t ∈ S) → (∀ q ∈ seen, root.Names q) → Gathered root pool bound seen s →
    Make.Gives S (fun S' out => (∀ r ∈ trees out.1, r ∈ S') ∧
      Gathered root pool bound (Expr.freeFromAll bound seen es) out.2 ∧
      Expr.freeFromAll bound (collected pool seen) (trees out.1) =
        collected pool (Expr.freeFromAll bound seen es)) (x.run s)

variable {root : Expr} {pool : List Expr} {bound seen : List Param} {s : Substitution} {p : Param}
  {e : Expr}

/-! ### Traversals -/

namespace Gathers

/-- Trees one after another. -/
theorem mapM {f : Expr → Pass Expr} {as : List Expr} (hwithin : ∀ a ∈ as, ∀ n ∈ a.nodes, n ∈ root.nodes)
    (h : ∀ a ∈ as, Gathers root pool bound [a] (fun r => [r]) (f a)) :
    Gathers root pool bound as id (as.mapM f) := by
  induction as with
  | nil =>
    intro S seen s _ _ _ hs
    rw [List.mapM_nil]
    exact .pure ⟨List.forall_mem_nil _, hs, rfl⟩
  | cons a as ih =>
    intro S seen s hroot hpool hseen hs
    rw [List.forall_mem_cons] at hwithin h
    have hseen₁ : ∀ q ∈ Expr.freeFromAll bound seen [a], root.Names q :=
      Expr.names_of_mem_freeFromAll (List.forall_mem_singleton.mpr hwithin.1) hseen
    rw [List.mapM_cons]
    show Make.Gives S _ ((f a).run s >>= fun out => (as.mapM f).run out.2 >>= fun rest =>
      pure (out.1 :: rest.1, rest.2))
    refine (h.1 S seen s hroot hpool hseen hs).bind fun S₁ out h₁ hout => ?_
    obtain ⟨hr, hs₁, hfree₁⟩ := hout
    refine (ih hwithin.2 h.2 S₁ _ out.2 (fun n hn => h₁ (hroot n hn)) (fun t ht => h₁ (hpool t ht))
      hseen₁ hs₁).bind fun S₂ rest h₂ hrest => ?_
    obtain ⟨hrs, hs₂, hfree₂⟩ := hrest
    refine .pure ⟨List.forall_mem_cons.mpr ⟨?_, hrs⟩, hs₂, ?_⟩
    · exact h₂ (hr out.1 List.mem_cons_self)
    · show Expr.freeFromAll bound (Expr.freeFromAll bound (collected pool seen) [out.1]) rest.1 = _
      rw [hfree₁]
      exact hfree₂

/-- The children of a node. -/
theorem layer {f : Expr → Pass Expr} (h : Gathers root pool bound e.children id (e.children.mapM f)) :
    Gathers root pool bound e.children Shape.children (e.shape.mapM f) := by
  intro S seen s hroot hpool hseen hs
  have hchildren := h S seen s hroot hpool hseen hs
  rw [show e.children.mapM f = Shape.children <$> e.shape.mapM f from
    (Shape.children_mapM f e.shape).symm] at hchildren
  exact hchildren

/-- A node: its declarations stand around its children. -/
theorem rebuild {f : Expr → Pass Expr} (he : e ∈ root.nodes) (hnone : e.asParameter? = none)
    (h : Gathers root pool (e.bindings ++ bound) e.children Shape.children (e.shape.mapM f)) :
    Gathers root pool bound [e] (fun r => [r]) (rewriter.rebuild e (e.shape.map fun a => (a, f a))) := by
  intro S seen s hroot hpool hseen hs
  obtain ⟨refs, rfl, hrefs, hvariables⟩ := hs
  have hlike : ∀ next, Shape.Like Eq (fun _ _ _ => True) e.shape
      (((e.shape.mapM f).run ⟨pool ++ refs, true, e.bindings ++ bound⟩).run next).1.1 := by
    have hkeeping := Logic.mapM (L := keeping fun _ => True) (S := S) (R := fun _ _ _ => True)
      (fun _ _ _ _ _ _ => trivial) (s := e.shape) (f := f)
      fun a _ S' _ s _ next => ⟨trivial, S', subset_rfl, trivial⟩
    intro next
    obtain ⟨-, S', -, hlike⟩ := hkeeping _ trivial next
    exact hlike
  rw [rebuild_run]
  refine ((h S seen _ hroot hpool hseen ⟨refs, rfl, hrefs, hvariables⟩).and_always
    (P := fun out => Shape.Like Eq (fun _ _ _ => True) e.shape out.1) hlike).bind fun S₁ out h₁ hout => ?_
  obtain ⟨⟨hmem, hgathered, hfree⟩, hlayer⟩ := hout
  refine (Make.Gives.withLayer_children (h₁ (hroot e he)) hmem hlayer).bind fun S₂ r _ hr => ?_
  obtain ⟨hr, hresembles, hchildren⟩ := hr
  obtain ⟨refs', hout, hrefs', hvariables'⟩ := hgathered
  have hbindings : r.bindings = e.bindings := hresembles.shape.bindings_eq.symm
  have hwalk : Expr.freeFromAll bound seen [e] =
      Expr.freeFromAll (e.bindings ++ bound) seen e.children := Expr.freeFrom_of_none hnone bound seen
  refine .pure ⟨List.forall_mem_singleton.mpr hr, ⟨refs', ?_, hrefs', ?_⟩, ?_⟩
  · rw [hout, List.drop_left]
  · rw [hwalk]
    exact hvariables'
  · show r.freeFrom bound _ = _
    rw [Expr.freeFrom_of_none (hresembles.asParameter?.trans hnone), hbindings, hchildren, hwalk]
    exact hfree

end Gathers

/-! ### References -/

/-- The state depends on the variables that were met by those that were collected. -/
theorem Gathered.congr {seen' : List Param} (h : Gathered root pool bound seen s)
    (heq : collected pool seen' = collected pool seen) : Gathered root pool bound seen' s := by
  obtain ⟨refs, hs, hrefs, hvariables⟩ := h
  exact ⟨refs, hs, hrefs, hvariables.trans (congrArg (List.map some) heq.symm)⟩

/-- The tree `r` has taken the place of `e`, and the state is now `s`. -/
structure Replaced (root : Expr) (pool : List Expr) (bound seen : List Param) (e r : Expr)
    (s : Substitution) : Prop where
  origin : r ∈ root.nodes ∨ r ∈ pool
  state : Gathered root pool bound (e.freeFrom bound seen) s
  free : r.freeFrom bound (collected pool seen) = collected pool (e.freeFrom bound seen)

/-- A reference to a variable that adds nothing to the collection. -/
theorem collected_freeFrom (hp : e.asParameter? = some p)
    (h : collected pool (seen ++ [p]) = collected pool seen) (bound : List Param) :
    collected pool (e.freeFrom bound seen) = collected pool seen := by
  rw [Expr.freeFrom_of_some hp]
  split
  · rfl
  · exact h

/-- A reference that is declared stays. -/
theorem Replaced.of_bound (hs : Gathered root pool bound seen s) (he : e ∈ root.nodes)
    (hp : e.asParameter? = some p) (hbound : Expr.isAmong p bound = true) :
    Replaced root pool bound seen e e s := by
  have hskip : ∀ seen, e.freeFrom bound seen = seen := fun seen => by
    rw [Expr.freeFrom_of_some hp, hbound, Bool.true_or, if_pos rfl]
  refine ⟨.inl he, ?_, ?_⟩
  · rw [hskip]
    exact hs
  · rw [hskip, hskip]

/-- A reference gives way to a tree of the pool that the substitution started with. -/
theorem Replaced.of_provided (hs : Gathered root pool bound seen s) (hp : e.asParameter? = some p)
    (hprovided : provides pool p = true) {tree : Expr} (htree : tree ∈ pool)
    (hclosed : tree.freeParameters = []) : Replaced root pool bound seen e tree s := by
  have hsame : collected pool (e.freeFrom bound seen) = collected pool seen :=
    collected_freeFrom hp (collected_concat_of_provided hprovided) bound
  refine ⟨.inr htree, hs.congr hsame, ?_⟩
  rw [Expr.freeFrom_of_closed hclosed, hsame]

/-- A reference of a type that was met gives way to one to the collected variable. -/
theorem Replaced.of_met (hs : Gathered root pool bound seen s) (hp : e.asParameter? = some p)
    (hprovided : provides pool p = false) {r : Expr} (hr : r ∈ root.nodes) {p' q : Param}
    (hp' : r.asParameter? = some p') (hq : q ∈ collected pool seen) (hid : q.id = p'.id)
    (hty : (q.ty == p.ty) = true) : Replaced root pool bound seen e r s := by
  have hany : (collected pool seen).any (·.ty == p.ty) = true := List.any_eq_true.mpr ⟨q, hq, hty⟩
  have hsame : collected pool (e.freeFrom bound seen) = collected pool seen :=
    collected_freeFrom hp (collected_concat_of_met hprovided hany) bound
  refine ⟨.inl hr, hs.congr hsame, ?_⟩
  rw [Expr.freeFrom_of_some hp', Expr.isAmong_iff.mpr ⟨q, hq, hid⟩, Bool.or_true, if_pos rfl, hsame]

/-- The first reference of a type joins the pool. -/
theorem Replaced.of_new (hs : Gathered root pool bound seen s) (he : e ∈ root.nodes)
    (hp : e.asParameter? = some p) (hbound : Expr.isAmong p bound = false)
    (hprovided : provides pool p = false) (hunmet : Expr.isAmong p seen = false)
    (hnew : (collected pool seen).any (·.ty == p.ty) = false) :
    Replaced root pool bound seen e e { s with pool := s.pool ++ [e] } := by
  obtain ⟨refs, rfl, hrefs, hvariables⟩ := hs
  have hadded := collected_concat_of_new hprovided hnew
  have hfresh : Expr.isAmong p (collected pool seen) = false := by
    by_contra hmet
    obtain ⟨q, hq, hid⟩ := Expr.isAmong_iff.mp ((Bool.not_eq_false _).mp hmet)
    have hold : q ∈ seen := (List.mem_filter.mp (mem_of_mem_firstOfEachType hq)).1
    rw [Expr.isAmong_iff.mpr ⟨q, hold, hid⟩] at hunmet
    cases hunmet
  have hcounted : ∀ {seen}, Expr.isAmong p seen = false → e.freeFrom bound seen = seen ++ [p] := by
    intro seen h
    rw [Expr.freeFrom_of_some hp, hbound, h, Bool.or_false, if_neg Bool.false_ne_true]
  refine ⟨.inl he, ⟨refs ++ [e], ?_, ?_, ?_⟩, ?_⟩
  · rw [← List.append_assoc]
  · exact List.forall_mem_append.mpr ⟨hrefs, List.forall_mem_singleton.mpr he⟩
  · rw [hcounted hunmet, hadded, List.map_append, List.map_append, hvariables]
    exact congrArg _ (congrArg (fun o => [o]) hp)
  · rw [hcounted hunmet, hcounted hfresh, hadded]

/-- What a collecting substitution has for a variable: a tree of the pool that it started with, a
collected reference of its type, or nothing when no variable of its type was met. -/
theorem Gathered.find? (htyped : root.TypesReferences) (hs : Gathered root pool bound seen s)
    (p : Param) :
    (provides pool p = true ∧ ∃ tree ∈ pool, s.pool.find? (·.ty == p.ty) = some tree) ∨
    (provides pool p = false ∧ ∃ n ∈ root.nodes, ∃ q ∈ collected pool seen,
      n.asParameter? = some q ∧ (q.ty == p.ty) = true ∧ s.pool.find? (·.ty == p.ty) = some n) ∨
    (provides pool p = false ∧ (collected pool seen).any (·.ty == p.ty) = false ∧
      s.pool.find? (·.ty == p.ty) = none) := by
  obtain ⟨refs, rfl, hrefs, hvariables⟩ := hs
  simp only [List.find?_append]
  by_cases hprovided : provides pool p = true
  · obtain ⟨tree, hfound⟩ := find?_of_provided hprovided
    exact .inl ⟨hprovided, tree, List.mem_of_find?_eq_some hfound, by rw [hfound, Option.some_or]⟩
  · rw [Bool.not_eq_true] at hprovided
    rw [find?_of_not_provided hprovided, Option.none_or]
    cases hfound : refs.find? (·.ty == p.ty) with
    | some n =>
      have hn := List.mem_of_find?_eq_some hfound
      have hty : (n.ty == p.ty) = true := List.find?_some (p := fun t : Expr => t.ty == p.ty) hfound
      obtain ⟨q, hq, hnq⟩ := List.mem_map.mp (hvariables ▸ List.mem_map_of_mem hn)
      have hown := htyped n (hrefs n hn) q (Expr.shape_of_asParameter? hnq.symm)
      exact .inr (.inl ⟨hprovided, n, hrefs n hn, q, hq, hnq.symm, BEq.trans (BEq.symm hown) hty, rfl⟩)
    | none =>
      refine .inr (.inr ⟨hprovided, List.any_eq_false.mpr fun q hq hty => ?_, rfl⟩)
      -- there would be a reference to `q`
      obtain ⟨n, hn, hnq⟩ := List.mem_map.mp (hvariables ▸ List.mem_map_of_mem hq)
      have hown := htyped n (hrefs n hn) q (Expr.shape_of_asParameter? hnq)
      exact List.find?_eq_none.mp hfound n hn (BEq.trans hown hty)

section Gathering

variable (honce : root.TypesVariablesOnce) (htyped : root.TypesReferences)
  (hclosed : ∀ t ∈ pool, t.freeParameters = [])

include honce htyped hclosed

/-- One reference. -/
theorem Gathered.reference (hs : Gathered root pool bound seen s) (he : e ∈ root.nodes)
    (hp : e.asParameter? = some p) (hseen : ∀ q ∈ seen, root.Names q) :
    ∃ r s', (replaceReference e p).run s = pure (r, s') ∧ Replaced root pool bound seen e r s' := by
  have hstate : s.bound = bound ∧ s.collecting = true := by
    obtain ⟨refs, rfl, -⟩ := hs
    exact ⟨rfl, rfl⟩
  by_cases hbound : Expr.isAmong p bound = true
  · exact ⟨e, s, replaceReference_run_of_bound (hstate.1 ▸ hbound), .of_bound hs he hp hbound⟩
  · rw [Bool.not_eq_true] at hbound
    rcases hs.find? htyped p with hgiven | hmet | hnew
    · obtain ⟨hprovided, tree, htree, hfound⟩ := hgiven
      have hrun := replaceReference_run_of_found (e := e) (hstate.1 ▸ hbound) hfound
      rw [Expr.asParameter?_of_closed (hclosed tree htree)] at hrun
      exact ⟨tree, s, hrun, .of_provided hs hp hprovided htree (hclosed tree htree)⟩
    · obtain ⟨hprovided, n, hn, q, hq, hnq, hty, hfound⟩ := hmet
      have hrun := replaceReference_run_of_found (e := e) (hstate.1 ▸ hbound) hfound
      by_cases hself : (n.asParameter? == some p) = true
      · have hid : q.id = p.id := Param.beq_iff.mp (by rwa [hnq] at hself)
        rw [if_pos hself] at hrun
        exact ⟨e, s, hrun, .of_met hs hp hprovided he hp hq hid hty⟩
      · rw [if_neg hself] at hrun
        exact ⟨n, s, hrun, .of_met hs hp hprovided hn hnq hq rfl hty⟩
    · obtain ⟨hprovided, hnone, hmissing⟩ := hnew
      have hnames : root.Names p := ⟨e, he, Expr.shape_of_asParameter? hp⟩
      have hunmet := isAmong_eq_false_of_new honce hseen hnames hprovided hnone
      have hrun := replaceReference_run_of_missing (e := e) (hstate.1 ▸ hbound) hmissing
      rw [if_pos hstate.2] at hrun
      exact ⟨e, _, hrun, .of_new hs he hp hbound hprovided hunmet hnone⟩

/-- A whole tree. -/
theorem rewrite_gathers (e : Expr) : ∀ {bound : List Param}, (∀ n ∈ e.nodes, n ∈ root.nodes) →
    Gathers root pool bound [e] (fun r => [r]) (rewriter.rewrite e) := by
  induction e using Expr.induction with
  | step e ih =>
    intro bound hwithin
    have he : e ∈ root.nodes := hwithin e e.mem_nodes_self
    cases hp : e.asParameter? with
    | some p =>
      intro S seen s hroot hpool hseen hs
      obtain ⟨r, s', hrun, hmet⟩ := hs.reference honce htyped hclosed he hp hseen
      rw [rewrite_of_some hp, hrun]
      refine .pure ⟨List.forall_mem_singleton.mpr ?_, hmet.state, hmet.free⟩
      exact hmet.origin.elim (hroot r) (hpool r)
    | none =>
      have hchild : ∀ a ∈ e.children, ∀ n ∈ a.nodes, n ∈ root.nodes := fun a ha n hn =>
        hwithin n (Expr.mem_nodes_of_child ha hn)
      rw [rewrite_of_none hp]
      exact .rebuild he hp (.layer (.mapM hchild fun a ha => ih a ha (hchild a ha)))

end Gathering

end Substitution

/-- What stays free when trees without free variables are put in.

* The variables for whose type there is no tree stay free, in the order in which they were.
* Of these, a substitution that collects leaves the first one of each type free, and no two of one type.
  Its pool holds a reference to each of them then, taken from the tree, after the trees that it
  started with. -/
theorem free_after_replacement {S : Set Expr} {next : Nat} (hS : Coherent S next) {e : Expr}
    (he : e ∈ S) {pool : List Expr} (hpool : ∀ t ∈ pool, t ∈ S)
    (hclosed : ∀ t ∈ pool, t.freeParameters = []) (honce : e.TypesVariablesOnce)
    (htyped : e.TypesReferences) :
    ((e.replaceParameters pool).run next).1.freeParameters = unprovided pool e.freeParameters ∧
      let out := (((Substitution.replace e).run ⟨pool, true, []⟩).run next).1
      out.1.freeParameters = firstOfEachType (unprovided pool e.freeParameters) ∧
        (out.1.freeParameters.Pairwise fun p q => (q.ty == p.ty) = false) ∧
        ∃ refs, out.2 = ⟨pool ++ refs, true, []⟩ ∧ (∀ n ∈ refs, n ∈ e.nodes) ∧
          refs.map Expr.asParameter? = out.1.freeParameters.map some := by
  refine ⟨?_, ?_⟩
  · obtain ⟨-, -, -, -, -, hsubstituted⟩ := Expr.replaceParameters_gives he hpool next hS
    exact hsubstituted.freeFrom honce hclosed e (fun _ hn => hn) (List.forall_mem_nil _)
  · have hstart : Substitution.Gathered e pool [] [] ⟨pool, true, []⟩ :=
      ⟨[], by rw [List.append_nil], List.forall_mem_nil _, rfl⟩
    have hgathers : Substitution.Gathers e pool [] [e] (fun r => [r])
        (Substitution.rewriter.rewrite e) :=
      Substitution.rewrite_gathers honce htyped hclosed e fun _ hn => hn
    obtain ⟨-, -, -, -, -, hgathered, hfree⟩ :=
      hgathers S [] _ (hS.nodes_mem e he) hpool (List.forall_mem_nil _) hstart next hS
    have hrun : (Substitution.replace e).run ⟨pool, true, []⟩ =
        (Substitution.rewriter.rewrite e).run ⟨pool, true, []⟩ := by
      rw [Substitution.replace_run, Bool.not_true, Bool.and_false, if_neg Bool.false_ne_true]
    intro out
    have hout : out.1.freeParameters = firstOfEachType (unprovided pool e.freeParameters) := by
      show (((Substitution.replace e).run _).run next).1.1.freeParameters = _
      rw [hrun]
      exact hfree
    obtain ⟨refs, hstate, hrefs, hvariables⟩ := hgathered
    rw [← hrun] at hstate
    refine ⟨hout, ?_, refs, hstate, hrefs, ?_⟩
    · rw [hout]
      exact pairwise_firstOfEachType _
    · rw [hout]
      exact hvariables

namespace Sample

/-- Refers to a variable of one type and to two of another. -/
def threeVariables : Expr :=
  .mk 26 (.block [] [.mk 24 (.parameter closureVar) .int, outer .float,
    .mk 25 (.parameter ⟨27, some "z", .float⟩) .float]) .float

end Sample

open Sample in
/-- The integer is put in for the first variable. When the substitution collects, the second variable
takes the place of the third. -/
theorem second_variable_collected :
    ((threeVariables.replaceParameters [seven]).run 28).1.freeParameters =
        [⟨10, some "y", .float⟩, ⟨27, some "z", .float⟩] ∧
      let out := (((Substitution.replace threeVariables).run ⟨[seven], true, []⟩).run 28).1
      out.1.freeParameters = [⟨10, some "y", .float⟩] ∧ out.2 = ⟨[seven, outer .float], true, []⟩ := by
  have hS : Coherent (nodesOf [threeVariables, seven]) 28 := coherent_nodesOf (by decide) (by decide)
  have hpool : ∀ t ∈ [seven], t ∈ nodesOf [threeVariables, seven] :=
    List.forall_mem_singleton.mpr (mem_nodesOf (.tail _ (.head _)))
  have hclosed : ∀ t ∈ [seven], t.freeParameters = [] := List.forall_mem_singleton.mpr rfl
  have hnodes : threeVariables.nodes = [threeVariables, .mk 24 (.parameter closureVar) .int,
      outer .float, .mk 25 (.parameter ⟨27, some "z", .float⟩) .float] := rfl
  have honce : threeVariables.TypesVariablesOnce := Expr.typesVariablesOnce_of_nodup (by decide)
  have htyped : threeVariables.TypesReferences := by
    intro n hn p hp
    rw [hnodes] at hn
    simp only [List.mem_cons, List.not_mem_nil, or_false] at hn
    rcases hn with rfl | rfl | rfl | rfl
    · cases hp
    · cases hp
      rfl
    · cases hp
      rfl
    · cases hp
      rfl
  obtain ⟨hreplaced, hcollecting, -, -, -, -, -⟩ :=
    free_after_replacement hS (mem_nodesOf List.mem_cons_self) hpool hclosed honce htyped
  exact ⟨hreplaced, hcollecting, rfl⟩

end CodeTree
