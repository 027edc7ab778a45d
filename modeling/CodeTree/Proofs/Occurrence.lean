import CodeTree.Proofs.Description

/-!
# Where a substitution changes a tree

The nodes of a tree are named by the paths that lead to them from the root. `Expr.replacedAt?` says
which tree a pool puts in the place of such a node: none, unless the node is a reference to a variable
that no node above it declares, the pool has a tree of the variable's type, and the first one is not a
reference to the same variable.

A substituted tree differs from the tree it was made of at these places and nowhere else
(`Expr.Substituted.eq_of_replacedAt?`, `Expr.Substituted.resembles`), and a part in which there are none
is the identical part (`Expr.Substituted.eq_iff`). A substitution comes back from every tree in the
state it went in with (`Substitution.Used.eq`), so that it makes no difference what it was used for
before. Nor does it find anything to replace in what it has made, if the trees that it puts in have no
free variables or are bare references (`Expr.Substituted.spared`).

Main statements: `replacement_is_exact` and `replacement_is_idempotent`.
-/

namespace CodeTree

namespace Expr

/-! ## Paths -/

/-- The node at the end of a path, which says at each node which child to go to. -/
def subtreeAt : Expr → List Nat → Option Expr
  | e, [] => some e
  | e, i :: path => e.children[i]?.bind fun a => a.subtreeAt path

/-- The variables that the nodes above the end of a path declare. -/
def declaredAlong : Expr → List Nat → List Param
  | _, [] => []
  | e, i :: path => ((e.children[i]?.map fun a => a.declaredAlong path).getD []) ++ e.bindings

variable {e n : Expr} {i : Nat} {path : List Nat}

theorem subtreeAt_cons_eq_some : e.subtreeAt (i :: path) = some n ↔
    ∃ a, e.children[i]? = some a ∧ a.subtreeAt path = some n :=
  Option.bind_eq_some_iff

theorem declaredAlong_cons {a : Expr} (ha : e.children[i]? = some a) (path : List Nat) :
    e.declaredAlong (i :: path) = a.declaredAlong path ++ e.bindings := by
  rw [declaredAlong, ha]
  rfl

theorem subtreeAt_append (e : Expr) (path path' : List Nat) :
    e.subtreeAt (path ++ path') = (e.subtreeAt path).bind fun n => n.subtreeAt path' := by
  induction path generalizing e with
  | nil => rfl
  | cons i path ih =>
    rw [List.cons_append, subtreeAt, subtreeAt]
    cases e.children[i]? with
    | none => rfl
    | some a => exact ih a

theorem declaredAlong_append (h : e.subtreeAt path = some n) (path' : List Nat) :
    e.declaredAlong (path ++ path') = n.declaredAlong path' ++ e.declaredAlong path := by
  induction path generalizing e with
  | nil =>
    cases h
    rw [List.nil_append, declaredAlong, List.append_nil]
  | cons i path ih =>
    obtain ⟨a, ha, hn⟩ := subtreeAt_cons_eq_some.mp h
    rw [List.cons_append, declaredAlong_cons ha, declaredAlong_cons ha, ih hn, List.append_assoc]

/-! ## Replaced references -/

variable {pool : List Expr} {bound : List Param} {r : Expr}

/-- What takes the place of references to a variable below the declarations `bound`. -/
def substitute? (pool : List Expr) (bound : List Param) (p : Param) : Option Expr :=
  if isAmong p bound then none
  else (pool.find? (·.ty == p.ty)).filter fun tree => !(tree.asParameter? == some p)

/-- What takes the place of the node at the end of a path in a tree below the declarations
`bound`. -/
def replacedAt? (pool : List Expr) (bound : List Param) (e : Expr) (path : List Nat) : Option Expr :=
  ((e.subtreeAt path).bind asParameter?).bind (substitute? pool (e.declaredAlong path ++ bound))

theorem substitute?_getD (pool : List Expr) (bound : List Param) (e : Expr) (p : Param) :
    (if isAmong p bound then e else replacement pool e p) = (substitute? pool bound p).getD e := by
  unfold substitute? replacement
  by_cases hbound : isAmong p bound = true
  · rw [if_pos hbound, if_pos hbound]
    rfl
  · rw [if_neg hbound, if_neg hbound]
    cases pool.find? (·.ty == p.ty) with
    | none => rfl
    | some tree =>
      by_cases hself : (tree.asParameter? == some p) = true <;> simp [Option.filter, hself]

/-- A reference does not give way to a reference to the same variable. -/
theorem ne_of_substitute? {p : Param} {tree : Expr} (h : substitute? pool bound p = some tree)
    {q : Param} (hq : tree.asParameter? = some q) : (q == p) = false := by
  unfold substitute? at h
  split at h
  · cases h
  · have hnot := (Option.filter_eq_some_iff.mp h).2
    rw [hq, Bool.not_eq_true'] at hnot
    exact hnot

theorem replacedAt?_append (h : e.subtreeAt path = some n) (path' : List Nat) :
    e.replacedAt? pool bound (path ++ path') =
      n.replacedAt? pool (e.declaredAlong path ++ bound) path' := by
  rw [replacedAt?, replacedAt?, subtreeAt_append, h, declaredAlong_append h, List.append_assoc]
  rfl

namespace Substituted

/-- What stands at the end of a path has become of what stood there. -/
theorem subtreeAt (h : e.Substituted pool bound r) (hn : e.subtreeAt path = some n) :
    ∃ n', r.subtreeAt path = some n' ∧
      n.Substituted pool (e.declaredAlong path ++ bound) n' := by
  induction path generalizing e r bound with
  | nil =>
    cases hn
    exact ⟨r, rfl, h⟩
  | cons i path ih =>
    obtain ⟨a, ha, hn⟩ := subtreeAt_cons_eq_some.mp hn
    cases he : e.asParameter? with
    | some p =>
      -- a reference has no children
      have hmem := (mem_children (shape_of_asParameter? he)).mp (List.mem_of_getElem? ha)
      cases hmem
    | none =>
      have hkeeps := (substituted_of_none he bound r).mp h
      obtain ⟨b, hb, hab⟩ := exists_getElem?_of_forall₂ hkeeps.shape.children ha
      obtain ⟨n', hn', hsub⟩ := ih hab hn
      rw [declaredAlong_cons ha, List.append_assoc]
      exact ⟨n', subtreeAt_cons_eq_some.mpr ⟨b, hb, hn'⟩, hsub⟩

theorem replacedAt?_nil (e : Expr) :
    e.replacedAt? pool bound [] = e.asParameter?.bind (substitute? pool bound) := rfl

/-- A reference that is replaced gives way to what the pool has for it. -/
theorem eq_of_replacedAt? (h : e.Substituted pool bound r) {t : Expr}
    (ht : e.replacedAt? pool bound [] = some t) : r = t := by
  obtain ⟨p, hp, ht⟩ := Option.bind_eq_some_iff.mp (replacedAt?_nil e ▸ ht)
  rw [substituted_of_some hp, substitute?_getD, ht] at h
  exact h

/-- A node that is not replaced keeps its layer and its type. -/
theorem resembles (h : e.Substituted pool bound r) (hnone : e.replacedAt? pool bound [] = none) :
    e.Resembles r := by
  cases hp : e.asParameter? with
  | none => exact ((substituted_of_none hp bound r).mp h).resembles
  | some p =>
    rw [replacedAt?_nil, hp, Option.bind_some] at hnone
    rw [substituted_of_some hp, substitute?_getD, hnone] at h
    rw [show r = e from h]
    exact ⟨rfl, Shape.like_self (fun _ _ => rfl) fun _ _ _ => trivial⟩

/-- A tree in which nothing is replaced stays. -/
theorem eq_of_not_replaced (e : Expr) : ∀ {bound : List Param} {r : Expr},
    e.Substituted pool bound r → (∀ path, e.replacedAt? pool bound path = none) → r = e := by
  induction e using Expr.induction with
  | step e ih =>
    intro bound r h hnone
    cases hp : e.asParameter? with
    | some p =>
      have hroot := hnone []
      rw [replacedAt?_nil, hp, Option.bind_some] at hroot
      rw [substituted_of_some hp, substitute?_getD, hroot] at h
      exact h
    | none =>
      refine ((substituted_of_none hp bound r).mp h).eq fun a ha b hab => (ih a ha hab ?_).symm
      obtain ⟨i, hi⟩ := List.mem_iff_getElem?.mp ha
      intro path
      have hchild : e.subtreeAt [i] = some a := subtreeAt_cons_eq_some.mpr ⟨a, hi, rfl⟩
      have hthere := hnone ([i] ++ path)
      rw [replacedAt?_append hchild, declaredAlong_cons hi] at hthere
      exact hthere

/-- A tree stays exactly when nothing in it is replaced. -/
theorem eq_iff (h : e.Substituted pool bound r) :
    r = e ↔ ∀ path, e.replacedAt? pool bound path = none := by
  refine ⟨fun heq path => ?_, eq_of_not_replaced e h⟩
  subst heq
  by_contra hsome
  obtain ⟨t, ht⟩ := Option.ne_none_iff_exists'.mp hsome
  -- the tree that is put in would be the reference that it is put in for
  obtain ⟨p, hp, hsubstitute⟩ := Option.bind_eq_some_iff.mp ht
  obtain ⟨n, hn, hp⟩ := Option.bind_eq_some_iff.mp hp
  obtain ⟨n', hn', hsub⟩ := h.subtreeAt hn
  obtain rfl : n = n' := Option.some.inj (hn.symm.trans hn')
  rw [substituted_of_some hp, substitute?_getD, hsubstitute] at hsub
  obtain rfl : n = t := hsub
  have hself := ne_of_substitute? hsubstitute hp
  rw [Param.beq_iff.mpr rfl] at hself
  cases hself

end Substituted

end Expr

/-! ## Substitutions that were used before -/

namespace Substitution

/-- The logic of a pass that keeps a property of its state. -/
def keeping (I : Substitution → Prop) : Logic Pass where
  Gives S Q x := ∀ s, I s → ∀ next, I ((x.run s).run next).1.2 ∧
    ∃ S', S ⊆ S' ∧ Q S' ((x.run s).run next).1.1
  pure h s hs next := ⟨hs, _, subset_rfl, h⟩
  bind h hf s hs next := by
    obtain ⟨hs₁, S₁, h₁, hQ⟩ := h s hs next
    obtain ⟨hs₂, S₂, h₂, hT⟩ := hf S₁ _ h₁ hQ _ hs₁ _
    exact ⟨hs₂, S₂, h₁.trans h₂, hT⟩

/-- A pass that does not collect comes back to the state it started in. -/
theorem rewrite_state (e : Expr) : ∀ {s : Substitution}, s.collecting = false → ∀ next,
    (((rewriter.rewrite e).run s).run next).1.2 = s := by
  induction e using Expr.induction with
  | step e ih =>
    intro s hs next
    obtain ⟨pool, collecting, bound⟩ := s
    obtain rfl : collecting = false := hs
    cases he : e.asParameter? with
    | some p =>
      rw [rewrite_of_some he, replaceReference_run]
      rfl
    | none =>
      have hlayer := Logic.mapM (L := keeping (· = ⟨pool, false, e.bindings ++ bound⟩)) (S := ∅)
        (R := fun _ _ _ => True) (fun _ _ _ _ _ _ => trivial) (s := e.shape)
        (f := rewriter.rewrite) fun a ha S' _ s hs next => by
          subst hs
          exact ⟨ih a ha rfl next, S', subset_rfl, trivial⟩
      have hstate := (hlayer _ rfl next).1
      rw [rewrite_of_none he, rebuild_run]
      generalize (e.shape.mapM rewriter.rewrite).run ⟨pool, false, e.bindings ++ bound⟩ = x at hstate
      show Substitution.mk (x.run next).1.2.pool (x.run next).1.2.collecting
        ((x.run next).1.2.bound.drop e.bindings.length) = _
      rw [hstate, List.drop_left]

/-- What becomes of a substitution by use, on any trees and at any times. -/
inductive Used (start : Substitution) : Substitution → Prop
  | unused : Used start start
  | again {s : Substitution} (h : Used start s) (e : Expr) (next : Nat) :
    Used start (((replace e).run s).run next).1.2

theorem replace_run (e : Expr) (s : Substitution) : (replace e).run s =
    if s.pool.isEmpty && !s.collecting then pure (e, s) else (rewriter.rewrite e).run s := by
  rw [replace, StateT.run_bind, StateT.run_get, pure_bind]
  change StateT.run (ite ((s.pool.isEmpty && !s.collecting) = true) _ _) s = _
  split <;> rfl

theorem replace_state {s : Substitution} (hs : s.collecting = false) (e : Expr) (next : Nat) :
    (((replace e).run s).run next).1.2 = s := by
  rw [replace_run]
  split
  · rfl
  · exact rewrite_state e hs next

/-- A substitution that does not collect can be used any number of times. -/
theorem Used.eq {start s : Substitution} (h : Used start s) (hstart : start.collecting = false) :
    s = start := by
  induction h with
  | unused => rfl
  | again h e next ih => rw [ih, replace_state hstart]

end Substitution

/-! ## Exactness -/

theorem Expr.mem_nodes_of_subtreeAt {path : List Nat} : ∀ {e n : Expr},
    e.subtreeAt path = some n → n ∈ e.nodes := by
  induction path with
  | nil =>
    intro e n h
    cases h
    exact e.mem_nodes_self
  | cons i path ih =>
    intro e n h
    obtain ⟨a, ha, hn⟩ := Expr.subtreeAt_cons_eq_some.mp h
    exact Expr.mem_nodes_of_child (List.mem_of_getElem? ha) (ih hn)

/-- What a substitution makes of a tree, node by node, whatever the substitution was used for before.
At the end of each path stands

* the tree that takes the place of the node there, if it is replaced;
* a node of the same type with the same layer but for its children, if it is not;
* the identical node exactly when nothing is replaced in the part of the tree below. -/
theorem replacement_is_exact {S : Set Expr} {next : Nat} (hS : Coherent S next) {e : Expr}
    (he : e ∈ S) {pool : List Expr} (hpool : ∀ t ∈ pool, t ∈ S) {s : Substitution}
    (hs : Substitution.Used ⟨pool, false, []⟩ s) {path : List Nat} {n : Expr}
    (hn : e.subtreeAt path = some n) :
    ∃ n', (((Substitution.replace e).run s).run next).1.1.subtreeAt path = some n' ∧
      (∀ tree, e.replacedAt? pool [] path = some tree → n' = tree) ∧
      (e.replacedAt? pool [] path = none → n.Resembles n') ∧
      (n'.isIdentical n ↔ ∀ path', e.replacedAt? pool [] (path ++ path') = none) := by
  obtain rfl := hs.eq rfl
  obtain ⟨-, S', hsub, hS', -, hr, hsubstituted⟩ := Substitution.Gives.replace he hpool next hS
  obtain ⟨n', hn', hthere⟩ := hsubstituted.subtreeAt hn
  have hreplaced : ∀ path', e.replacedAt? pool [] (path ++ path') =
      n.replacedAt? pool (e.declaredAlong path ++ []) path' := fun path' =>
    Expr.replacedAt?_append hn path'
  have hroot := hreplaced []
  rw [List.append_nil] at hroot
  have hidentical : n'.isIdentical n ↔ n' = n := by
    refine ⟨fun h => hS'.unique n' ?_ n ?_ (beq_iff_eq.mp h), fun h => ?_⟩
    · exact hS'.nodes_mem _ hr n' (Expr.mem_nodes_of_subtreeAt hn')
    · exact hS'.nodes_mem e (hsub he) n (Expr.mem_nodes_of_subtreeAt hn)
    · rw [h]
      exact beq_self_eq_true n.id
  refine ⟨n', hn', fun tree htree => ?_, fun hnone => ?_, ?_⟩
  · exact hthere.eq_of_replacedAt? (hroot.symm.trans htree)
  · exact hthere.resembles (hroot.symm.trans hnone)
  · rw [hidentical, hthere.eq_iff]
    simp only [hreplaced]

namespace Sample

/-- Declares the variable that the sample references are to, and refers to it. -/
def redeclaring : Expr :=
  .mk 16 (.block [⟨10, some "y", .int⟩] [.mk 15 (.parameter ⟨10, some "y", .int⟩) .int]) .int

/-- Refers to a variable that the right operand declares once more. -/
def shadowing : Expr := .mk 17 (.binary .add (outer .int) redeclaring) .int

end Sample

open Sample in
/-- A substitution that was used on another tree before replaces the free reference on the left, and
nothing on the right, where the variable is declared. -/
theorem shadowed_reference_stays :
    (((Substitution.replace shadowing).run
      (((Substitution.replace floored).run ⟨[seven], false, []⟩).run 18).1.2).run 18).1.1.subtreeAt [0] =
        some seven ∧
    ∀ path', shadowing.replacedAt? [seven] [] ([1] ++ path') = none := by
  have hS : Coherent (nodesOf [shadowing, seven]) 18 := coherent_nodesOf (by decide) (by decide)
  have hpool : ∀ t ∈ [seven], t ∈ nodesOf [shadowing, seven] :=
    List.forall_mem_singleton.mpr (mem_nodesOf (.tail _ (.head _)))
  have hused : Substitution.Used ⟨[seven], false, []⟩ _ := .again .unused floored 18
  have hleft : shadowing.subtreeAt [0] = some (outer .int) := rfl
  have hright : shadowing.subtreeAt [1] = some redeclaring := rfl
  obtain ⟨n', hn', hreplaced, -, -⟩ :=
    replacement_is_exact hS (mem_nodesOf List.mem_cons_self) hpool hused hleft
  obtain ⟨n'', hn'', -, -, hstays⟩ :=
    replacement_is_exact hS (mem_nodesOf List.mem_cons_self) hpool hused hright
  refine ⟨hn'.trans (congrArg some (hreplaced seven rfl)), hstays.mp ?_⟩
  cases hn''
  rfl

/-! ## Idempotence -/

namespace Expr

/-- A tree without free variables, or a bare reference that has the type of its variable. -/
def IsSettled (t : Expr) : Prop :=
  t.freeParameters = [] ∨ ∃ q, t.asParameter? = some q ∧ (t.ty == q.ty) = true

theorem not_refers_of_closed {t : Expr} (h : t.freeParameters = []) {q : Param} {bound : List Param} :
    ¬t.Refers q bound := by
  intro hrefers
  have hfree : t.Refers q [] := hrefers.of_subset t fun q hq => absurd hq Bool.false_ne_true
  have hcounted : isAmong q t.freeParameters := isAmong_freeFrom t (.inr hfree)
  rw [h] at hcounted
  exact absurd hcounted Bool.false_ne_true

variable {pool : List Expr}

/-- References to variables of one type are looked up alike. -/
theorem find?_eq_of_beq {p q : Param} (h : (p.ty == q.ty) = true) (pool : List Expr) :
    pool.find? (·.ty == p.ty) = pool.find? (·.ty == q.ty) :=
  congrArg (fun test => pool.find? test) (funext fun _ => BEq.congr_right h)

/-- What is put in holds no reference that would be replaced in its turn. -/
theorem spared_of_replacement (hpool : ∀ t ∈ pool, t.IsSettled) {e : Expr} {p q : Param}
    (he : e.asParameter? = some p) {bound : List Param}
    (hq : (replacement pool e p).Refers q bound) : Spared pool q := by
  have hself : e.Refers q bound → p = q := fun h => ((refers_of_some he bound).mp h).1
  cases hfound : pool.find? (·.ty == p.ty) with
  | none =>
    rw [replacement, hfound] at hq
    rw [← hself hq]
    intro tree htree
    rw [hfound] at htree
    cases htree
  | some tree =>
    have hty : (tree.ty == p.ty) = true := List.find?_some (p := fun t : Expr => t.ty == p.ty) hfound
    rw [replacement, hfound] at hq
    dsimp only at hq
    split at hq
    next hown =>
      rw [← hself hq]
      intro tree' htree'
      obtain rfl : tree = tree' := Option.some.inj (hfound.symm.trans htree')
      exact hown
    next =>
      rcases hpool tree (List.mem_of_find?_eq_some hfound) with hclosed | hbare
      · exact absurd hq (not_refers_of_closed hclosed)
      · obtain ⟨p', hp', hty'⟩ := hbare
        obtain rfl : p' = q := ((refers_of_some hp' bound).mp hq).1
        -- the reference that is put in is found by its own type
        have hsame : (p.ty == p'.ty) = true := BEq.trans (BEq.symm hty) hty'
        intro tree' htree'
        rw [← find?_eq_of_beq hsame, hfound] at htree'
        obtain rfl : tree = tree' := Option.some.inj htree'
        rw [hp']
        exact Param.beq_iff.mpr rfl

/-- A substituted tree holds no reference that would be replaced. -/
theorem Substituted.spared (hpool : ∀ t ∈ pool, t.IsSettled) (e : Expr) :
    ∀ {bound : List Param} {r : Expr}, e.Substituted pool bound r →
      ∀ q, r.Refers q bound → Spared pool q := by
  induction e using Expr.induction with
  | step e ih =>
    intro bound r hr q hq
    cases he : e.asParameter? with
    | some p =>
      rw [substituted_of_some he] at hr
      subst hr
      split at hq
      next hbound =>
        have hunbound := ((refers_of_some he bound).mp hq).2
        rw [hbound] at hunbound
        cases hunbound
      next => exact spared_of_replacement hpool he hq
    | none =>
      have hkeeps := (substituted_of_none he bound r).mp hr
      rw [refers_of_none (hkeeps.resembles.asParameter?.trans he)] at hq
      obtain ⟨b, hb, hq⟩ := hq
      obtain ⟨a, ha, hab⟩ := exists_left_of_forall₂ hkeeps.shape.children b hb
      have hbindings : r.bindings = e.bindings := hkeeps.shape.bindings_eq.symm
      rw [hbindings] at hq
      exact ih a ha hab q hq

end Expr

/-- Replacing parameters once more, with the same trees, gives the identical tree, when each of them has
no free variables or is a bare reference: nothing that was put in is taken for a reference that is
still to be replaced, also not where a declaration around it has caught it. -/
theorem replacement_is_idempotent {S : Set Expr} {next : Nat} (hS : Coherent S next) {e : Expr}
    (he : e ∈ S) {pool : List Expr} (hpool : ∀ t ∈ pool, t ∈ S) (hsettled : ∀ t ∈ pool, t.IsSettled) :
    let first := (e.replaceParameters pool).run next
    ∀ next', first.2 ≤ next' → ((first.1.replaceParameters pool).run next').1 = first.1 := by
  intro first next' hnext'
  obtain ⟨-, S₁, hsub, hS₁, hr, hfirst⟩ := Expr.replaceParameters_gives he hpool next hS
  obtain ⟨-, -, -, -, -, hsecond⟩ :=
    Expr.replaceParameters_gives hr (fun t ht => hsub (hpool t ht)) next' (hS₁.mono hnext')
  exact hsecond.eq first.1 (hfirst.spared hsettled e)

namespace Sample

/-- A block that refers to a variable and declares another one of its type. -/
def catching (body : Expr) : Expr := .mk 19 (.block [⟨10, some "y", .int⟩] [body]) .int

end Sample

open Sample in
/-- The reference that is put in is to the variable that the block declares. It stays the second
time. -/
theorem caught_reference_stays :
    let first := ((catching (.mk 18 (.parameter closureVar) .int)).replaceParameters [outer .int]).run 20
    first = (.mk 20 (catching (outer .int)).shape .int, 21) ∧
      ((first.1.replaceParameters [outer .int]).run 21).1 = first.1 := by
  intro first
  have hS : Coherent (nodesOf [catching (.mk 18 (.parameter closureVar) .int), outer .int]) 20 :=
    coherent_nodesOf (by decide) (by decide)
  have hpool : ∀ t ∈ [outer .int],
      t ∈ nodesOf [catching (.mk 18 (.parameter closureVar) .int), outer .int] :=
    List.forall_mem_singleton.mpr (mem_nodesOf (.tail _ (.head _)))
  have hsettled : ∀ t ∈ [outer .int], t.IsSettled :=
    List.forall_mem_singleton.mpr (.inr ⟨_, rfl, rfl⟩)
  exact ⟨rfl, replacement_is_idempotent hS (mem_nodesOf List.mem_cons_self) hpool hsettled 21
    (Nat.le_refl 21)⟩

end CodeTree
