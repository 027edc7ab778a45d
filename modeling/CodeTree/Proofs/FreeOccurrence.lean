import CodeTree.Proofs.Occurrence

/-!
# Where a tree refers to its free variables

A reference is free where no node above it declares its variable. `Expr.occurrences` lists the free
references of a tree with the paths that lead to them: they are the ones there are
(`mem_occurrences`), each comes before those to the right of it (`pairwise_occurrences`), and the walk
for free variables goes through this list and keeps the first reference to each variable
(`freeFrom_eq_foldl`, `firstUses`).

The walk need not carry the variables that are declared around a node. `Expr.tally` keeps one count for
each variable instead, raised where a node declares the variable and lowered where the walk leaves the
node. The invariant is that the count is the number of declarations around the node, repeated ones
included (`tally_eq`); that leaving a node restores the counts is a part of it.

Main statement: `freeParameters_lists_first_uses`.
-/

namespace CodeTree.Expr

variable {e : Expr} {bound seen : List Param} {path : List Nat} {p : Param}

/-! ## Free references -/

/-- The node at the end of a path refers to a variable that no node above it declares. -/
def FreeAt (e : Expr) (path : List Nat) (p : Param) : Prop :=
  (e.subtreeAt path).bind asParameter? = some p ∧ isAmong p (e.declaredAlong path) = false

/-- No reference to the variable is free further to the left. -/
def FirstFreeAt (e : Expr) (path : List Nat) (p : Param) : Prop :=
  e.FreeAt path p ∧ ∀ path' q, e.FreeAt path' q → path' < path → (q == p) = false

/-- What a walk of a child has found, seen from the node above. -/
def inChild (i : Nat) (found : List (List Nat × Param)) : List (List Nat × Param) :=
  found.map fun x => (i :: x.1, x.2)

/-- One step of `occurrences`. -/
def occurrencesStep (e : Expr) (layer : Shape Value (Expr × (List Param → List (List Nat × Param))))
    (bound : List Param) : List (List Nat × Param) :=
  match e.asParameter? with
  | some p => if isAmong p bound then [] else [([], p)]
  | none => layer.children.zipIdx.flatMap fun x => inChild x.2 (x.1.2 (layer.bindings ++ bound))

/-- The free references of a tree that stands below the declarations `bound`, from left to right. -/
def occurrences : Expr → List Param → List (List Nat × Param) := fold occurrencesStep

theorem occurrences_of_some (he : e.asParameter? = some p) (bound : List Param) :
    e.occurrences bound = if isAmong p bound then [] else [([], p)] := by
  obtain ⟨id, s, ty⟩ := e
  rw [occurrences, fold_mk, occurrencesStep, he]

theorem occurrences_of_none (he : e.asParameter? = none) (bound : List Param) :
    e.occurrences bound =
      e.children.zipIdx.flatMap fun x => inChild x.2 (x.1.occurrences (e.bindings ++ bound)) := by
  obtain ⟨id, s, ty⟩ := e
  rw [occurrences, fold_mk, occurrencesStep, he]
  simp only [Shape.children_map, Shape.bindings_map, List.zipIdx_map, List.flatMap_map]
  rfl

theorem mem_inChild {i : Nat} {found : List (List Nat × Param)} :
    (path, p) ∈ inChild i found ↔ ∃ path', path = i :: path' ∧ (path', p) ∈ found := by
  simp only [inChild, List.mem_map, Prod.mk.injEq, Prod.exists]
  constructor
  · rintro ⟨path', q, hmem, rfl, rfl⟩
    exact ⟨path', rfl, hmem⟩
  · rintro ⟨path', rfl, hmem⟩
    exact ⟨path', p, hmem, rfl, rfl⟩

theorem children_of_asParameter? (he : e.asParameter? = some p) : e.children = [] := by
  rw [children, shape_of_asParameter? he]
  rfl

/-- The same for a tree that stands below the declarations `bound`. -/
def FreeBelow (bound : List Param) (e : Expr) (path : List Nat) (p : Param) : Prop :=
  (e.subtreeAt path).bind asParameter? = some p ∧ isAmong p (e.declaredAlong path ++ bound) = false

theorem freeBelow_nil : FreeBelow bound e [] p ↔ e.asParameter? = some p ∧ isAmong p bound = false :=
  Iff.rfl

theorem freeBelow_cons {i : Nat} : FreeBelow bound e (i :: path) p ↔
    ∃ a, e.children[i]? = some a ∧ FreeBelow (e.bindings ++ bound) a path p := by
  constructor
  · rintro ⟨hn, hfree⟩
    obtain ⟨n, hn, hp⟩ := Option.bind_eq_some_iff.mp hn
    obtain ⟨a, ha, hn⟩ := subtreeAt_cons_eq_some.mp hn
    rw [declaredAlong_cons ha, List.append_assoc] at hfree
    exact ⟨a, ha, Option.bind_eq_some_iff.mpr ⟨n, hn, hp⟩, hfree⟩
  · rintro ⟨a, ha, hn, hfree⟩
    refine ⟨?_, ?_⟩
    · rw [subtreeAt, ha]
      exact hn
    · rwa [declaredAlong_cons ha, List.append_assoc]

/-- What the walk of a reference lists. -/
theorem mem_occurrences_of_some {q : Param} (he : e.asParameter? = some q) :
    (path, p) ∈ e.occurrences bound ↔ FreeBelow bound e path p := by
  have hlist : (path, p) ∈ e.occurrences bound ↔ path = [] ∧ p = q ∧ isAmong q bound = false := by
    rw [occurrences_of_some he]
    by_cases hbound : isAmong q bound = true <;> simp [hbound]
  rw [hlist]
  cases path with
  | nil =>
    rw [freeBelow_nil, he, Option.some.injEq]
    constructor
    · rintro ⟨-, rfl, hfree⟩
      exact ⟨rfl, hfree⟩
    · rintro ⟨rfl, hfree⟩
      exact ⟨rfl, rfl, hfree⟩
  | cons i path =>
    -- nothing stands below a reference
    rw [freeBelow_cons, children_of_asParameter? he]
    constructor
    · rintro ⟨hpath, -⟩
      cases hpath
    · rintro ⟨a, ha, -⟩
      cases ha

/-- The free references are listed, and nothing else is. -/
theorem mem_occurrences (e : Expr) : ∀ {bound : List Param} {path : List Nat} {p : Param},
    (path, p) ∈ e.occurrences bound ↔ FreeBelow bound e path p := by
  induction e using Expr.induction with
  | step e ih =>
    intro bound path p
    cases he : e.asParameter? with
    | some q => exact mem_occurrences_of_some he
    | none =>
      rw [occurrences_of_none he, List.mem_flatMap]
      constructor
      · rintro ⟨⟨a, i⟩, ha, hx⟩
        obtain ⟨path, rfl, hmem⟩ := mem_inChild.mp hx
        have ha := List.mem_zipIdx_iff_getElem?.mp ha
        exact freeBelow_cons.mpr ⟨a, ha, (ih a (List.mem_of_getElem? ha)).mp hmem⟩
      · intro h
        cases path with
        | nil =>
          rw [freeBelow_nil, he] at h
          cases h.1
        | cons i path =>
          obtain ⟨a, ha, h⟩ := freeBelow_cons.mp h
          have hmem := (ih a (List.mem_of_getElem? ha)).mpr h
          exact ⟨(a, i), List.mem_zipIdx_iff_getElem?.mpr ha, mem_inChild.mpr ⟨path, rfl, hmem⟩⟩

theorem mem_occurrences_nil : (path, p) ∈ e.occurrences [] ↔ e.FreeAt path p := by
  rw [mem_occurrences, FreeBelow, List.append_nil]
  rfl

theorem pairwise_zipIdx {α : Type} (as : List α) : as.zipIdx.Pairwise fun x y => x.2 < y.2 := by
  rw [List.pairwise_iff_getElem]
  intro i j hi hj hij
  rw [List.getElem_zipIdx, List.getElem_zipIdx]
  omega

/-- The list goes from left to right. -/
theorem pairwise_occurrences (e : Expr) : ∀ (bound : List Param),
    (e.occurrences bound).Pairwise fun x y => x.1 < y.1 := by
  induction e using Expr.induction with
  | step e ih =>
    intro bound
    cases he : e.asParameter? with
    | some q =>
      rw [occurrences_of_some he]
      split
      · exact .nil
      · exact List.pairwise_singleton _ _
    | none =>
      rw [occurrences_of_none he, List.pairwise_flatMap]
      constructor
      · rintro ⟨a, i⟩ ha
        have ha := List.mem_of_getElem? (List.mem_zipIdx_iff_getElem?.mp ha)
        exact List.pairwise_map.mpr ((ih a ha _).imp fun h => List.cons_lt_cons_self.mpr h)
      · -- what is found in different children stands to the left and to the right
        refine (pairwise_zipIdx e.children).imp fun {x y} hxy => ?_
        rintro ⟨path, p⟩ hp ⟨path', q⟩ hq
        obtain ⟨_, rfl, -⟩ := mem_inChild.mp hp
        obtain ⟨_, rfl, -⟩ := mem_inChild.mp hq
        exact List.cons_lt_cons_iff.mpr (.inl hxy)

/-! ## First references -/

/-- Counts a variable that is not counted yet. -/
def noteFree (seen : List Param) (p : Param) : List Param := if isAmong p seen then seen else seen ++ [p]

/-- The first reference to each variable that was not met before. -/
def firstUses (seen : List Param) : List (List Nat × Param) → List (List Nat × Param)
  | [] => []
  | x :: found =>
    if isAmong x.2 seen then firstUses seen found else x :: firstUses (seen ++ [x.2]) found

/-- The walk counts the variables of the free references, one after another. -/
theorem freeFrom_eq_foldl (e : Expr) : ∀ (bound seen : List Param),
    e.freeFrom bound seen = ((e.occurrences bound).map Prod.snd).foldl noteFree seen := by
  induction e using Expr.induction with
  | step e ih =>
    intro bound seen
    cases he : e.asParameter? with
    | some p =>
      rw [freeFrom_of_some he, occurrences_of_some he]
      by_cases hbound : isAmong p bound = true
      · rw [hbound, Bool.true_or, if_pos rfl, if_pos rfl]
        rfl
      · rw [Bool.not_eq_true] at hbound
        rw [hbound, Bool.false_or, if_neg Bool.false_ne_true]
        rfl
    | none =>
      rw [freeFrom_of_none he, occurrences_of_none he, List.map_flatMap, List.foldl_flatMap]
      -- the numbers of the children make no difference to what is counted
      have hforget : ∀ (i : Nat) (found : List (List Nat × Param)),
          (inChild i found).map Prod.snd = found.map Prod.snd := by
        intro i found
        rw [inChild, List.map_map]
        rfl
      simp only [hforget]
      rw [freeFromAll]
      have hchildren : e.children = e.children.zipIdx.map Prod.fst := (List.zipIdx_map_fst 0 _).symm
      conv_lhs => rw [hchildren, List.foldl_map]
      refine List.foldl_ext _ _ _ fun seen x hx => ?_
      exact ih x.1 (List.mem_of_getElem? (List.mem_zipIdx_iff_getElem?.mp hx)) _ _

theorem foldl_noteFree (found : List (List Nat × Param)) : ∀ (seen : List Param),
    (found.map Prod.snd).foldl noteFree seen = seen ++ (firstUses seen found).map Prod.snd := by
  induction found with
  | nil =>
    intro seen
    exact (List.append_nil seen).symm
  | cons x found ih =>
    intro seen
    rw [List.map_cons, List.foldl_cons, noteFree, firstUses]
    split
    · exact ih seen
    · rw [ih, List.append_assoc]
      rfl

theorem firstUses_sublist (found : List (List Nat × Param)) : ∀ (seen : List Param),
    (firstUses seen found).Sublist found := by
  induction found with
  | nil => exact fun _ => .slnil
  | cons x found ih =>
    intro seen
    rw [firstUses]
    split
    · exact (ih seen).cons x
    · exact (ih _).cons_cons x

theorem isAmong_append {ps qs : List Param} :
    isAmong p (ps ++ qs) = (isAmong p ps || isAmong p qs) := List.any_append

theorem isAmong_concat_self (ps : List Param) (p : Param) : isAmong p (ps ++ [p]) = true :=
  isAmong_iff.mpr ⟨p, List.mem_append_right _ List.mem_cons_self, rfl⟩

/-- What was met before is not met for the first time. -/
theorem isAmong_of_mem_firstUses {found : List (List Nat × Param)} {x : List Nat × Param} :
    ∀ {seen : List Param}, x ∈ firstUses seen found → isAmong x.2 seen = false := by
  induction found with
  | nil => exact fun h => absurd h List.not_mem_nil
  | cons y found ih =>
    intro seen h
    rw [firstUses] at h
    split at h
    next => exact ih h
    next hnew =>
      rcases List.mem_cons.mp h with rfl | h
      · exact Bool.eq_false_iff.mpr hnew
      · have hnone := ih h
        rw [isAmong_append, Bool.or_eq_false_iff] at hnone
        exact hnone.1

/-- No variable is met for the first time twice. -/
theorem pairwise_firstUses (found : List (List Nat × Param)) : ∀ (seen : List Param),
    ((firstUses seen found).map Prod.snd).Pairwise fun p q => (p == q) = false := by
  induction found with
  | nil => exact fun _ => .nil
  | cons x found ih =>
    intro seen
    rw [firstUses]
    split
    · exact ih seen
    · rw [List.map_cons]
      refine .cons (fun q hq => ?_) (ih _)
      obtain ⟨y, hy, rfl⟩ := List.mem_map.mp hq
      have hnone := isAmong_of_mem_firstUses hy
      rw [isAmong_append, Bool.or_eq_false_iff, isAmong, isAmong, List.any_cons] at hnone
      exact (Bool.or_eq_false_iff.mp hnone.2).1

/-- Every variable is met before or for the first time. -/
theorem isAmong_of_mem {found : List (List Nat × Param)} {x : List Nat × Param} :
    ∀ (seen : List Param), x ∈ found →
      isAmong x.2 (seen ++ (firstUses seen found).map Prod.snd) = true := by
  induction found with
  | nil => exact fun _ h => absurd h List.not_mem_nil
  | cons y found ih =>
    intro seen h
    rw [firstUses]
    split
    next hseen =>
      rcases List.mem_cons.mp h with rfl | h
      · rw [isAmong_append, hseen, Bool.true_or]
      · exact ih _ h
    next =>
      rw [List.map_cons, List.append_cons]
      rcases List.mem_cons.mp h with rfl | h
      · rw [isAmong_append, isAmong_concat_self, Bool.true_or]
      · exact ih _ h

/-- What comes before a first reference is to other variables. -/
theorem not_beq_of_lt {found : List (List Nat × Param)} {x y : List Nat × Param} :
    ∀ {seen : List Param}, found.Pairwise (fun x y => x.1 < y.1) → x ∈ firstUses seen found →
      y ∈ found → y.1 < x.1 → (y.2 == x.2) = false := by
  induction found with
  | nil => exact fun _ h => absurd h List.not_mem_nil
  | cons z found ih =>
    intro seen hsorted hx hy hlt
    obtain ⟨hz, hsorted⟩ := List.pairwise_cons.mp hsorted
    -- once the variable of `z` is counted, what is met for the first time is another one
    have hlater : ∀ {counted : List Param}, isAmong z.2 counted = true →
        x ∈ firstUses counted found → (y.2 == x.2) = false := by
      intro counted hseen hfirst
      rcases List.mem_cons.mp hy with rfl | hy
      · refine Bool.eq_false_iff.mpr fun heq => ?_
        obtain ⟨q, hq, hid⟩ := isAmong_iff.mp hseen
        have hnone : isAmong x.2 counted = false := isAmong_of_mem_firstUses hfirst
        rw [isAmong_iff.mpr ⟨q, hq, hid.trans (Param.beq_iff.mp heq)⟩] at hnone
        cases hnone
      · exact ih hsorted hfirst hy hlt
    rw [firstUses] at hx
    split at hx
    next hseen => exact hlater hseen hx
    next =>
      rcases List.mem_cons.mp hx with rfl | hx
      · rcases List.mem_cons.mp hy with rfl | hy
        · exact absurd hlt (List.lt_irrefl _)
        · exact absurd hlt (List.lt_asymm (hz y hy))
      · exact hlater (isAmong_concat_self seen z.2) hx

end Expr

/-! ## Counting declarations -/

/-- What a walk knows that counts the declarations around it. -/
structure Tally where
  /-- How often a variable is declared here, by the identity of the variable. -/
  depth : Nat → Nat
  /-- The free variables met so far. -/
  free : List Param

namespace Tally

def empty : Tally := ⟨fun _ => 0, []⟩

/-- Enters the scope of a declaration. -/
def declare (t : Tally) (p : Param) : Tally :=
  { t with depth := Function.update t.depth p.id (t.depth p.id + 1) }

/-- Leaves the scope of a declaration. -/
def retract (t : Tally) (p : Param) : Tally :=
  { t with depth := Function.update t.depth p.id (t.depth p.id - 1) }

theorem retract_declare (t : Tally) (p : Param) : (t.declare p).retract p = t := by
  simp [declare, retract]

/-- Comes across a reference. -/
def meet (t : Tally) (p : Param) : Tally :=
  if 0 < t.depth p.id then t else { t with free := Expr.noteFree t.free p }

end Tally

namespace Expr

variable {bound : List Param} {p : Param}

/-- One step of `tally`. -/
def tallyStep (e : Expr) (layer : Shape Value (Expr × (Tally → Tally))) (t : Tally) : Tally :=
  let entered := layer.bindings.foldl Tally.declare t
  let met := (e.asParameter?.map entered.meet).getD entered
  let walked := layer.children.foldl (fun t child => child.2 t) met
  layer.bindings.foldl Tally.retract walked

/-- A walk that counts, for each variable, the declarations around it. -/
def tally : Expr → Tally → Tally := fold tallyStep

theorem tally_mk (e : Expr) (t : Tally) : e.tally t =
    e.bindings.foldl Tally.retract (e.children.foldl (fun t a => a.tally t)
      ((e.asParameter?.map (e.bindings.foldl Tally.declare t).meet).getD
        (e.bindings.foldl Tally.declare t))) := by
  obtain ⟨id, s, ty⟩ := e
  rw [tally, fold_mk, tallyStep, Shape.children_map, Shape.bindings_map, List.foldl_map]
  rfl

/-- How often a variable is declared, by its identity. -/
def timesDeclared (bound : List Param) (i : Nat) : Nat := bound.countP fun p => p.id == i

theorem timesDeclared_pos : 0 < timesDeclared bound p.id ↔ isAmong p bound = true := by
  rw [timesDeclared, List.countP_pos_iff, isAmong, List.any_eq_true]
  rfl

/-- One more declaration counts for its own variable. -/
theorem timesDeclared_cons (p : Param) (bound : List Param) : timesDeclared (p :: bound) =
    Function.update (timesDeclared bound) p.id (timesDeclared bound p.id + 1) := by
  funext i
  by_cases hi : i = p.id
  · subst hi
    rw [Function.update_self]
    exact List.countP_cons_of_pos (beq_self_eq_true _)
  · rw [Function.update_of_ne hi]
    exact List.countP_cons_of_neg fun h => hi (beq_iff_eq.mp h).symm

theorem timesDeclared_perm {bound bound' : List Param} (h : bound.Perm bound') :
    timesDeclared bound = timesDeclared bound' :=
  funext fun _ => h.countP_eq _

theorem declare_timesDeclared (p : Param) (bound free : List Param) :
    Tally.declare ⟨timesDeclared bound, free⟩ p = ⟨timesDeclared (p :: bound), free⟩ := by
  rw [timesDeclared_cons]
  rfl

theorem foldl_declare (ps : List Param) : ∀ (bound free : List Param),
    ps.foldl Tally.declare ⟨timesDeclared bound, free⟩ = ⟨timesDeclared (ps ++ bound), free⟩ := by
  induction ps with
  | nil => exact fun _ _ => rfl
  | cons p ps ih =>
    intro bound free
    rw [List.foldl_cons, declare_timesDeclared, ih, timesDeclared_perm List.perm_middle]
    rfl

theorem foldl_retract (ps : List Param) (bound free : List Param) :
    ps.foldl Tally.retract ⟨timesDeclared (ps ++ bound), free⟩ = ⟨timesDeclared bound, free⟩ := by
  induction ps with
  | nil => rfl
  | cons p ps ih =>
    rw [List.foldl_cons, List.cons_append, ← declare_timesDeclared, Tally.retract_declare, ih]

theorem foldl_tally {as : List Expr} (has : ∀ a ∈ as, ∀ bound free : List Param,
      a.tally ⟨timesDeclared bound, free⟩ = ⟨timesDeclared bound, a.freeFrom bound free⟩)
    (bound free : List Param) : as.foldl (fun t a => a.tally t) ⟨timesDeclared bound, free⟩ =
      ⟨timesDeclared bound, freeFromAll bound free as⟩ := by
  induction as generalizing free with
  | nil => rfl
  | cons a as ih =>
    rw [List.forall_mem_cons] at has
    rw [List.foldl_cons, has.1, ih has.2]
    rfl

/-- The counts are the numbers of declarations around a node, also after the walk has left it, and the
variables that it meets are those of the walk that carries the declarations. -/
theorem tally_eq (e : Expr) : ∀ bound free : List Param,
    e.tally ⟨timesDeclared bound, free⟩ = ⟨timesDeclared bound, e.freeFrom bound free⟩ := by
  induction e using Expr.induction with
  | step e ih =>
    intro bound free
    rw [tally_mk, foldl_declare]
    cases he : e.asParameter? with
    | some p =>
      have hbindings : e.bindings = [] := by
        rw [bindings, shape_of_asParameter? he]
        rfl
      rw [children_of_asParameter? he, hbindings, freeFrom_of_some he]
      show Tally.meet ⟨timesDeclared bound, free⟩ p = _
      rw [Tally.meet, noteFree]
      by_cases hbound : isAmong p bound = true
      · rw [if_pos (timesDeclared_pos.mpr hbound), hbound, Bool.true_or, if_pos rfl]
      · rw [if_neg fun h => hbound (timesDeclared_pos.mp h), Bool.eq_false_iff.mpr hbound,
          Bool.false_or]
    | none =>
      rw [freeFrom_of_none he]
      show e.bindings.foldl Tally.retract (e.children.foldl (fun t a => a.tally t)
        ⟨timesDeclared (e.bindings ++ bound), free⟩) = _
      rw [foldl_tally ih, foldl_retract]

/-! ## The free variables -/

/-- The free variables of a tree are listed once each, by their first free references from the left,
and every free reference is to one of them. A walk that counts declarations finds the same ones, and no
declaration is left in force when it is done. -/
theorem freeParameters_lists_first_uses (e : Expr) :
    (e.freeParameters.Pairwise fun p q => (p == q) = false) ∧
    (∀ p, isAmong p e.freeParameters = true ↔ ∃ path q, e.FreeAt path q ∧ (q == p) = true) ∧
    (∃ paths : List (List Nat), paths.Pairwise (· < ·) ∧
      List.Forall₂ e.FirstFreeAt paths e.freeParameters) ∧
    e.tally .empty = ⟨fun _ => 0, e.freeParameters⟩ := by
  have hlist : e.freeParameters = (firstUses [] (e.occurrences [])).map Prod.snd := by
    rw [freeParameters, freeUnder, freeFrom_eq_foldl, foldl_noteFree, List.nil_append]
  have hsorted := e.pairwise_occurrences []
  have hsub := firstUses_sublist (e.occurrences []) []
  refine ⟨hlist ▸ pairwise_firstUses _ _, fun p => ?_, ?_, e.tally_eq [] []⟩
  · rw [isAmong_iff, hlist]
    constructor
    · rintro ⟨q, hq, hid⟩
      obtain ⟨x, hx, rfl⟩ := List.mem_map.mp hq
      exact ⟨x.1, x.2, mem_occurrences_nil.mp (hsub.subset hx), Param.beq_iff.mpr hid⟩
    · rintro ⟨path, q, hfree, hid⟩
      obtain ⟨r, hr, hrq⟩ := isAmong_iff.mp (isAmong_of_mem [] (mem_occurrences_nil.mpr hfree))
      exact ⟨r, hr, hrq.trans (Param.beq_iff.mp hid)⟩
  · refine ⟨(firstUses [] (e.occurrences [])).map Prod.fst,
      List.pairwise_map.mpr (hsorted.sublist hsub), ?_⟩
    rw [hlist, List.forall₂_map_left_iff, List.forall₂_map_right_iff, List.forall₂_same]
    intro x hx
    refine ⟨mem_occurrences_nil.mp (hsub.subset hx), fun path q hfree hlt => ?_⟩
    exact not_beq_of_lt (y := (path, q)) hsorted hx (mem_occurrences_nil.mpr hfree) hlt

-- `x` is declared on two levels and bound below both, and free beside them
example :
    let x : Param := ⟨0, none, .int⟩
    let reference : Expr := .mk 0 (.parameter x) .int
    let nested : Expr := .mk 2 (.lambda [x] (.mk 1 (.block [x, x] [reference]) .int)) (.func [.int] .int)
    (Expr.mk 3 (.block [] [nested, reference]) .int).freeParameters = [x] := by rfl

end Expr

end CodeTree
