import CodeTree.Eval

/-!
# Ancestry and assignability

A nominal type carries its ancestors with it, so two types may carry different classes of one
name. `lineage` lists the classes and interfaces that a type carries; types are `Coherent` when
any two classes of one name that they carry have the same definition. Definitions are compared by
the names of the base and of the interfaces only: over a whole lineage this says that the classes
stand under the same ancestors.

* `any_lineage` — `derivesFrom` looks for a name in the lineage;
* `isAssignableFrom_iff` — the type itself, anything but `void` under `object`, or an entry of
  the lineage;
* `Coherent.follow` — in coherent types, what one class stands under, every class of its name
  stands under;
* `Coherent.eq_of_mutual` — no two classes of different names stand under each other: each would
  be found again deeper inside the other;
* `runHandlers_of_accepts` — a catch clause may be exchanged for one that accepts what it accepts.

Main statement: `Coherent.assignability` — on coherent types assignability is reflexive, transitive
and antisymmetric; instances of a type are instances of all types assignable from it, and a
clause for the latter is entered wherever one for the former is.
-/

namespace CodeTree.Ty

/-! ## Lineage -/

/-- The types that a class or interface names as its base and its interfaces. -/
def parents : Ty → List Ty
  | .nominal _ base interfaces _ => base.toList ++ interfaces
  | _ => []

mutual
/-- The classes and interfaces reached through bases and interfaces, the type itself first. Only
classes and interfaces are followed. -/
def lineage : Ty → List Ty
  | .nominal name base interfaces isInterface =>
    .nominal name base interfaces isInterface :: (baseLineage base ++ lineages interfaces)
  | _ => []
/-- `lineage` of an optional base. -/
def baseLineage : Option Ty → List Ty
  | none => []
  | some base => lineage base
/-- `lineage` of several interfaces, one after another. -/
def lineages : List Ty → List Ty
  | [] => []
  | ty :: tys => lineage ty ++ lineages tys
end

theorem mem_baseLineage {a : Ty} {base : Option Ty} :
    a ∈ baseLineage base ↔ ∃ p ∈ base.toList, a ∈ p.lineage := by
  cases base <;> simp [baseLineage]

theorem mem_lineages {a : Ty} {tys : List Ty} : a ∈ lineages tys ↔ ∃ p ∈ tys, a ∈ p.lineage := by
  induction tys with
  | nil => simp [lineages]
  | cons ty tys ih => simp [lineages, ih]

theorem mem_lineage_nominal {a : Ty} {name : String} {base : Option Ty} {interfaces : List Ty}
    {isInterface : Bool} :
    a ∈ (nominal name base interfaces isInterface).lineage ↔
      a = nominal name base interfaces isInterface ∨
        ∃ p ∈ (nominal name base interfaces isInterface).parents, a ∈ p.lineage := by
  simp only [lineage, parents, List.mem_cons, List.mem_append, mem_baseLineage, mem_lineages]
  grind

theorem mem_lineage {a ty : Ty} (h : a ∈ ty.lineage) :
    a = ty ∨ ∃ p ∈ ty.parents, a ∈ p.lineage := by
  cases ty with
  | nominal => exact mem_lineage_nominal.mp h
  | _ => simp [lineage] at h

theorem mem_lineage_of_parent {a p ty : Ty} (hp : p ∈ ty.parents) (h : a ∈ p.lineage) :
    a ∈ ty.lineage := by
  cases ty with
  | nominal => exact mem_lineage_nominal.mpr (.inr ⟨p, hp, h⟩)
  | _ => simp [parents] at hp

/-- What a lineage is not empty for, it begins with. -/
theorem self_mem_lineage {a ty : Ty} (h : a ∈ ty.lineage) : ty ∈ ty.lineage := by
  cases ty with
  | nominal => exact mem_lineage_nominal.mpr (.inl rfl)
  | _ => simp [lineage] at h

theorem sizeOf_parent {p ty : Ty} (h : p ∈ ty.parents) : sizeOf p < sizeOf ty := by
  cases ty with
  | nominal name base interfaces isInterface =>
    simp only [parents, List.mem_append, Option.mem_toList] at h
    rcases h with hbase | hinterface
    · subst hbase
      simp only [nominal.sizeOf_spec, Option.some.sizeOf_spec]
      omega
    · have := List.sizeOf_lt_of_mem hinterface
      simp only [nominal.sizeOf_spec]
      omega
  | _ => simp [parents] at h

/-- Induction along parents. -/
@[elab_as_elim]
theorem parents_induction {motive : Ty → Prop}
    (step : ∀ ty, (∀ p ∈ ty.parents, motive p) → motive ty) (ty : Ty) : motive ty :=
  step ty fun p _ => parents_induction step p
termination_by sizeOf ty
decreasing_by exact sizeOf_parent ‹_›

theorem mem_lineage_trans {a b ty : Ty} (ha : a ∈ b.lineage) (hb : b ∈ ty.lineage) :
    a ∈ ty.lineage := by
  induction ty using parents_induction with
  | step ty ih =>
    rcases mem_lineage hb with rfl | ⟨p, hp, hb⟩
    · exact ha
    · exact mem_lineage_of_parent hp (ih p hp hb)

/-- Further up in a lineage types get smaller. -/
theorem eq_or_sizeOf_lt {a ty : Ty} (h : a ∈ ty.lineage) : a = ty ∨ sizeOf a < sizeOf ty := by
  induction ty using parents_induction with
  | step ty ih =>
    rcases mem_lineage h with rfl | ⟨p, hp, h⟩
    · exact .inl rfl
    · have hsize := sizeOf_parent hp
      rcases ih p hp h with rfl | hlt
      · exact .inr hsize
      · exact .inr (Nat.lt_trans hlt hsize)

/-! ## Assignability -/

section

variable {name : String} {base : Option Ty} {interfaces : List Ty} {isInterface : Bool}

mutual
/-- A type derives from a class when an entry of its lineage has that name. -/
theorem any_lineage : ∀ ty : Ty,
    ty.lineage.any (nominal name base interfaces isInterface == ·) = ty.derivesFrom name
  | .void | .bool | .int | .float | .string | .object => rfl
  | .array _ | .task _ | .func .. | .node _ => rfl
  | .nominal other base' interfaces' isInterface' => by
    have hname : (nominal name base interfaces isInterface ==
        nominal other base' interfaces' isInterface') = (other == name) :=
      BEq.comm
    simp only [lineage, derivesFrom, List.any_cons, List.any_append, hname,
      any_baseLineage base', any_lineages interfaces', Bool.or_assoc]
theorem any_baseLineage : ∀ base' : Option Ty,
    (baseLineage base').any (nominal name base interfaces isInterface == ·) =
      baseDerivesFrom name base'
  | none => rfl
  | some base' => any_lineage base'
theorem any_lineages : ∀ tys : List Ty,
    (lineages tys).any (nominal name base interfaces isInterface == ·) = someDerivesFrom name tys
  | [] => rfl
  | ty :: tys => by
    rw [lineages, someDerivesFrom, List.any_append, any_lineage ty, any_lineages tys]
end

end

/-- Types that are equal are both nominal or neither is. -/
theorem mem_lineage_of_beq {a b : Ty} (h : (a == b) = true) (ha : a ∈ a.lineage) :
    b ∈ b.lineage := by
  cases a with
  | nominal =>
    cases b with
    | nominal => exact mem_lineage_nominal.mpr (.inl rfl)
    | _ => cases h
  | _ => simp [lineage] at ha

/-- All entries of a lineage are nominal. -/
theorem self_mem_of_mem_lineage {a ty : Ty} (h : a ∈ ty.lineage) : a ∈ a.lineage := by
  induction ty using parents_induction with
  | step ty ih =>
    rcases mem_lineage h with rfl | ⟨p, hp, h⟩
    · exact h
    · exact ih p hp h

theorem isAssignableFrom_iff {target source : Ty} :
    target.isAssignableFrom source = true ↔
      (target == source) = true ∨ (target = .object ∧ source ≠ .void) ∨
        ∃ a ∈ source.lineage, (target == a) = true := by
  -- only a nominal target is found in a lineage
  have hnominal : (∃ a ∈ source.lineage, (target == a) = true) → target ∈ target.lineage := by
    rintro ⟨a, ha, h⟩
    exact mem_lineage_of_beq (BEq.symm h) (self_mem_of_mem_lineage ha)
  cases target with
  | nominal name base interfaces isInterface =>
    rw [← List.any_eq_true, any_lineage]
    cases source <;> simp [isAssignableFrom, derivesFrom]
  | object => cases source <;> simp [isAssignableFrom, isVoid, lineage]
  | _ =>
    have hnone : ¬ ∃ a ∈ source.lineage, (_ == a) = true := fun h => by
      simpa [lineage] using hnominal h
    simp only [isAssignableFrom, Bool.or_false, reduceCtorEq, false_and, false_or]
    exact (or_iff_left hnone).symm

/-! ## Coherent types -/

/-- Whether two classes are defined alike: same base, same interfaces, both classes or both
interfaces. -/
def sameDefinition : Ty → Ty → Bool
  | .nominal _ base interfaces isInterface, .nominal _ base' interfaces' isInterface' =>
    base == base' && interfaces == interfaces' && isInterface == isInterface'
  | _, _ => false

/-- Any two classes of one name that these types carry have the same definition. -/
def Coherent (tys : List Ty) : Prop :=
  ∀ a ∈ tys.flatMap lineage, ∀ b ∈ tys.flatMap lineage, (a == b) = true →
    a.sameDefinition b = true

instance (tys : List Ty) : Decidable (Coherent tys) :=
  inferInstanceAs (Decidable (∀ a ∈ tys.flatMap lineage, ∀ b ∈ tys.flatMap lineage,
    (a == b) = true → a.sameDefinition b = true))

theorem exists_beq_of_mem {tys tys' : List Ty} (h : (tys == tys') = true) {p : Ty} (hp : p ∈ tys) :
    ∃ q ∈ tys', (p == q) = true := by
  induction tys generalizing tys' with
  | nil => cases hp
  | cons ty tys ih =>
    cases tys' with
    | nil => cases h
    | cons ty' tys' =>
      obtain ⟨hhead, htail⟩ := Bool.and_eq_true_iff.mp h
      rcases List.mem_cons.mp hp with rfl | hp
      · exact ⟨ty', List.mem_cons_self, hhead⟩
      · obtain ⟨q, hq, hpq⟩ := ih htail hp
        exact ⟨q, List.mem_cons_of_mem _ hq, hpq⟩

/-- Classes that are defined alike have equal parents. -/
theorem exists_parent {a b : Ty} (h : a.sameDefinition b = true) {p : Ty} (hp : p ∈ a.parents) :
    ∃ q ∈ b.parents, (p == q) = true := by
  cases a with
  | nominal name base interfaces isInterface =>
    cases b with
    | nominal name' base' interfaces' isInterface' =>
      simp only [sameDefinition, Bool.and_eq_true] at h
      obtain ⟨⟨hbase, hinterfaces⟩, -⟩ := h
      rcases List.mem_append.mp hp with hp | hp
      · rw [Option.mem_toList] at hp
        subst hp
        cases base' with
        | none => cases hbase
        | some q => exact ⟨q, List.mem_append_left _ List.mem_cons_self, hbase⟩
      · obtain ⟨q, hq, hpq⟩ := exists_beq_of_mem hinterfaces hp
        exact ⟨q, List.mem_append_right _ hq, hpq⟩
    | _ => cases h
  | _ => cases hp

namespace Coherent

variable {tys : List Ty}

theorem sub {tys' : List Ty} (h : Coherent tys) (hsub : tys' ⊆ tys) : Coherent tys' := by
  intro a ha b hb
  have hwithin : ∀ {c}, c ∈ tys'.flatMap lineage → c ∈ tys.flatMap lineage := by
    intro c hc
    obtain ⟨ty, hty, hc⟩ := List.mem_flatMap.mp hc
    exact List.mem_flatMap.mpr ⟨ty, hsub hty, hc⟩
  exact h a (hwithin ha) b (hwithin hb)

theorem mem_of_mem_lineage {a c : Ty} (ha : a ∈ tys.flatMap lineage) (hc : c ∈ a.lineage) :
    c ∈ tys.flatMap lineage := by
  obtain ⟨ty, hty, ha⟩ := List.mem_flatMap.mp ha
  exact List.mem_flatMap.mpr ⟨ty, hty, mem_lineage_trans hc ha⟩

/-- Equal classes of coherent types stand under equal classes. -/
theorem follow (h : Coherent tys) {a b c : Ty} (ha : a ∈ tys.flatMap lineage)
    (hb : b ∈ tys.flatMap lineage) (hab : (a == b) = true) (hc : c ∈ a.lineage) :
    ∃ d ∈ b.lineage, (c == d) = true := by
  induction a using parents_induction generalizing b with
  | step a ih =>
    rcases mem_lineage hc with rfl | ⟨p, hp, hc⟩
    · exact ⟨b, mem_lineage_of_beq hab hc, hab⟩
    · obtain ⟨q, hq, hpq⟩ := exists_parent (h a ha b hb hab) hp
      have hpa : p ∈ a.lineage := mem_lineage_of_parent hp (self_mem_lineage hc)
      have hqb : q ∈ b.lineage :=
        mem_lineage_of_parent hq (mem_lineage_of_beq hpq (self_mem_lineage hc))
      obtain ⟨d, hd, hcd⟩ := ih p hp (mem_of_mem_lineage ha hpa) (mem_of_mem_lineage hb hqb) hpq hc
      exact ⟨d, mem_lineage_of_parent hq hd, hcd⟩

/-- Two classes that stand under each other are equal: otherwise each would be found again, and
smaller, in the lineage of the other. -/
theorem eq_of_mutual (h : Coherent tys) {a b a' b' : Ty} (ha : a ∈ tys.flatMap lineage)
    (hb : b ∈ tys.flatMap lineage) (hb' : b' ∈ a.lineage) (hbb' : (b == b') = true)
    (ha' : a' ∈ b.lineage) (haa' : (a == a') = true) : (a == b) = true := by
  have hb'mem := mem_of_mem_lineage ha hb'
  -- the copy of `b` above `a` stands under a further copy of `a`
  obtain ⟨a'', ha'', ha'a''⟩ := h.follow hb hb'mem hbb' ha'
  have haa'' : (a == a'') = true := BEq.trans haa' ha'a''
  rcases eq_or_sizeOf_lt hb' with rfl | hlt
  · exact BEq.symm hbb'
  · rcases eq_or_sizeOf_lt ha'' with rfl | hlt'
    · exact BEq.trans haa'' (BEq.symm hbb')
    · have ha''mem := mem_of_mem_lineage hb'mem ha''
      obtain ⟨b'', hb'', hb'b''⟩ := h.follow ha ha''mem haa'' hb'
      have hless := h.eq_of_mutual ha''mem hb hb'' (BEq.trans hbb' hb'b'') ha'
        (BEq.trans (BEq.symm haa'') haa')
      exact BEq.trans haa'' hless
termination_by sizeOf a

/-! ## Assignability on coherent types -/

theorem mem_flatMap_of_mem {ty c : Ty} (hty : ty ∈ tys) (hc : c ∈ ty.lineage) :
    ty ∈ tys.flatMap lineage :=
  List.mem_flatMap.mpr ⟨ty, hty, self_mem_lineage hc⟩

theorem isAssignableFrom_trans {X Y Z : Ty} (h : Coherent [X, Y, Z])
    (hxy : X.isAssignableFrom Y = true) (hyz : Y.isAssignableFrom Z = true) :
    X.isAssignableFrom Z = true := by
  rw [isAssignableFrom_iff] at *
  rcases hxy with hxy | ⟨rfl, hy⟩ | ⟨a, ha, hxa⟩
  case inl =>
    rcases hyz with hyz | ⟨rfl, hz⟩ | ⟨b, hb, hyb⟩
    · exact .inl (BEq.trans hxy hyz)
    · have hx : X = .object := by cases X <;> first | rfl | cases hxy
      exact .inr (.inl ⟨hx, hz⟩)
    · exact .inr (.inr ⟨b, hb, BEq.trans hxy hyb⟩)
  case inr.inl =>
    refine .inr (.inl ⟨rfl, ?_⟩)
    rintro rfl
    rcases hyz with hyz | ⟨-, hz⟩ | ⟨b, hb, -⟩
    · cases Y <;> first | exact hy rfl | cases hyz
    · exact hz rfl
    · cases hb
  case inr.inr =>
    have hymem : Y ∈ [X, Y, Z].flatMap lineage := mem_flatMap_of_mem (by simp) ha
    rcases hyz with hyz | ⟨rfl, -⟩ | ⟨b, hb, hyb⟩
    · have hzmem : Z ∈ [X, Y, Z].flatMap lineage :=
        mem_flatMap_of_mem (by simp) (mem_lineage_of_beq hyz (self_mem_lineage ha))
      obtain ⟨d, hd, had⟩ := h.follow hymem hzmem hyz ha
      exact .inr (.inr ⟨d, hd, BEq.trans hxa had⟩)
    · cases ha
    · have hzmem : Z ∈ [X, Y, Z].flatMap lineage := mem_flatMap_of_mem (by simp) hb
      obtain ⟨d, hd, had⟩ := h.follow hymem (mem_of_mem_lineage hzmem hb) hyb ha
      exact .inr (.inr ⟨d, mem_lineage_trans hd hb, BEq.trans hxa had⟩)

theorem isAssignableFrom_antisymm {X Y : Ty} (h : Coherent [X, Y])
    (hxy : X.isAssignableFrom Y = true) (hyx : Y.isAssignableFrom X = true) : (X == Y) = true := by
  rw [isAssignableFrom_iff] at *
  rcases hxy with hxy | ⟨rfl, -⟩ | ⟨a, ha, hxa⟩
  · exact hxy
  · rcases hyx with hyx | ⟨rfl, -⟩ | ⟨b, hb, -⟩
    · exact BEq.symm hyx
    · rfl
    · cases hb
  · rcases hyx with hyx | ⟨rfl, -⟩ | ⟨b, hb, hyb⟩
    · exact BEq.symm hyx
    · cases ha
    · exact h.eq_of_mutual (mem_flatMap_of_mem (by simp) hb) (mem_flatMap_of_mem (by simp) ha)
        hb hyb ha hxa

end Coherent

/-! ## Clauses -/

/-- A catch clause may be exchanged for one that takes the exception too. -/
theorem runHandlers_of_accepts {σ : Type} {ev : Scope → Expr → Run σ Value} {scope : Scope}
    {exception : Value} {thrownTy X Y : Ty} (hx : X.isAssignableFrom thrownTy = true)
    (hy : Y.isAssignableFrom thrownTy = true) (binder : Option Param) (filter : Option Expr)
    (body : Expr) (before after : List (Handler Expr)) :
    runHandlers ev scope exception thrownTy (before ++ ⟨X, binder, filter, body⟩ :: after) =
      runHandlers ev scope exception thrownTy (before ++ ⟨Y, binder, filter, body⟩ :: after) := by
  induction before with
  | nil => simp only [List.nil_append, runHandlers, hx, hy]
  | cons h hs ih => simp only [List.cons_append, runHandlers, ih]

/-- On coherent types assignability is a partial order. Hence a value that is an instance of a type
is an instance of all types assignable from it, and a catch clause for one of these is entered,
with the same outcome, wherever the clause for the type is. -/
theorem Coherent.assignability {X Y Z : Ty} (h : Coherent [X, Y, Z]) :
    X.isAssignableFrom X = true ∧
      (X.isAssignableFrom Y = true → Y.isAssignableFrom Z = true → X.isAssignableFrom Z = true) ∧
      (X.isAssignableFrom Y = true → Y.isAssignableFrom X = true → (X == Y) = true) ∧
      (X.isAssignableFrom Y = true → ∀ v : Value, v.runtimeTy? = some Z →
        v.isInstance Y = true → v.isInstance X = true) ∧
      (X.isAssignableFrom Y = true → Y.isAssignableFrom Z = true →
        ∀ {σ : Type} (ev : Scope → Expr → Run σ Value) (scope : Scope) (exception : Value)
          (binder : Option Param) (filter : Option Expr) (body : Expr)
          (before after : List (Handler Expr)),
          runHandlers ev scope exception Z (before ++ ⟨Y, binder, filter, body⟩ :: after) =
            runHandlers ev scope exception Z (before ++ ⟨X, binder, filter, body⟩ :: after)) := by
  refine ⟨isAssignableFrom_self X, h.isAssignableFrom_trans, ?_, ?_, ?_⟩
  · exact (h.sub (by simp)).isAssignableFrom_antisymm
  · intro hxy v hty hv
    simp only [Value.isInstance, hty] at hv ⊢
    exact h.isAssignableFrom_trans hxy hv
  · intro hxy hyz σ ev scope exception binder filter body before after
    exact runHandlers_of_accepts hyz (h.isAssignableFrom_trans hxy hyz) binder filter body before
      after

namespace Sample

def walker : Ty := .interface "Walker"

def animal : Ty := .nominal "Animal" none [walker] false

/-- Reaches `walker` on two ways; the entry that is no class is passed over. -/
def dog : Ty := .nominal "Dog" (some animal) [.string, walker] false

/-- Another class of the name of `dog`, which stands under nothing. -/
def stray : Ty := .rootClass "Dog"

end Sample

theorem assignability_dog :
    Coherent [Sample.walker, Sample.animal, Sample.dog] ∧
      Sample.walker.isAssignableFrom Sample.dog = true ∧
      (Value.object 7 Sample.dog (.fields [])).isInstance Sample.walker = true := by
  have hcoherent : Coherent [Sample.walker, Sample.animal, Sample.dog] := by decide
  have horder := Coherent.assignability hcoherent
  have hwalker : Sample.walker.isAssignableFrom Sample.animal = true := by decide
  exact ⟨hcoherent, horder.2.1 hwalker (by decide),
    horder.2.2.2.1 hwalker (.object 7 Sample.dog (.fields [])) rfl (by decide)⟩

/-- Beside another class of its name, assignability is not even transitive. -/
example : ¬ Coherent [Sample.walker, Sample.dog, Sample.stray] ∧
    Sample.walker.isAssignableFrom Sample.dog = true ∧
    Sample.dog.isAssignableFrom Sample.stray = true ∧
    Sample.walker.isAssignableFrom Sample.stray = false := by
  decide

end CodeTree.Ty
