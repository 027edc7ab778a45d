import CodeTree.Proofs.ExtraFrame
import CodeTree.Proofs.Fluent

/-!
# Declarations in a block

A block builder takes declarations and statements in any order. The block that it makes runs its
statements in a frame that binds the declared variables to default values, so all that matters of
the declarations is which variables they name.

Two blocks that declare the same variables start in frames that bind the same, but not in the same
order. `Store.Agrees` relates stores that differ in no more than the order of bindings, and
evaluations of one tree over such stores go in step (`lawful_agreeing`). A statement that assigns
an initial value is a node made by the builder; its identity is another in another sequence of
calls, which no evaluation sees (`Expr.Twin`).

* `Store.Agrees.opened`, `Store.Agrees.assign` — what the two evaluations do to their stores;
* `get?_defaults` — the frame that a block starts in, variable by variable;
* `runs_blocks` — blocks that declare the same variables go in step.

Main statement: `declaration_order` — two sequences of accepted calls that add the same statements
and declare the same variables build blocks of one type, which evaluate alike in every scope.
-/

namespace CodeTree

/-! ## Stores up to the order of bindings -/

namespace Store

/-- The frames of two stores bind the same variables to the same values. -/
structure Agrees (st₁ st₂ : Store) : Prop where
  size : st₁.frames.size = st₂.frames.size
  get? : ∀ n id, (st₁.frame n).get? id = (st₂.frame n).get? id

namespace Agrees

variable {st₁ st₂ : Store}

theorem refl (st : Store) : Agrees st st := ⟨rfl, fun _ _ => rfl⟩

theorem owner? (h : Agrees st₁ st₂) (s : Scope) (id : Nat) :
    st₁.owner? s id = st₂.owner? s id := by
  simp only [Store.owner?, h.get?]

theorem lookup (h : Agrees st₁ st₂) (s : Scope) (id : Nat) :
    st₁.lookup s id = st₂.lookup s id := by
  simp only [Store.lookup, h.get?]

theorem write (h : Agrees st₁ st₂) (f id : Nat) (v : Value) :
    Agrees (st₁.write f id v) (st₂.write f id v) := by
  refine ⟨by rw [size_write, size_write, h.size], fun n other => ?_⟩
  by_cases hn : n = f
  · subst hn
    rcases Nat.lt_or_ge n st₁.frames.size with hlt | hge
    · rw [frame_write_self hlt, frame_write_self (h.size ▸ hlt), Frame.get?_set, Frame.get?_set,
        h.get?]
    · rw [frame_of_size_le (by rwa [size_write]), frame_of_size_le (by rwa [size_write, ← h.size])]
  · rw [frame_write_of_ne hn, frame_write_of_ne hn, h.get?]

theorem assign (h : Agrees st₁ st₂) (s : Scope) (id : Nat) (v : Value) :
    (st₁.assign s id v).1 = (st₂.assign s id v).1 ∧
      Agrees (st₁.assign s id v).2 (st₂.assign s id v).2 := by
  rw [Store.assign, Store.assign, h.owner?]
  cases st₂.owner? s id with
  | none => exact ⟨rfl, h⟩
  | some f => exact ⟨rfl, h.write f id v⟩

/-- Each side opens a frame, with bindings that find the same. -/
theorem opened (h : Agrees st₁ st₂) {bindings bindings' : List (Param × Value)}
    (hbindings : ∀ id, (Frame.setAll [] bindings).get? id = (Frame.setAll [] bindings').get? id) :
    Agrees (st₁.opened bindings) (st₂.opened bindings') := by
  refine ⟨by rw [size_opened, size_opened, h.size], fun n id => ?_⟩
  by_cases hn : n = st₁.frames.size
  · subst hn
    rw [frame_opened_self, h.size, frame_opened_self, hbindings]
  · rw [frame_opened_of_ne hn, frame_opened_of_ne (h.size ▸ hn), h.get?]

end Agrees

end Store

/-! ## Evaluation over such stores -/

/-- Nodes that differ in nothing but their identity. -/
structure Expr.Twin (a b : Expr) : Prop where
  shape : a.shape = b.shape
  ty : a.ty = b.ty

theorem Expr.Twin.refl (a : Expr) : Twin a a := ⟨rfl, rfl⟩

theorem Expr.Twin.label? {a b : Expr} (h : Twin a b) : a.label? = b.label? := by
  rw [Expr.label?, Expr.label?, h.shape]

/-- The same tree in the same scope, over stores that differ in the order of bindings. -/
def agreeing : Lockstep Still where
  both := True
  memory _ := Store.Agrees
  place _ P Q := P.interp = Q.interp ∧ P.scope = Q.scope ∧ P.tree.Twin Q.tree
  place_mono _ _ _ h := h

section Agreeing

variable {σ : Type} {d : Array Nat}

/-- Equal bindings open frames that agree. -/
theorem opens_agreeing {w : Still} {T : Still → Scope → Scope → Prop} {scope : Scope}
    {vars : List Param} (hT : ∀ w' t, T w' t t) : agreeing.Opens w scope scope vars T := by
  intro w' _ st₁ st₂ hst handling bindings _
  refine ⟨w', trivial, hst.opened fun _ => rfl, ?_⟩
  rw [hst.size]
  exact hT w' _

/-- Twins do the same with their common children. -/
theorem lawful_agreeing (H : Host σ) : agreeing.Lawful H := by
  rintro w ⟨I, s, a⟩ ⟨_, _, b⟩ ⟨rfl, rfl, htwin⟩
  refine .inl ⟨fun _ => Eq, htwin.ty, rfl, ?_, ?_, ?_, ?_, ?_, ?_, ?_, fun _ => rfl⟩
  · rw [htwin.shape]
    exact Shape.like_self (fun _ _ => rfl) fun _ _ _ => rfl
  · rintro _ a _ rfl
    rfl
  · rintro a _ rfl
    exact ⟨rfl, rfl, .refl a⟩
  · intro _ _
    refine opens_agreeing fun _ _ => ?_
    rintro a _ rfl
    exact ⟨rfl, rfl, .refl a⟩
  · intro params a' b' ha hb
    cases (ha.symm.trans htwin.shape).trans hb
    rfl
  · intro p _ _ _ st₁ st₂ hst
    exact hst.lookup s p.id
  · intro p _ _ _ _ st₁ st₂ hst v
    exact hst.assign s p.id v

/-- A machine beside itself. -/
theorem similar_agreeing (m : Machine σ) : agreeing.Similar ⟨⟩ m.depths m m := by
  refine ⟨rfl, rfl, rfl, rfl, .refl _, rfl, fun i => ?_⟩
  cases m.closures[i]? with
  | none => exact .none
  | some c => exact .some ⟨rfl, rfl, rfl, opens_agreeing fun _ _ => ⟨rfl, rfl, .refl _⟩⟩

end Agreeing

/-! ## The frame of a block -/

/-- The same variables are declared, and an identity belongs to one variable only. -/
structure SameVariables (ps qs : List Param) : Prop where
  mem_iff : ∀ p, p ∈ ps ↔ p ∈ qs
  identified : ∀ p ∈ ps, ∀ q ∈ ps, p.id = q.id → p = q

theorem mem_of_mem_eraseDups {p : Param} : ∀ {ps : List Param}, p ∈ ps.eraseDups → p ∈ ps
  | [], h => h
  | a :: ps, h => by
    rw [List.eraseDups_cons, List.mem_cons] at h
    rcases h with rfl | h
    · exact List.mem_cons_self
    · exact List.mem_cons_of_mem _ (List.mem_of_mem_filter (mem_of_mem_eraseDups h))
termination_by ps => ps.length
decreasing_by exact Nat.lt_succ_of_le (List.length_filter_le ..)

/-- Without repetition, a variable of each identity is left. -/
theorem exists_mem_eraseDups {p : Param} {ps : List Param} (h : p ∈ ps) :
    ∃ q ∈ ps.eraseDups, q.id = p.id := by
  have hany : ps.any (· == p) = true := List.any_eq_true.mpr ⟨p, h, beq_self_eq_true p.id⟩
  rw [← any_eraseDups, List.any_eq_true] at hany
  obtain ⟨q, hq, hqp⟩ := hany
  exact ⟨q, hq, beq_iff_eq.mp hqp⟩

/-- The variables of a block at their default values. -/
def defaults (ps : List Param) : Frame := Frame.setAll [] (ps.map fun p => (p, Value.default p.ty))

/-- What a variable of a block starts with does not depend on the order of declarations. -/
theorem get?_defaults {ps qs : List Param} (h : SameVariables ps qs) (id : Nat) :
    (defaults ps.eraseDups).get? id = (defaults qs.eraseDups).get? id := by
  by_cases hid : ∃ p ∈ ps, p.id = id
  · obtain ⟨p, hp, rfl⟩ := hid
    -- on either side, what has this identity is `p`
    have hbound : ∀ {rs : List Param}, (∀ r, r ∈ rs ↔ r ∈ ps) →
        (defaults rs.eraseDups).get? p.id = some (.default p.ty) := by
      intro rs hrs
      refine Frame.get?_setAll_of_agree ?_ (.inr ?_)
      · intro b hb hbid
        obtain ⟨r, hr, rfl⟩ := List.mem_map.mp hb
        rw [h.identified r ((hrs r).mp (mem_of_mem_eraseDups hr)) p hp hbid]
      · obtain ⟨r, hr, hrid⟩ := exists_mem_eraseDups ((hrs p).mpr hp)
        exact ⟨_, List.mem_map_of_mem hr, hrid⟩
    rw [hbound fun r => Iff.rfl, hbound fun r => (h.mem_iff r).symm]
  · have hnone : ∀ {rs : List Param}, (∀ r, r ∈ rs → r ∈ ps) →
        (defaults rs.eraseDups).get? id = none := by
      intro rs hrs
      refine Frame.get?_setAll_of_ne fun b hb hbid => hid ?_
      obtain ⟨r, hr, rfl⟩ := List.mem_map.mp hb
      exact ⟨r, hrs r (mem_of_mem_eraseDups hr), hbid⟩
    rw [hnone fun r hr => hr, hnone fun r => (h.mem_iff r).mpr]

/-! ## Blocks -/

section Blocks

variable {σ : Type} {d : Array Nat} {ps qs : List Param} {body body' : List Expr}

/-- Blocks that declare the same variables and run the same statements go in step. -/
theorem runs_blocks {E₁ E₂ : Engine σ} (hE : agreeing.Engines d E₁ E₂) (h : SameVariables ps qs)
    (hbody : List.Forall₂ Expr.Twin body body') (I : Interp) (scope : Scope) (ty : Ty) :
    agreeing.Runs d ⟨⟩ Eq (evalBlock E₁ I scope ty ps.eraseDups body)
      (evalBlock E₂ I scope ty qs.eraseDups body') := by
  intro m₁ m₂ hm
  show EndsLike _ _ ((evalBlock E₁ I scope ty ps.eraseDups body).run m₁)
    ((evalBlock E₂ I scope ty qs.eraseDups body').run m₂)
  unfold evalBlock Step.childScope Store.child
  rw [Lockstep.opening_run, Lockstep.opening_run, hm.store.size]
  have hm' : agreeing.Similar ⟨⟩ d
      { m₁ with store := m₁.store.opened (ps.eraseDups.map fun p => (p, Value.default p.ty)) }
      { m₂ with store := m₂.store.opened (qs.eraseDups.map fun p => (p, Value.default p.ty)) } :=
    { hm with store := hm.store.opened (get?_defaults h) }
  have hstatements : List.Forall₂ (agreeing.StatementLike d ⟨⟩
      (E₁.eval I (scope.extended m₂.store.frames.size none))
      (E₂.eval I (scope.extended m₂.store.frames.size none))) body body' := by
    refine hbody.imp fun a b hab => ⟨hab.label?, fun w' _ => ?_⟩
    exact hE.eval w' ⟨I, _, a⟩ ⟨I, _, b⟩ ⟨rfl, rfl, hab⟩
  exact Lockstep.Runs.bind_eq (Lockstep.Runs.runBody hE.rounds hE.rounds_eq .void hstatements hstatements)
    (fun _ _ _ => Lockstep.Runs.pure rfl) _ _ hm'

/-- Such blocks evaluate alike on every machine. -/
theorem eval_blocks (H : Host σ) (h : SameVariables ps qs)
    (hbody : List.Forall₂ Expr.Twin body body') (fuel id id' : Nat) (I : Interp) (scope : Scope)
    (ty : Ty) (m : Machine σ) :
    Option.Rel (fun x y => x.1 = y.1 ∧ x.2.host = y.2.host)
      ((eval H fuel I scope (.mk id (.block ps.eraseDups body) ty)).run m)
      ((eval H fuel I scope (.mk id' (.block qs.eraseDups body') ty)).run m) := by
  cases fuel with
  | zero => exact .none
  | succ fuel =>
    have hE := Lockstep.engines (lawful_agreeing H) (Nat.le_refl fuel) (fun _ => rfl) m.depths
    have hruns := (runs_blocks hE h hbody I scope ty m m (similar_agreeing m)).rel trivial
    refine optionRel_imp (fun x y hxy => ?_) hruns
    obtain ⟨_, _, hafter, hr⟩ := hxy
    exact ⟨hr.eq, hafter.host⟩

end Blocks

/-! ## Builders -/

/-- The statements that a block holds: a body without any has an `empty` node. -/
def heldStatements (k : Nat) : List Expr → List Expr
  | [] => [.mk k .empty .void]
  | e :: es => e :: es

theorem twins_held {as bs : List Expr} (h : List.Forall₂ Expr.Twin as bs) (k k' : Nat) :
    List.Forall₂ Expr.Twin (heldStatements k as) (heldStatements k' bs) := by
  cases h with
  | nil => exact .cons ⟨rfl, rfl⟩ .nil
  | cons hab hrest => exact .cons hab hrest

/-- The block that comes of some entries. -/
theorem finish_run (ret : Option Ty) (kept : List BlockEntry) (k : Nat) :
    ∃ id next, ((blockContract ret).finish kept).run k =
      (.ok (.mk id (.block (kept.filterMap BlockEntry.declared?).eraseDups
        (heldStatements k (kept.filterMap BlockEntry.stated?)))
        (ret.getD (((kept.filterMap BlockEntry.stated?).getLast?.map Expr.ty).getD .void))), next) := by
  show ∃ id next, (Except.ok (blockOf ret kept k).1, (blockOf ret kept k).2) = _
  unfold blockOf
  cases kept.filterMap BlockEntry.stated? with
  | nil => exact ⟨k + 1, k + 2, rfl⟩
  | cons e es => exact ⟨k, k + 1, rfl⟩

/-- Twin statements have the same last type. -/
theorem getLast?_ty {as bs : List Expr} (h : List.Forall₂ Expr.Twin as bs) :
    as.getLast?.map Expr.ty = bs.getLast?.map Expr.ty := by
  have htys : as.map Expr.ty = bs.map Expr.ty := by
    induction h with
    | nil => rfl
    | cons hab _ ih => rw [List.map_cons, List.map_cons, hab.ty, ih]
  rw [← List.getLast?_map, ← List.getLast?_map, htys]

/-- Where, how often and in which order variables are declared does not matter: two sequences of
accepted calls that add the same statements in the same order and declare the same variables build
blocks of one type, and these evaluate to the same outcome, with the same effects on the host. -/
theorem declaration_order {ret : Option Ty} {calls calls' : List (At BlockCall)}
    {kept kept' : List BlockEntry} (h : (blockContract ret).accepted calls = .ok kept)
    (h' : (blockContract ret).accepted calls' = .ok kept')
    (hstated : List.Forall₂ Expr.Twin (kept.filterMap BlockEntry.stated?)
      (kept'.filterMap BlockEntry.stated?))
    (hdeclared : SameVariables (kept.filterMap BlockEntry.declared?)
      (kept'.filterMap BlockEntry.declared?)) (k k' : Nat) :
    ∃ tree tree' next next',
      ((blocks ret).build ((blocks ret).after calls)).run k = (.ok tree, next) ∧
      ((blocks ret).build ((blocks ret).after calls')).run k' = (.ok tree', next') ∧
      tree.ty = tree'.ty ∧
      ∀ {σ : Type} (H : Host σ) (fuel : Nat) (I : Interp) (scope : Scope) (m : Machine σ),
        Option.Rel (fun x y => x.1 = y.1 ∧ x.2.host = y.2.host)
          ((eval H fuel I scope tree).run m) ((eval H fuel I scope tree').run m) := by
  have honors := Fluent.honors (blockLedger ret)
  rw [honors.all calls kept h, honors.all calls' kept' h']
  obtain ⟨id, next, hrun⟩ := finish_run ret kept k
  obtain ⟨id', next', hrun'⟩ := finish_run ret kept' k'
  have hty := congrArg (fun ty => ret.getD (ty.getD .void)) (getLast?_ty hstated)
  refine ⟨_, _, next, next', hrun, hrun', hty, fun H fuel I scope m => ?_⟩
  rw [← hty]
  exact eval_blocks H hdeclared (twins_held hstated k k') fuel id id' I scope _ m

namespace Sample

def low : Param := ⟨1, some "low", .int⟩

def high : Param := ⟨2, some "high", .int⟩

def lowNode : Expr := .mk 3 (.parameter low) .int

def highNode : Expr := .mk 4 (.parameter high) .int

/-- The initial value of `high` reads `low`. -/
def declaredFirst : List (At BlockCall) :=
  [⟨5, .parameter highNode⟩, ⟨5, .parameter lowNode⟩, ⟨5, .line lowNode⟩,
    ⟨5, .parameterWith highNode lowNode⟩, ⟨6, .parameter lowNode⟩]

/-- The same block, each variable declared where it is needed. -/
def declaredLate : List (At BlockCall) :=
  [⟨7, .line lowNode⟩, ⟨7, .parameter lowNode⟩, ⟨7, .parameterWith highNode lowNode⟩]

end Sample

theorem declaration_order_late :
    ∃ tree tree' next next',
      ((blocks none).build ((blocks none).after Sample.declaredFirst)).run 8 = (.ok tree, next) ∧
      ((blocks none).build ((blocks none).after Sample.declaredLate)).run 9 = (.ok tree', next') ∧
      tree.ty = tree'.ty ∧
      ∀ {σ : Type} (H : Host σ) (fuel : Nat) (I : Interp) (scope : Scope) (m : Machine σ),
        Option.Rel (fun x y => x.1 = y.1 ∧ x.2.host = y.2.host)
          ((eval H fuel I scope tree).run m) ((eval H fuel I scope tree').run m) := by
  have hfirst : (blockContract none).accepted Sample.declaredFirst =
      .ok [.declared Sample.high, .declared Sample.low, .stated Sample.lowNode,
        .declared Sample.high, .stated (.mk 5 (.assign Sample.high Sample.lowNode) .int),
        .declared Sample.low] := rfl
  have hlate : (blockContract none).accepted Sample.declaredLate =
      .ok [.stated Sample.lowNode, .declared Sample.low, .declared Sample.high,
        .stated (.mk 7 (.assign Sample.high Sample.lowNode) .int)] := rfl
  refine declaration_order hfirst hlate (.cons (.refl _) (.cons ⟨rfl, rfl⟩ .nil)) ?_ 8 9
  constructor
  · intro p
    show p ∈ [Sample.high, Sample.low, Sample.high, Sample.low] ↔ p ∈ [Sample.low, Sample.high]
    simp only [List.mem_cons, List.not_mem_nil, or_false]
    tauto
  · show ∀ p ∈ [Sample.high, Sample.low, Sample.high, Sample.low],
      ∀ q ∈ [Sample.high, Sample.low, Sample.high, Sample.low], p.id = q.id → p = q
    simp [Sample.high, Sample.low]

end CodeTree
