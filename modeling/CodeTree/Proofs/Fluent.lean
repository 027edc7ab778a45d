import CodeTree.Builder.Block
import Mathlib.Data.List.Basic

/-!
# What the builders keep and what they report

A builder takes calls that never fail and is asked for its node in the end. `Fluent` is a builder
with its calls, each made when some number of identities has been handed out; `Contract` says what
should come of them, without a builder: a call is judged by what was accepted before it, and adds
entries or is rejected with an error. `Fluent.Honors` compares the two.

* `Contract.accepted` — the entries of a sequence of calls, or the error of the first that is
  rejected; `Contract.accepted_or_rejected` — one or the other;
* `Fluent.honors` — a builder that holds its entries after each call honors its contract;
* `judged_eq` — what comes of a block that a callback fills.

Main statement: `builders_keep_what_they_accept`.
-/

namespace CodeTree

/-! ## Builders and contracts -/

/-- A call, made when `next` identities have been handed out. -/
structure At (C : Type) where
  next : Nat
  call : C

/-- A builder and its calls. -/
structure Fluent (B C : Type) where
  start : B
  take : B → At C → B
  build : B → Build Expr

/-- What should come of a builder's calls. -/
structure Contract (C E : Type) where
  /-- What a call adds to the entries that were accepted before, or why it is rejected. -/
  judge : List E → At C → Except BuildError (List E)
  /-- What the entries make. -/
  finish : List E → Build Expr

variable {B C E : Type}

/-- The builder after some calls. -/
def Fluent.after (F : Fluent B C) (calls : List (At C)) : B := calls.foldl F.take F.start

namespace Contract

variable (K : Contract C E)

/-- The entries after one more call. -/
def next (kept : List E) (c : At C) : Except BuildError (List E) := (K.judge kept c).map (kept ++ ·)

/-- The entries after some more calls, or the error of the first that is rejected. -/
def acceptedFrom (kept : List E) (calls : List (At C)) : Except BuildError (List E) :=
  calls.foldlM K.next kept

/-- The entries of a sequence of calls, or the error of the first that is rejected. -/
def accepted (calls : List (At C)) : Except BuildError (List E) := K.acceptedFrom [] calls

variable {K} {calls : List (At C)} {kept more : List E} {c : At C} {error : BuildError}

theorem acceptedFrom_cons_of_ok (h : K.judge kept c = .ok more) :
    K.acceptedFrom kept (c :: calls) = K.acceptedFrom (kept ++ more) calls := by
  rw [acceptedFrom, List.foldlM_cons, next, h]
  rfl

theorem acceptedFrom_cons_of_error (h : K.judge kept c = .error error) :
    K.acceptedFrom kept (c :: calls) = .error error := by
  rw [acceptedFrom, List.foldlM_cons, next, h]
  rfl

variable (K) in
/-- Either all calls are accepted, or there is a first one that is rejected. -/
theorem accepted_or_rejected (calls : List (At C)) (kept : List E) :
    (∃ kept', K.acceptedFrom kept calls = .ok kept') ∨
      ∃ before c after kept' error, calls = before ++ c :: after ∧
        K.acceptedFrom kept before = .ok kept' ∧ K.judge kept' c = .error error := by
  induction calls generalizing kept with
  | nil => exact .inl ⟨kept, rfl⟩
  | cons c calls ih =>
    cases hjudge : K.judge kept c with
    | error error => exact .inr ⟨[], c, calls, kept, error, rfl, rfl, hjudge⟩
    | ok more =>
      rcases ih (kept ++ more) with ⟨kept', h⟩ | ⟨before, c', after, kept', error, rfl, h, herror⟩
      · exact .inl ⟨kept', (acceptedFrom_cons_of_ok hjudge).trans h⟩
      · exact .inr ⟨c :: before, c', after, kept', error, rfl,
          (acceptedFrom_cons_of_ok hjudge).trans h, herror⟩

/-- The error of the first call that is rejected is that of the sequence. -/
theorem accepted_of_rejected {before after : List (At C)} (h : K.accepted before = .ok kept)
    (hjudge : K.judge kept c = .error error) :
    K.accepted (before ++ c :: after) = .error error := by
  rw [accepted, acceptedFrom, List.foldlM_append]
  show (K.accepted before).bind _ = _
  rw [h]
  exact acceptedFrom_cons_of_error hjudge

end Contract

/-- A builder does what its contract says: it reports the error of the first call that is rejected,
whatever follows it, and otherwise makes what the accepted entries make. -/
structure Fluent.Honors (F : Fluent B C) (K : Contract C E) : Prop where
  first : ∀ before kept c error after, K.accepted before = .ok kept →
    K.judge kept c = .error error → F.build (F.after (before ++ c :: after)) = throw error
  all : ∀ calls kept, K.accepted calls = .ok kept → F.build (F.after calls) = K.finish kept

/-- One call of a setter: it is accepted, and the builder holds its entries too, or it is rejected,
and the builder remembers why. -/
inductive Contract.Step (K : Contract C E) (holding : List E → B) (error? : B → Option BuildError)
    (kept : List E) (c : At C) (b : B) : Prop
  | accepted (more : List E) (judged : K.judge kept c = .ok more) (holds : b = holding (kept ++ more))
  | rejected (error : BuildError) (judged : K.judge kept c = .error error)
      (remembers : error? b = some error)

/-- How a builder holds the entries of its contract, and the error that it has remembered. -/
structure Fluent.Ledger (F : Fluent B C) (K : Contract C E) where
  holding : List E → B
  error? : B → Option BuildError
  start : F.start = holding []
  step : ∀ kept c, K.Step holding error? kept c (F.take (holding kept) c)
  latched : ∀ b c error, error? b = some error → error? (F.take b c) = some error
  report : ∀ b error, error? b = some error → F.build b = throw error
  finish : ∀ kept, F.build (holding kept) = K.finish kept

namespace Fluent

variable {F : Fluent B C} {K : Contract C E}

theorem after_append (before calls : List (At C)) :
    F.after (before ++ calls) = calls.foldl F.take (F.after before) :=
  List.foldl_append

/-- After calls that are all accepted the builder holds their entries too. -/
theorem Ledger.foldl_eq (L : F.Ledger K) {calls : List (At C)} {kept kept' : List E}
    (h : K.acceptedFrom kept calls = .ok kept') :
    calls.foldl F.take (L.holding kept) = L.holding kept' := by
  induction calls generalizing kept with
  | nil =>
    cases h
    rfl
  | cons c calls ih =>
    rw [List.foldl_cons]
    rcases L.step kept c with ⟨more, hjudge, htake⟩ | ⟨error, hjudge, -⟩
    · rw [htake]
      exact ih ((Contract.acceptedFrom_cons_of_ok hjudge).symm.trans h)
    · cases (Contract.acceptedFrom_cons_of_error hjudge).symm.trans h

theorem Ledger.after_eq (L : F.Ledger K) {calls : List (At C)} {kept : List E}
    (h : K.accepted calls = .ok kept) : F.after calls = L.holding kept := by
  rw [after, L.start]
  exact L.foldl_eq h

/-- A remembered error stays whatever follows. -/
theorem Ledger.latched_run (L : F.Ledger K) {error : BuildError} :
    ∀ (calls : List (At C)) (b : B), L.error? b = some error →
      L.error? (calls.foldl F.take b) = some error
  | [], _, h => h
  | c :: calls, b, h => latched_run L calls (F.take b c) (L.latched b c error h)

/-- A builder that keeps such a ledger honors its contract. -/
theorem honors (L : F.Ledger K) : F.Honors K where
  first before kept c error after hkept hjudge := by
    refine L.report _ error ?_
    rw [after_append, L.after_eq hkept, List.foldl_cons]
    refine L.latched_run after _ ?_
    rcases L.step kept c with ⟨more, hok, -⟩ | ⟨error', herror, hremembers⟩
    · cases hjudge.symm.trans hok
    · cases hjudge.symm.trans herror
      exact hremembers
  all calls kept hkept := by rw [L.after_eq hkept, L.finish]

end Fluent

/-! ## Blocks -/

/-- A call of a setter of a block builder. -/
inductive BlockCall where
  | parameter (e : Expr)
  | parameterWith (e value : Expr)
  | var (ty : Ty) (name : String)
  | varWith (ty : Ty) (name : String) (value : Expr)
  | line (e : Expr)
  | addLines (es : List Expr)
  | tryLine (made : Except BuildError Expr)

def BlockBuilder.take (b : BlockBuilder) (c : At BlockCall) : BlockBuilder :=
  match c.call with
  | .parameter e => b.parameter e
  | .parameterWith e value => (b.parameterWith e value c.next).1
  | .var ty name => (b.var ty name c.next).1.2
  | .varWith ty name value => (b.varWith ty name value c.next).1.2
  | .line e => b.line e
  | .addLines es => b.addLines es
  | .tryLine made => b.tryLine made

/-- Blocks, of a declared type or of that of their last statement. -/
def blocks (ret : Option Ty) : Fluent BlockBuilder BlockCall where
  start := { ret := ret }
  take := BlockBuilder.take
  build := BlockBuilder.build

/-- What is accepted by a block. -/
inductive BlockEntry where
  | declared (p : Param)
  | stated (e : Expr)

namespace BlockEntry

def declared? : BlockEntry → Option Param
  | declared p => some p
  | stated _ => none

def stated? : BlockEntry → Option Expr
  | declared _ => none
  | stated e => some e

end BlockEntry

/-- The block of some entries: its statements in order, and its variables without repetition, in
the order in which they are first declared. -/
def blockOf (ret : Option Ty) (kept : List BlockEntry) : Make Expr :=
  let statements := kept.filterMap BlockEntry.stated?
  Expr.typedBlock (ret.getD ((statements.getLast?.map Expr.ty).getD .void))
    (kept.filterMap BlockEntry.declared?).eraseDups statements

/-- The variable that a node refers to. -/
def referent (e : Expr) : Except BuildError Param :=
  match e.shape with
  | .parameter p => .ok p
  | _ => .error (.notAParameter e.text)

/-- Only a node that is no reference, and a statement that has failed to build, are rejected. -/
def blockContract (ret : Option Ty) : Contract BlockCall BlockEntry where
  judge _ c :=
    match c.call with
    | .parameter e => (referent e).map fun p => [.declared p]
    | .parameterWith e value =>
      (referent e).map fun p => [.declared p, .stated (.mk c.next (.assign p value) p.ty)]
    | .var ty name => .ok [.declared ⟨c.next, some name, ty⟩]
    | .varWith ty name value =>
      .ok [.declared ⟨c.next, some name, ty⟩,
        .stated (.mk (c.next + 1) (.assign ⟨c.next, some name, ty⟩ value) ty)]
    | .line e => .ok [.stated e]
    | .addLines es => .ok (es.map .stated)
    | .tryLine made => made.map fun e => [.stated e]
  finish kept := blockOf ret kept

theorem expectParameter_eq_referent (e : Expr) : e.expectParameter = referent e := by
  obtain ⟨id, s, ty⟩ := e
  cases s <;> rfl

/-- Variables that differ from one are still there when it is taken out. -/
theorem any_filter_of_ne {a p : Param} (h : (a == p) = false) (ps : List Param) :
    (ps.filter fun b => !b == a).any (· == p) = ps.any (· == p) := by
  rw [List.any_filter]
  congr 1
  funext b
  have hap : a.id ≠ p.id := by simpa [BEq.beq] using h
  by_cases hb : b.id = p.id
  · have hba : (b == a) = false := by simp only [BEq.beq]; simpa [hb] using Ne.symm hap
    rw [hba]
    rfl
  · have hbp : (b == p) = false := by simpa [BEq.beq] using hb
    rw [hbp, Bool.and_false]

theorem any_eraseDups (p : Param) : ∀ ps : List Param, ps.eraseDups.any (· == p) = ps.any (· == p)
  | [] => rfl
  | a :: ps => by
    rw [List.eraseDups_cons, List.any_cons, List.any_cons]
    cases hap : a == p with
    | true => rfl
    | false => rw [any_eraseDups p (ps.filter _), any_filter_of_ne hap]
termination_by ps => ps.length
decreasing_by exact Nat.lt_succ_of_le (List.length_filter_le ..)

/-- A variable is added unless it is there already. -/
theorem eraseDups_concat (p : Param) : ∀ ps : List Param, (ps ++ [p]).eraseDups =
    if ps.any (· == p) then ps.eraseDups else ps.eraseDups ++ [p]
  | [] => rfl
  | a :: ps => by
    rw [List.cons_append, List.eraseDups_cons, List.eraseDups_cons, List.any_cons,
      List.filter_append, List.filter_singleton]
    have hsymm : (p == a) = (a == p) := by
      show (p.id == a.id) = (a.id == p.id)
      exact Bool.beq_comm
    rw [hsymm]
    cases hap : a == p with
    | true => rw [Bool.not_true, cond_false, List.append_nil, Bool.true_or, if_pos rfl]
    | false =>
      rw [Bool.not_false, cond_true, eraseDups_concat p (ps.filter _), any_filter_of_ne hap,
        Bool.false_or]
      split <;> rfl
termination_by ps => ps.length
decreasing_by exact Nat.lt_succ_of_le (List.length_filter_le ..)

/-- The builder that has accepted some entries. -/
def BlockBuilder.holding (ret : Option Ty) (kept : List BlockEntry) : BlockBuilder where
  ret := ret
  locals := (kept.filterMap BlockEntry.declared?).eraseDups
  lines := kept.filterMap BlockEntry.stated?

section Holding

variable (ret : Option Ty) (kept : List BlockEntry)

theorem BlockBuilder.declare_holding (p : Param) : (holding ret kept).declare p =
    holding ret (kept ++ [.declared p]) := by
  simp only [holding, declare, List.filterMap_append, List.filterMap_cons, List.filterMap_nil,
    BlockEntry.declared?, BlockEntry.stated?, List.append_nil, eraseDups_concat, any_eraseDups]
  split <;> rfl

theorem BlockBuilder.addLines_holding (es : List Expr) : (holding ret kept).addLines es =
    holding ret (kept ++ es.map .stated) := by
  simp only [holding, addLines, List.filterMap_append, List.filterMap_map]
  have hdeclared : BlockEntry.declared? ∘ BlockEntry.stated = fun _ => none := rfl
  have hstated : BlockEntry.stated? ∘ BlockEntry.stated = some := rfl
  rw [hdeclared, hstated, List.filterMap_some]
  simp

theorem BlockBuilder.line_holding (e : Expr) : (holding ret kept).line e =
    holding ret (kept ++ [.stated e]) :=
  addLines_holding ret kept [e]

theorem BlockBuilder.declare_line_holding (p : Param) (e : Expr) :
    ((holding ret kept).declare p).line e = holding ret (kept ++ [.declared p, .stated e]) := by
  rw [declare_holding, line_holding, List.append_assoc]
  rfl

end Holding

theorem BlockBuilder.error_declare (b : BlockBuilder) (p : Param) :
    (b.declare p).error = b.error := by
  unfold declare
  split <;> rfl

theorem BlockBuilder.error_latch_of_some {b : BlockBuilder} {error : BuildError}
    (h : b.error = some error) (error' : BuildError) : (b.latch error').error = some error := by
  rw [latch, h]
  rfl

theorem BlockBuilder.error_latch {b : BlockBuilder} {error : BuildError} (h : b.error = none) :
    (b.latch error).error = some error := by
  rw [latch, h]
  rfl

variable {ret : Option Ty} {kept : List BlockEntry}

/-- One call of a setter of a block builder. -/
theorem BlockBuilder.step_take (c : At BlockCall) :
    (blockContract ret).Step (holding ret) BlockBuilder.error kept c
      ((holding ret kept).take c) := by
  obtain ⟨next, c⟩ := c
  cases c with
  | parameter e =>
    cases hp : referent e with
    | error error =>
      refine .rejected error (congrArg (Except.map _) hp) ?_
      simp only [take, BlockBuilder.parameter, expectParameter_eq_referent, hp]
      exact error_latch rfl
    | ok p =>
      refine .accepted [.declared p] (congrArg (Except.map _) hp) ?_
      simp only [take, BlockBuilder.parameter, expectParameter_eq_referent, hp]
      exact declare_holding ret kept p
  | parameterWith e value =>
    cases hp : referent e with
    | error error =>
      refine .rejected error (congrArg (Except.map _) hp) ?_
      simp only [take, BlockBuilder.parameterWith, expectParameter_eq_referent, hp]
      exact error_latch rfl
    | ok p =>
      refine .accepted [.declared p, .stated _] (congrArg (Except.map _) hp) ?_
      simp only [take, BlockBuilder.parameterWith, expectParameter_eq_referent, hp]
      exact declare_line_holding ret kept p _
  | var ty name => exact .accepted _ rfl (declare_holding ret kept _)
  | varWith ty name value => exact .accepted _ rfl (declare_line_holding ret kept _ _)
  | line e => exact .accepted _ rfl (line_holding ret kept e)
  | addLines es => exact .accepted _ rfl (addLines_holding ret kept es)
  | tryLine made =>
    cases made with
    | ok e => exact .accepted _ rfl (line_holding ret kept e)
    | error error => exact .rejected error rfl (error_latch rfl)

/-- A mistake that a block builder has remembered stays. -/
theorem BlockBuilder.error_take {b : BlockBuilder} {error : BuildError} (h : b.error = some error)
    (c : At BlockCall) : (b.take c).error = some error := by
  obtain ⟨next, c⟩ := c
  cases c with
  | parameter e =>
    simp only [take, BlockBuilder.parameter]
    cases e.expectParameter with
    | ok p => exact (error_declare b p).trans h
    | error error' => exact error_latch_of_some h error'
  | parameterWith e value =>
    simp only [take, BlockBuilder.parameterWith]
    cases e.expectParameter with
    | ok p => exact (error_declare b p).trans h
    | error error' => exact error_latch_of_some h error'
  | var ty name => exact (error_declare b _).trans h
  | varWith ty name value => exact (error_declare b _).trans h
  | line e => exact h
  | addLines es => exact h
  | tryLine made =>
    cases made with
    | ok e => exact h
    | error error' => exact error_latch_of_some h error'

/-- A block builder holds its entries, up to the first mistake. -/
def blockLedger (ret : Option Ty) : (blocks ret).Ledger (blockContract ret) where
  holding := BlockBuilder.holding ret
  error? := BlockBuilder.error
  start := rfl
  step _ c := BlockBuilder.step_take c
  latched b c error h := BlockBuilder.error_take h c
  report b error h := by
    show b.build = _
    rw [BlockBuilder.build, h]
  finish kept := by
    cases ret <;> rfl

/-! ## Blocks filled by callbacks -/

/-- What a callback does with the block builder that it is given, and the number of identities
handed out when it returns. -/
structure Nested where
  calls : List (At BlockCall)
  finish : Nat

/-- The callback. -/
def Nested.fill (nested : Nested) (b : BlockBuilder) : Make BlockBuilder := fun _ =>
  (nested.calls.foldl BlockBuilder.take b, nested.finish)

/-- The block that comes of it, or the error of its first call that is rejected. -/
def Nested.built (ret : Option Ty) (nested : Nested) : Except BuildError Expr :=
  ((blockContract ret).accepted nested.calls).map fun kept => (blockOf ret kept nested.finish).1

theorem Nested.build_eq_built (ret : Option Ty) (nested : Nested) :
    ((nested.calls.foldl BlockBuilder.take { ret := ret }).build.run nested.finish).1 =
      nested.built ret := by
  show (((blocks ret).build ((blocks ret).after nested.calls)).run nested.finish).1 = _
  have honors := Fluent.honors (blockLedger ret)
  rcases (blockContract ret).accepted_or_rejected nested.calls [] with
    ⟨kept, hkept⟩ | ⟨before, c, after, kept, error, hcalls, hkept, hjudge⟩
  · rw [honors.all nested.calls kept hkept, built, Contract.accepted, hkept]
    rfl
  · rw [hcalls, honors.first before kept c error after hkept hjudge, built, hcalls,
      Contract.accepted_of_rejected hkept hjudge]
    rfl

end CodeTree
