import CodeTree.Builder.Condition
import CodeTree.Builder.Guard
import CodeTree.Builder.Switch
import CodeTree.Proofs.Fluent

/-!
# The first mistake of a builder

The builders of conditionals, switches and guarded regions with their contracts. Each contract is
written without the builder: how a call is judged, with the error of a rejection, and the node that
the accepted entries make. The proofs have one form: the builder that holds some entries
(`holding`), one lemma for each kind of entry that is added to it, what one call does
(`step_take`), and that a remembered mistake stays (`error_take`).

* `Nested` — a callback, known by the calls that it makes of the block builder that it is given;
* `fitting`, `fittingBlock` — how an arm of a conditional is judged: a block by its last statement;
* `yielding`, `yieldingBlock` — how a body of a switch is judged: by its static type, which is no
  condition on a block (`yieldingBlock_eq_built`);
* `comparerError?_eq_none_iff` — what a comparer has to be.

Main statement: `builders_keep_what_they_accept`.
-/

namespace CodeTree

/-! ## Conditionals -/

/-- A call of a setter of a conditional's builder; setting the condition together with an arm is
two calls. -/
inductive ConditionCall where
  | test (e : Expr)
  | ifTrue (arm : Expr)
  | ifFalse (arm : Expr)
  | ifTrueBlock (arm : Nested)
  | ifFalseBlock (arm : Nested)

def ConditionBuilder.take (b : ConditionBuilder) (c : At ConditionCall) : ConditionBuilder :=
  match c.call with
  | .test e => b.setTest e
  | .ifTrue arm => b.setThen arm
  | .ifFalse arm => b.setElse arm
  | .ifTrueBlock arm => (b.thenBlock (m := Make) arm.fill c.next).1
  | .ifFalseBlock arm => (b.elseBlock (m := Make) arm.fill c.next).1

/-- Conditionals of a type. -/
def conditions (R : Ty) : Fluent ConditionBuilder ConditionCall where
  start := { result := R }
  take := ConditionBuilder.take
  build := ConditionBuilder.build

/-- What is accepted by a conditional. -/
inductive ConditionEntry where
  | test (e : Expr)
  | ifTrue (e : Expr)
  | ifFalse (e : Expr)

namespace ConditionEntry

def test? : ConditionEntry → Option Expr
  | test e => some e
  | _ => none

def ifTrue? : ConditionEntry → Option Expr
  | ifTrue e => some e
  | _ => none

def ifFalse? : ConditionEntry → Option Expr
  | ifFalse e => some e
  | _ => none

end ConditionEntry

/-- An arm, judged by the node that gives its value. -/
def fitting (R : Ty) (arm value : Expr) : Except BuildError Expr :=
  if R.isVoid || R.isAssignableFrom value.ty || value.isDeparture then .ok arm
  else .error (.conditionResultMismatch R.text value.ty.text)

/-- An arm that a callback fills, judged by its last statement. -/
def fittingBlock (R : Ty) (arm : Nested) : Except BuildError Expr := do
  let block ← arm.built (if R.isVoid then none else some R)
  fitting R block (ConditionBuilder.lastStatement block)

/-- An arm that yields no value of the result type is rejected, and so is one whose block is. A
condition is mandatory, and of each part the last that was accepted counts. -/
def conditionContract (R : Ty) : Contract ConditionCall ConditionEntry where
  judge _ c :=
    match c.call with
    | .test e => .ok [.test e]
    | .ifTrue arm => (fitting R arm arm).map fun e => [.ifTrue e]
    | .ifFalse arm => (fitting R arm arm).map fun e => [.ifFalse e]
    | .ifTrueBlock arm => (fittingBlock R arm).map fun e => [.ifTrue e]
    | .ifFalseBlock arm => (fittingBlock R arm).map fun e => [.ifFalse e]
  finish kept :=
    match (kept.filterMap ConditionEntry.test?).getLast? with
    | none => throw .conditionNotDefined
    | some test => do
      let ifTrue ← ((kept.filterMap ConditionEntry.ifTrue?).getLast?.elim (Expr.defaultOf R) pure)
      let ifFalse ← ((kept.filterMap ConditionEntry.ifFalse?).getLast?.elim (Expr.defaultOf R) pure)
      Expr.conditional test ifTrue ifFalse R

namespace ConditionBuilder

/-- The builder that has accepted some entries. -/
def holding (R : Ty) (kept : List ConditionEntry) : ConditionBuilder where
  result := R
  test := (kept.filterMap ConditionEntry.test?).getLast?
  ifTrue := (kept.filterMap ConditionEntry.ifTrue?).getLast?
  ifFalse := (kept.filterMap ConditionEntry.ifFalse?).getLast?

theorem lastStatement_typedBlock (ty : Ty) (locals : List Param) {body : List Expr} {last : Expr}
    (h : body.getLast? = some last) (n : Nat) :
    lastStatement (Expr.typedBlock ty locals body n).1 = last := by
  cases body with
  | nil => cases h
  | cons first rest =>
    show ((first :: rest).getLast?).getD (Expr.typedBlock ty locals (first :: rest) n).1 = last
    rw [h]
    rfl

/-- What a setter goes on with when an arm was judged. -/
def settled (b : ConditionBuilder) : Except BuildError Expr → Option Expr × ConditionBuilder
  | .ok arm => (some arm, b)
  | .error error => (none, b.latch error)

theorem checked_eq_settled (b : ConditionBuilder) (arm value : Expr) :
    b.checked arm value = b.settled (fitting b.result arm value) := by
  unfold checked mismatch? fitting
  cases b.result.isVoid || b.result.isAssignableFrom value.ty || value.isDeparture <;> rfl

theorem finishArm_run (b : ConditionBuilder) (arm : BlockBuilder) (n : Nat) :
    (b.finishArm arm n).1 = b.settled (do
      let block ← (arm.build.run n).1
      fitting b.result block (lastStatement block)) := by
  obtain ⟨r, n', hrun⟩ : ∃ r n', arm.build.run n = (r, n') := ⟨_, _, rfl⟩
  simp only [finishArm, bind, StateT.bind, hrun]
  cases r with
  | ok block => exact b.checked_eq_settled block (lastStatement block)
  | error error => rfl

theorem finishArm_fill (b : ConditionBuilder) (arm : Nested) :
    (b.finishArm (arm.calls.foldl BlockBuilder.take b.startArm) arm.finish).1 =
      b.settled (fittingBlock b.result arm) := by
  rw [finishArm_run, fittingBlock, ← arm.build_eq_built]
  rfl

section Holding

variable (R : Ty) (kept : List ConditionEntry) (e : Expr)

theorem setTest_holding : (holding R kept).setTest e = holding R (kept ++ [.test e]) := by
  simp [holding, setTest, ConditionEntry.test?, ConditionEntry.ifTrue?, ConditionEntry.ifFalse?]

theorem ifTrue_holding :
    { holding R kept with ifTrue := some e } = holding R (kept ++ [.ifTrue e]) := by
  simp [holding, ConditionEntry.test?, ConditionEntry.ifTrue?, ConditionEntry.ifFalse?]

theorem ifFalse_holding :
    { holding R kept with ifFalse := some e } = holding R (kept ++ [.ifFalse e]) := by
  simp [holding, ConditionEntry.test?, ConditionEntry.ifTrue?, ConditionEntry.ifFalse?]

end Holding

section Steps

variable {R : Ty} {kept : List ConditionEntry} {c : At ConditionCall} {b : ConditionBuilder}
  {r : Except BuildError Expr}

/-- A first arm that was judged. -/
theorem step_ifTrue (hjudge : (conditionContract R).judge kept c = r.map fun e => [.ifTrue e])
    (hb : b = { ((holding R kept).settled r).2 with ifTrue := ((holding R kept).settled r).1 }) :
    (conditionContract R).Step (holding R) ConditionBuilder.error kept c b := by
  subst hb
  cases r with
  | ok e => exact .accepted _ hjudge (ifTrue_holding R kept e)
  | error error => exact .rejected error hjudge rfl

/-- A second arm that was judged. -/
theorem step_ifFalse (hjudge : (conditionContract R).judge kept c = r.map fun e => [.ifFalse e])
    (hb : b = { ((holding R kept).settled r).2 with ifFalse := ((holding R kept).settled r).1 }) :
    (conditionContract R).Step (holding R) ConditionBuilder.error kept c b := by
  subst hb
  cases r with
  | ok e => exact .accepted _ hjudge (ifFalse_holding R kept e)
  | error error => exact .rejected error hjudge rfl

end Steps

/-- One call of a setter of a conditional's builder. -/
theorem step_take (R : Ty) (kept : List ConditionEntry) (c : At ConditionCall) :
    (conditionContract R).Step (holding R) ConditionBuilder.error kept c
      ((holding R kept).take c) := by
  obtain ⟨next, c⟩ := c
  cases c with
  | test e => exact .accepted _ rfl (setTest_holding R kept e)
  | ifTrue arm =>
    refine step_ifTrue (r := fitting R arm arm) rfl ?_
    simp only [take, setThen, checked_eq_settled]
    rfl
  | ifFalse arm =>
    refine step_ifFalse (r := fitting R arm arm) rfl ?_
    simp only [take, setElse, checked_eq_settled]
    rfl
  | ifTrueBlock arm =>
    refine step_ifTrue (r := fittingBlock R arm) rfl ?_
    have hsettled : _ = (holding R kept).settled (fittingBlock R arm) :=
      (holding R kept).finishArm_fill arm
    rw [← hsettled]
    rfl
  | ifFalseBlock arm =>
    refine step_ifFalse (r := fittingBlock R arm) rfl ?_
    have hsettled : _ = (holding R kept).settled (fittingBlock R arm) :=
      (holding R kept).finishArm_fill arm
    rw [← hsettled]
    rfl

theorem error_settled {b : ConditionBuilder} {error : BuildError} (h : b.error = some error)
    (r : Except BuildError Expr) : (b.settled r).2.error = some error := by
  cases r with
  | ok e => exact h
  | error error' =>
    show (b.error <|> some error') = some error
    rw [h]
    rfl

/-- A mistake that a conditional's builder has remembered stays. -/
theorem error_take {b : ConditionBuilder} {error : BuildError} (h : b.error = some error)
    (c : At ConditionCall) : (b.take c).error = some error := by
  obtain ⟨next, c⟩ := c
  cases c with
  | test e => exact h
  | ifTrue arm =>
    show (b.checked arm arm).2.error = some error
    rw [checked_eq_settled]
    exact error_settled h _
  | ifFalse arm =>
    show (b.checked arm arm).2.error = some error
    rw [checked_eq_settled]
    exact error_settled h _
  | ifTrueBlock arm =>
    show (b.finishArm _ _).1.2.error = some error
    rw [finishArm_run]
    exact error_settled h _
  | ifFalseBlock arm =>
    show (b.finishArm _ _).1.2.error = some error
    rw [finishArm_run]
    exact error_settled h _

end ConditionBuilder

/-- A conditional's builder holds its entries, up to the first mistake. -/
def conditionLedger (R : Ty) : (conditions R).Ledger (conditionContract R) where
  holding := ConditionBuilder.holding R
  error? := ConditionBuilder.error
  start := rfl
  step := ConditionBuilder.step_take R
  latched _ c _ h := ConditionBuilder.error_take h c
  report b error h := by
    show b.build = _
    rw [ConditionBuilder.build, h]
  finish kept := by
    show (ConditionBuilder.holding R kept).build = _
    simp only [ConditionBuilder.build, ConditionBuilder.holding, conditionContract]
    cases (kept.filterMap ConditionEntry.test?).getLast? with
    | none => rfl
    | some test =>
      cases (kept.filterMap ConditionEntry.ifTrue?).getLast? <;>
        cases (kept.filterMap ConditionEntry.ifFalse?).getLast? <;> rfl

/-! ## Switches -/

/-- A call of a setter of a switch's builder; fixing the result type together with the first case
or the default is two calls. -/
inductive SwitchCall where
  | returns (ty : Ty)
  | case (body : Expr) (tests : List Expr)
  | caseBlock (body : Nested) (tests : List Expr)
  | default (body : Expr)
  | defaultBlock (body : Nested)
  | comparer (method : Method)

def SwitchBuilder.take (b : SwitchBuilder) (c : At SwitchCall) : SwitchBuilder :=
  match c.call with
  | .returns ty => b.returns ty
  | .case body tests => b.case body tests
  | .caseBlock body tests => (b.caseBlock (m := Make) (fun _ => body.fill) tests c.next).1
  | .default body => b.setDefault body
  | .defaultBlock body => (b.defaultBlock (m := Make) (fun _ => body.fill) c.next).1
  | .comparer method => b.setComparer method

/-- Switches over a node, whose comparers take values of a type. -/
def switches (value : Expr) (scrutinee : Ty) : Fluent SwitchBuilder SwitchCall where
  start := { value := value, scrutinee := scrutinee }
  take := SwitchBuilder.take
  build := SwitchBuilder.build

/-- What is accepted by a switch. -/
inductive SwitchEntry where
  | result (ty : Ty)
  | arm (a : Case Expr)
  | default (body : Expr)
  | comparer (method : Method)

namespace SwitchEntry

def result? : SwitchEntry → Option Ty
  | result ty => some ty
  | _ => none

def arm? : SwitchEntry → Option (Case Expr)
  | arm a => some a
  | _ => none

def default? : SwitchEntry → Option Expr
  | default body => some body
  | _ => none

def comparer? : SwitchEntry → Option Method
  | comparer method => some method
  | _ => none

/-- The result type that entries fix, `void` if none does. -/
def resultOf (kept : List SwitchEntry) : Ty := (kept.filterMap result?).getLast?.getD .void

end SwitchEntry

/-- A body, judged by its static type. -/
def yielding (R : Ty) (body : Expr) : Except BuildError Expr :=
  if R.isVoid || R.isAssignableFrom body.ty then .ok body
  else .error (.switchResultMismatch R.text body.ty.text)

/-- A body that a callback fills, judged by its static type too. -/
def yieldingBlock (R : Ty) (body : Nested) : Except BuildError Expr := do
  let block ← body.built (some R)
  yielding R block

/-- The default of a switch for which none was set. -/
def missingDefault (R : Ty) : Make (Option Expr) :=
  if R.isVoid then pure none else some <$> Expr.defaultOf R

/-- A body that is not of the result type fixed before is rejected, and so are one whose block is, a
comparer that is none, and a result type that is fixed after a body. -/
def switchContract (value : Expr) (scrutinee : Ty) : Contract SwitchCall SwitchEntry where
  judge kept c :=
    match c.call with
    | .returns ty =>
      if kept.any fun entry => entry.arm?.isSome || entry.default?.isSome then
        .error .mixedSwitchResult
      else .ok [.result ty]
    | .case body tests =>
      (yielding (SwitchEntry.resultOf kept) body).map fun body => [.arm ⟨tests, body⟩]
    | .caseBlock body tests =>
      (yieldingBlock (SwitchEntry.resultOf kept) body).map fun body => [.arm ⟨tests, body⟩]
    | .default body =>
      (yielding (SwitchEntry.resultOf kept) body).map fun body => [.default body]
    | .defaultBlock body =>
      (yieldingBlock (SwitchEntry.resultOf kept) body).map fun body => [.default body]
    | .comparer method =>
      match SwitchBuilder.comparerError? scrutinee method with
      | some error => .error error
      | none => .ok [.comparer method]
  finish kept := do
    let R := SwitchEntry.resultOf kept
    let default ← ((kept.filterMap SwitchEntry.default?).getLast?.elim (missingDefault R)
      fun body => pure (some body))
    Expr.switch R value (kept.filterMap SwitchEntry.arm?) default
      (kept.filterMap SwitchEntry.comparer?).getLast?

theorem ty_typedBlock (ty : Ty) (locals : List Param) (body : List Expr) (n : Nat) :
    (Expr.typedBlock ty locals body n).1.ty = ty := by
  cases body <;> rfl

theorem Nested.ty_of_built {R : Ty} {nested : Nested} {block : Expr}
    (h : nested.built (some R) = .ok block) : block.ty = R := by
  unfold built at h
  cases hkept : (blockContract (some R)).accepted nested.calls with
  | error error =>
    rw [hkept] at h
    cases h
  | ok kept =>
    rw [hkept] at h
    cases h
    exact ty_typedBlock R _ _ nested.finish

/-- So the static type of a body that a callback fills always fits. -/
theorem yieldingBlock_eq_built (R : Ty) (body : Nested) :
    yieldingBlock R body = body.built (some R) := by
  unfold yieldingBlock
  cases h : body.built (some R) with
  | error error => rfl
  | ok block =>
    show yielding R block = _
    rw [yielding, Nested.ty_of_built h, Ty.isAssignableFrom_self, Bool.or_true]
    rfl

namespace SwitchBuilder

/-- The builder that has accepted some entries. -/
def holding (value : Expr) (scrutinee : Ty) (kept : List SwitchEntry) : SwitchBuilder where
  value := value
  scrutinee := scrutinee
  result := SwitchEntry.resultOf kept
  cases := kept.filterMap SwitchEntry.arm?
  default := (kept.filterMap SwitchEntry.default?).getLast?
  comparer := (kept.filterMap SwitchEntry.comparer?).getLast?

theorem checked_eq_yielding (b : SwitchBuilder) (body : Expr) :
    b.checked body = yielding b.result body := by
  unfold checked yielding
  cases b.result.isVoid <;> cases b.result.isAssignableFrom body.ty <;> rfl

section Holding

variable (value : Expr) (scrutinee : Ty) (kept : List SwitchEntry)

theorem result_holding (ty : Ty) : { holding value scrutinee kept with result := ty } =
    holding value scrutinee (kept ++ [.result ty]) := by
  simp [holding, SwitchEntry.resultOf, SwitchEntry.result?, SwitchEntry.arm?, SwitchEntry.default?,
    SwitchEntry.comparer?]

theorem addCase_holding (body : Expr) (tests : List Expr) :
    (holding value scrutinee kept).addCase (.ok body) tests =
      holding value scrutinee (kept ++ [.arm ⟨tests, body⟩]) := by
  simp [holding, addCase, SwitchEntry.resultOf, SwitchEntry.result?, SwitchEntry.arm?,
    SwitchEntry.default?, SwitchEntry.comparer?]

theorem putDefault_holding (body : Expr) :
    (holding value scrutinee kept).putDefault (.ok body) =
      holding value scrutinee (kept ++ [.default body]) := by
  simp [holding, putDefault, SwitchEntry.resultOf, SwitchEntry.result?, SwitchEntry.arm?,
    SwitchEntry.default?, SwitchEntry.comparer?]

theorem comparer_holding (method : Method) :
    { holding value scrutinee kept with comparer := some method } =
      holding value scrutinee (kept ++ [.comparer method]) := by
  simp [holding, SwitchEntry.resultOf, SwitchEntry.result?, SwitchEntry.arm?, SwitchEntry.default?,
    SwitchEntry.comparer?]

end Holding

section Steps

variable {value : Expr} {scrutinee : Ty} {kept : List SwitchEntry} {c : At SwitchCall}
  {r : Except BuildError Expr}

/-- A case whose body was judged. -/
theorem step_addCase (tests : List Expr) (hjudge : (switchContract value scrutinee).judge kept c =
      r.map fun body => [.arm ⟨tests, body⟩]) :
    (switchContract value scrutinee).Step (holding value scrutinee) SwitchBuilder.error kept c
      ((holding value scrutinee kept).addCase r tests) := by
  cases r with
  | ok body => exact .accepted _ hjudge (addCase_holding value scrutinee kept body tests)
  | error error => exact .rejected error hjudge rfl

/-- A default whose body was judged. -/
theorem step_putDefault (hjudge : (switchContract value scrutinee).judge kept c =
      r.map fun body => [.default body]) :
    (switchContract value scrutinee).Step (holding value scrutinee) SwitchBuilder.error kept c
      ((holding value scrutinee kept).putDefault r) := by
  cases r with
  | ok body => exact .accepted _ hjudge (putDefault_holding value scrutinee kept body)
  | error error => exact .rejected error hjudge rfl

end Steps

/-- A comparer is static and takes two values of the scrutinee's type. -/
theorem comparerError?_eq_none_iff (ty : Ty) (method : Method) :
    comparerError? ty method = none ↔
      method.isStatic = true ∧ method.params.length = 2 ∧ ∀ p ∈ method.params, (p == ty) = true := by
  unfold comparerError?
  cases method.isStatic with
  | false => simp
  | true =>
    by_cases hlength : method.params.length = 2
    · simp [hlength, bne]
    · simp [hlength]

/-- The builder has a body if and only if an entry is one. -/
theorem hasBody_holding (value : Expr) (scrutinee : Ty) (kept : List SwitchEntry) :
    ((holding value scrutinee kept).cases.isEmpty && (holding value scrutinee kept).default.isNone) =
      !kept.any fun entry => entry.arm?.isSome || entry.default?.isSome := by
  rw [Bool.eq_iff_iff]
  simp [holding, List.filterMap_eq_nil_iff, forall_and]

theorem bodyBlock_fill (b : SwitchBuilder) (body : Nested) (n : Nat) :
    (b.bodyBlock (m := Make) (fun _ => body.fill) n).1 = yieldingBlock b.result body := by
  rw [yieldingBlock_eq_built, ← body.build_eq_built]
  rfl

/-- One call of a setter of a switch's builder. -/
theorem step_take (value : Expr) (scrutinee : Ty) (kept : List SwitchEntry) (c : At SwitchCall) :
    (switchContract value scrutinee).Step (holding value scrutinee) SwitchBuilder.error kept c
      ((holding value scrutinee kept).take c) := by
  obtain ⟨next, c⟩ := c
  cases c with
  | returns ty =>
    have hbody := hasBody_holding value scrutinee kept
    cases hany : kept.any fun entry => entry.arm?.isSome || entry.default?.isSome with
    | true =>
      rw [hany] at hbody
      refine .rejected .mixedSwitchResult (if_pos hany) ?_
      simp only [take, returns, hbody]
      rfl
    | false =>
      rw [hany] at hbody
      refine .accepted [.result ty] (if_neg (Bool.not_eq_true _ ▸ hany)) ?_
      simp only [take, returns, hbody]
      exact result_holding value scrutinee kept ty
  | case body tests =>
    show (switchContract value scrutinee).Step _ _ _ _
      ((holding value scrutinee kept).addCase ((holding value scrutinee kept).checked body) tests)
    rw [checked_eq_yielding]
    exact step_addCase tests rfl
  | caseBlock body tests =>
    show (switchContract value scrutinee).Step _ _ _ _ ((holding value scrutinee kept).addCase
      ((holding value scrutinee kept).bodyBlock (m := Make) (fun _ => body.fill) next).1 tests)
    rw [bodyBlock_fill]
    exact step_addCase tests rfl
  | default body =>
    show (switchContract value scrutinee).Step _ _ _ _
      ((holding value scrutinee kept).putDefault ((holding value scrutinee kept).checked body))
    rw [checked_eq_yielding]
    exact step_putDefault rfl
  | defaultBlock body =>
    show (switchContract value scrutinee).Step _ _ _ _ ((holding value scrutinee kept).putDefault
      ((holding value scrutinee kept).bodyBlock (m := Make) (fun _ => body.fill) next).1)
    rw [bodyBlock_fill]
    exact step_putDefault rfl
  | comparer method =>
    cases hcomparer : comparerError? scrutinee method with
    | some error =>
      refine .rejected error ?_ ?_
      · simp only [switchContract, hcomparer]
      · simp only [take, setComparer, holding, hcomparer]
        rfl
    | none =>
      refine .accepted [.comparer method] ?_ ?_
      · simp only [switchContract, hcomparer]
      · simp only [take, setComparer]
        rw [show comparerError? (holding value scrutinee kept).scrutinee method = none from hcomparer]
        exact comparer_holding value scrutinee kept method

theorem error_latch {b : SwitchBuilder} {error : BuildError} (h : b.error = some error)
    (error' : BuildError) : (b.latch error').error = some error := by
  rw [latch, h]
  rfl

theorem error_addCase {b : SwitchBuilder} {error : BuildError} (h : b.error = some error)
    (r : Except BuildError Expr) (tests : List Expr) : (b.addCase r tests).error = some error := by
  cases r with
  | ok body => exact h
  | error error' => exact error_latch h error'

theorem error_putDefault {b : SwitchBuilder} {error : BuildError} (h : b.error = some error)
    (r : Except BuildError Expr) : (b.putDefault r).error = some error := by
  cases r with
  | ok body => exact h
  | error error' => exact error_latch h error'

/-- A mistake that a switch's builder has remembered stays. -/
theorem error_take {b : SwitchBuilder} {error : BuildError} (h : b.error = some error)
    (c : At SwitchCall) : (b.take c).error = some error := by
  obtain ⟨next, c⟩ := c
  cases c with
  | returns ty =>
    simp only [take, returns]
    split
    · exact h
    · exact error_latch h .mixedSwitchResult
  | case body tests => exact error_addCase h _ tests
  | caseBlock body tests => exact error_addCase h _ tests
  | default body => exact error_putDefault h _
  | defaultBlock body => exact error_putDefault h _
  | comparer method =>
    simp only [take, setComparer]
    split
    · exact error_latch h _
    · exact h

end SwitchBuilder

/-- A switch's builder holds its entries, up to the first mistake. -/
def switchLedger (value : Expr) (scrutinee : Ty) :
    (switches value scrutinee).Ledger (switchContract value scrutinee) where
  holding := SwitchBuilder.holding value scrutinee
  error? := SwitchBuilder.error
  start := rfl
  step := SwitchBuilder.step_take value scrutinee
  latched _ c _ h := SwitchBuilder.error_take h c
  report b error h := by
    show b.build = _
    rw [SwitchBuilder.build, h]
  finish kept := by
    show (SwitchBuilder.holding value scrutinee kept).build = _
    simp only [SwitchBuilder.build, SwitchBuilder.builtDefault, SwitchBuilder.holding,
      switchContract]
    cases (kept.filterMap SwitchEntry.default?).getLast? <;> rfl

/-! ## Guarded regions -/

/-- A call of a setter of a guarded region's builder. What callbacks build from the exception is
recorded as built. -/
inductive GuardCall where
  | body (e : Expr)
  | bodyBlock (body : Nested)
  | catchBlock (ty : Ty) (filter : Option Expr) (body : Nested)
  | catchExpr (ty : Ty) (body : Expr)
  | cleanup (e : Expr)
  | cleanupBlock (last : Nested)

def GuardBuilder.take (b : GuardBuilder) (c : At GuardCall) : GuardBuilder :=
  match c.call with
  | .body e => b.setBody e
  | .bodyBlock body => (b.bodyBlock (m := Make) body.fill c.next).1
  | .catchBlock ty filter body =>
    (b.catchBlock (m := Make) ty (filter.map fun e _ => pure e) (fun _ => body.fill) c.next).1
  | .catchExpr ty body => (b.catchExpr (m := Make) ty (fun _ => pure body) c.next).1
  | .cleanup e => b.setCleanup e
  | .cleanupBlock last => (b.cleanupBlock (m := Make) last.fill c.next).1

/-- Guarded regions. -/
def guards : Fluent GuardBuilder GuardCall where
  start := {}
  take := GuardBuilder.take
  build := GuardBuilder.build

/-- What is accepted by a guarded region. -/
inductive GuardEntry where
  | body (e : Expr)
  | handler (h : Handler Expr)
  | cleanup (e : Expr)

namespace GuardEntry

def body? : GuardEntry → Option Expr
  | body e => some e
  | _ => none

def handler? : GuardEntry → Option (Handler Expr)
  | handler h => some h
  | _ => none

def cleanup? : GuardEntry → Option Expr
  | cleanup e => some e
  | _ => none

end GuardEntry

/-- Only a part whose block is rejected is. A body is mandatory, and so is a catch clause or a last
part. -/
def guardContract : Contract GuardCall GuardEntry where
  judge _ c :=
    match c.call with
    | .body e => .ok [.body e]
    | .bodyBlock body => (body.built none).map fun e => [.body e]
    | .catchBlock ty filter body =>
      (body.built none).map fun e => [.handler ⟨ty, some ⟨c.next, some "ex", ty⟩, filter, e⟩]
    | .catchExpr ty body => .ok [.handler ⟨ty, some ⟨c.next, some "ex", ty⟩, none, body⟩]
    | .cleanup e => .ok [.cleanup e]
    | .cleanupBlock last => (last.built none).map fun e => [.cleanup e]
  finish kept :=
    let handlers := kept.filterMap GuardEntry.handler?
    let cleanup := (kept.filterMap GuardEntry.cleanup?).getLast?
    match (kept.filterMap GuardEntry.body?).getLast? with
    | none => throw .missingTryBody
    | some body =>
      if cleanup.isNone && handlers.isEmpty then throw .noCatchBlock
      else Expr.guarded body.ty body handlers cleanup

namespace GuardBuilder

/-- The builder that has accepted some entries. -/
def holding (kept : List GuardEntry) : GuardBuilder where
  body := (kept.filterMap GuardEntry.body?).getLast?
  handlers := kept.filterMap GuardEntry.handler?
  cleanup := (kept.filterMap GuardEntry.cleanup?).getLast?

section Holding

variable (kept : List GuardEntry)

theorem setBody_holding (e : Expr) :
    (holding kept).setBody e = holding (kept ++ [.body e]) := by
  simp [holding, setBody, GuardEntry.body?, GuardEntry.handler?, GuardEntry.cleanup?]

theorem setCleanup_holding (e : Expr) :
    (holding kept).setCleanup e = holding (kept ++ [.cleanup e]) := by
  simp [holding, setCleanup, GuardEntry.body?, GuardEntry.handler?, GuardEntry.cleanup?]

theorem addHandler_holding (ty : Ty) (p : Param) (filter : Option Expr) (body : Expr) :
    (holding kept).addHandler ty p filter (.ok body) =
      holding (kept ++ [.handler ⟨ty, some p, filter, body⟩]) := by
  simp [holding, addHandler, GuardEntry.body?, GuardEntry.handler?, GuardEntry.cleanup?]

end Holding

/-- What a setter goes on with when a block was filled. -/
def settled (b : GuardBuilder) (put : GuardBuilder → Expr → GuardBuilder) :
    Except BuildError Expr → GuardBuilder
  | .ok block => put b block
  | .error error => b.latch error

theorem settled_run (b : GuardBuilder) (put : GuardBuilder → Expr → GuardBuilder)
    (block : Build Expr) (n : Nat) :
    ((do
      match ← block.run with
      | .ok block => pure (put b block)
      | .error error => pure (b.latch error) : Make GuardBuilder) n).1 =
        b.settled put (block.run n).1 := by
  obtain ⟨r, n', hrun⟩ : ∃ r n', block.run n = (r, n') := ⟨_, _, rfl⟩
  simp only [bind, StateT.bind, hrun]
  cases r <;> rfl

theorem bodyBlock_fill (b : GuardBuilder) (body : Nested) (n : Nat) :
    (b.bodyBlock (m := Make) body.fill n).1 = b.settled setBody (body.built none) := by
  rw [← body.build_eq_built]
  exact b.settled_run setBody _ body.finish

theorem cleanupBlock_fill (b : GuardBuilder) (last : Nested) (n : Nat) :
    (b.cleanupBlock (m := Make) last.fill n).1 = b.settled setCleanup (last.built none) := by
  rw [← last.build_eq_built]
  exact b.settled_run setCleanup _ last.finish

theorem catchBlock_fill (b : GuardBuilder) (ty : Ty) (filter : Option Expr) (body : Nested)
    (n : Nat) :
    (b.catchBlock (m := Make) ty (filter.map fun e _ => pure e) (fun _ => body.fill) n).1 =
      b.addHandler ty ⟨n, some "ex", ty⟩ filter (body.built none) := by
  rw [← body.build_eq_built]
  cases filter <;> rfl

section Steps

variable {kept : List GuardEntry} {c : At GuardCall} {r : Except BuildError Expr}

/-- A body or a last part that a callback has filled. -/
theorem step_settled {put : GuardBuilder → Expr → GuardBuilder} {entry : Expr → GuardEntry}
    (hput : ∀ e, put (holding kept) e = holding (kept ++ [entry e]))
    (hjudge : guardContract.judge kept c = r.map fun e => [entry e]) :
    guardContract.Step holding GuardBuilder.error kept c ((holding kept).settled put r) := by
  cases r with
  | ok e => exact .accepted _ hjudge (hput e)
  | error error => exact .rejected error hjudge rfl

/-- A catch clause whose body a callback has filled. -/
theorem step_addHandler {ty : Ty} {p : Param} {filter : Option Expr}
    (hjudge : guardContract.judge kept c = r.map fun e => [.handler ⟨ty, some p, filter, e⟩]) :
    guardContract.Step holding GuardBuilder.error kept c
      ((holding kept).addHandler ty p filter r) := by
  cases r with
  | ok e => exact .accepted _ hjudge (addHandler_holding kept ty p filter e)
  | error error => exact .rejected error hjudge rfl

end Steps

/-- One call of a setter of a guarded region's builder. -/
theorem step_take (kept : List GuardEntry) (c : At GuardCall) :
    guardContract.Step holding GuardBuilder.error kept c ((holding kept).take c) := by
  obtain ⟨next, c⟩ := c
  cases c with
  | body e => exact .accepted _ rfl (setBody_holding kept e)
  | bodyBlock body =>
    simp only [take, bodyBlock_fill]
    exact step_settled (setBody_holding kept) rfl
  | catchBlock ty filter body =>
    simp only [take, catchBlock_fill]
    exact step_addHandler rfl
  | catchExpr ty body => exact .accepted _ rfl (addHandler_holding kept ty _ none body)
  | cleanup e => exact .accepted _ rfl (setCleanup_holding kept e)
  | cleanupBlock last =>
    simp only [take, cleanupBlock_fill]
    exact step_settled (setCleanup_holding kept) rfl

theorem error_latch {b : GuardBuilder} {error : BuildError} (h : b.error = some error)
    (error' : BuildError) : (b.latch error').error = some error := by
  rw [latch, h]
  rfl

theorem error_settled {b : GuardBuilder} {error : BuildError} (h : b.error = some error)
    {put : GuardBuilder → Expr → GuardBuilder} (hput : ∀ e, (put b e).error = b.error)
    (r : Except BuildError Expr) : (b.settled put r).error = some error := by
  cases r with
  | ok e => exact (hput e).trans h
  | error error' => exact error_latch h error'

theorem error_addHandler {b : GuardBuilder} {error : BuildError} (h : b.error = some error)
    (ty : Ty) (p : Param) (filter : Option Expr) (r : Except BuildError Expr) :
    (b.addHandler ty p filter r).error = some error := by
  cases r with
  | ok e => exact h
  | error error' => exact error_latch h error'

/-- A mistake that a guarded region's builder has remembered stays. -/
theorem error_take {b : GuardBuilder} {error : BuildError} (h : b.error = some error)
    (c : At GuardCall) : (b.take c).error = some error := by
  obtain ⟨next, c⟩ := c
  cases c with
  | body e => exact h
  | bodyBlock body =>
    simp only [take, bodyBlock_fill]
    exact error_settled h (fun _ => rfl) _
  | catchBlock ty filter body =>
    simp only [take, catchBlock_fill]
    exact error_addHandler h ty _ filter _
  | catchExpr ty body => exact h
  | cleanup e => exact h
  | cleanupBlock last =>
    simp only [take, cleanupBlock_fill]
    exact error_settled h (fun _ => rfl) _

end GuardBuilder

/-- A guarded region's builder holds its entries, up to the first mistake. -/
def guardLedger : guards.Ledger guardContract where
  holding := GuardBuilder.holding
  error? := GuardBuilder.error
  start := rfl
  step := GuardBuilder.step_take
  latched _ c _ h := GuardBuilder.error_take h c
  report b error h := by
    show b.build = _
    rw [GuardBuilder.build, h]
  finish kept := by
    show (GuardBuilder.holding kept).build = _
    simp only [GuardBuilder.build, GuardBuilder.holding, guardContract]
    cases (kept.filterMap GuardEntry.body?).getLast? <;> rfl

/-- The builders keep exactly what they accept and report exactly the first thing they reject. For
any sequence of calls of the setters of a block, a conditional, a switch or a guarded region, with
callbacks that fill the blocks they are given: the finishing call reports the error of the first
call that is rejected, whatever follows it; if none is, it makes the node of all accepted entries,
or says which mandatory part is missing. -/
theorem builders_keep_what_they_accept (ret : Option Ty) (R : Ty) (value : Expr) (scrutinee : Ty) :
    (blocks ret).Honors (blockContract ret) ∧ (conditions R).Honors (conditionContract R) ∧
      (switches value scrutinee).Honors (switchContract value scrutinee) ∧
        guards.Honors guardContract :=
  ⟨Fluent.honors (blockLedger ret), Fluent.honors (conditionLedger R),
    Fluent.honors (switchLedger value scrutinee), Fluent.honors guardLedger⟩

namespace Sample

/-- What is compared. -/
def subject : Expr := .mk 0 (.constant (.int 1)) .int

/-- A block that a callback brings along, with a string for its value. -/
def broughtAlong : BlockBuilder := ({} : BlockBuilder).line (.mk 1 (.constant (.str "a")) .string)

end Sample

open Sample in
/-- A switch that gives integers takes a block of strings from a callback that does not fill the block
it is given, though a body of that type is to be rejected. -/
theorem brought_block_admitted : ∃ b next e next' arm default,
    ((switches subject .int).after [⟨2, .returns .int⟩]).caseBlock (m := Make)
      (fun _ _ => pure broughtAlong) [subject] 3 = (b, next) ∧
    b.build.run next = (.ok e, next') ∧ e.ty = .int ∧
    e.shape = .switch subject [arm] (some default) none ∧
    yielding .int arm.body = .error (.switchResultMismatch "int" "string") :=
  ⟨_, _, _, _, _, _, rfl, rfl, rfl, rfl, rfl⟩

/-- Of two statements that have failed to build, the first is reported. -/
example (e : Expr) : (((blocks none).after [⟨0, .tryLine (.error .conditionNotDefined)⟩,
    ⟨0, .tryLine (.error .noCatchBlock)⟩, ⟨0, .line e⟩]).build.run 0).1 =
      .error .conditionNotDefined := rfl

end CodeTree
