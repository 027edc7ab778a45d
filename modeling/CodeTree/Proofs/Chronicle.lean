import CodeTree.Proofs.Resolution
import Mathlib.Control.Monad.Writer

/-!
# What normalization asks

Normalization evaluates closed calls and reads members of constant objects; for the rest it makes
nodes. `Recorded.normalize` does the same and keeps a record of the former: what was asked, on which
machine, the answer and the machine after it.

Nothing depends on the record. `Chronicle.erase` forgets it; it commutes with sequences and with
traversals of layers, and so takes each step of the recorded normalization to the step that it
records.

Main statement: `recorded_run` — a normalization that ends has made its `inquiries`.
-/

namespace CodeTree

variable {σ : Type}

/-- Something that normalization asked, with the machines before and after and the answer. -/
inductive Inquiry (σ : Type) where
  /-- A closed call was evaluated alone. -/
  | fold (call : Expr) (before : Machine σ) (answer : Except EvalError Value) (after : Machine σ)
  /-- A member of an object was read. -/
  | read (self : Value) (name : String) (before : Machine σ) (answer : Reply) (after : Machine σ)

/-- Actions on the machine that write down their inquiries. -/
abbrev Chronicle (σ : Type) := WriterT (List (Inquiry σ)) (Step σ)

namespace Chronicle

variable {α β ν : Type}

instance : LawfulMonad (Chronicle σ) :=
  LawfulMonad.mk' _ (fun _ => WriterT.ext _ _ (by simp)) (fun _ _ => WriterT.ext _ _ (by simp))
    (fun _ _ _ => WriterT.ext _ _ (by simp)) (fun _ _ => rfl) (fun _ _ => rfl) (fun _ _ => rfl)
    (fun _ _ => WriterT.ext _ _ (by simp)) (fun _ _ => rfl)

/-- An inquiry. -/
def asked (record : Machine σ → α → Machine σ → Inquiry σ) (x : Step σ α) : Chronicle σ α :=
  WriterT.mk fun m => (x m).map fun y => ((y.1, [record m y.1 y.2]), y.2)

theorem asked_run {record : Machine σ → α → Machine σ → Inquiry σ} {x : Step σ α} {a : α}
    {l : List (Inquiry σ)} {m m' : Machine σ} (h : (asked record x).run m = some ((a, l), m')) :
    x m = some (a, m') ∧ l = [record m a m'] := by
  obtain ⟨y, hx, heq⟩ := Option.map_eq_some_iff.mp h
  cases heq
  exact ⟨hx, rfl⟩

/-- An action without an inquiry. -/
def quiet (x : Step σ α) : Chronicle σ α := WriterT.mk ((·, []) <$> x)

@[simp] theorem quiet_pure (a : α) : quiet (pure a : Step σ α) = pure a :=
  WriterT.ext _ _ (by simp [quiet])

theorem quiet_bind (x : Step σ α) (f : α → Step σ β) :
    quiet (x >>= f) = quiet x >>= fun a => quiet (f a) :=
  WriterT.ext _ _ (by simp [quiet])

/-- The action without its record. -/
def erase (x : Chronicle σ α) : Step σ α := Prod.fst <$> x.run

@[simp] theorem erase_pure (a : α) : (pure a : Chronicle σ α).erase = pure a := by
  simp [erase]

@[simp] theorem erase_bind (x : Chronicle σ α) (f : α → Chronicle σ β) :
    (x >>= f).erase = x.erase >>= fun a => (f a).erase := by
  simp [erase]

@[simp] theorem erase_map (f : α → β) (x : Chronicle σ α) : (f <$> x).erase = f <$> x.erase := by
  simp [erase]

@[simp] theorem erase_quiet (x : Step σ α) : (quiet x).erase = x := by
  simp [erase, quiet]

@[simp] theorem erase_asked (record : Machine σ → α → Machine σ → Inquiry σ) (x : Step σ α) :
    (asked record x).erase = x := by
  funext m
  show (Option.map _ (x m)).bind _ = x m
  cases x m <;> rfl

/-! ## Traversals -/

@[simp] theorem erase_mapM_list (f : α → Chronicle σ β) (as : List α) :
    (as.mapM f).erase = as.mapM fun a => (f a).erase := by
  induction as with
  | nil => simp
  | cons a as ih => simp [ih]

@[simp] theorem erase_mapM_option (f : α → Chronicle σ β) (o : Option α) :
    (o.mapM f).erase = o.mapM fun a => (f a).erase := by
  cases o with
  | none => rfl
  | some a => simp

@[simp] theorem erase_mapM_case (f : α → Chronicle σ β) (c : Case α) :
    (c.mapM f).erase = c.mapM fun a => (f a).erase := by
  simp [Case.mapM]

@[simp] theorem erase_mapM_handler (f : α → Chronicle σ β) (h : Handler α) :
    (h.mapM f).erase = h.mapM fun a => (f a).erase := by
  simp [Handler.mapM]

@[simp] theorem erase_mapM (f : α → Chronicle σ β) (s : Shape ν α) :
    (s.mapM f).erase = s.mapM fun a => (f a).erase := by
  cases s <;> simp [Shape.mapM]

end Chronicle

/-! ## The recorded normalization -/

/-- What normalization makes of one node, on record. -/
structure Recorded (σ : Type) where
  node : Chronicle σ Expr
  described : Chronicle σ Expr

namespace Recorded

/-- The same off the record. -/
def erase (r : Recorded σ) : Normal σ := ⟨r.node.erase, r.described.erase⟩

section Definitions

variable (H : Host σ) (fuel : Nat) (options : Normalization)

/-- `foldCall` on record. -/
def foldCall (call : Expr) : Chronicle σ (Option Expr) := do
  match ← Chronicle.asked (.fold call) (evaluateAlone H fuel call) with
  | .ok (.node tree) => pure (some tree)
  | .ok .void => do
    let e ← .quiet (Step.make Expr.empty)
    pure (some e)
  | .ok v => do
    let e ← .quiet (Step.make (Expr.typedConstant v call.ty))
    pure (some e)
  | .error _ => pure none

/-- `unwrapConversion` on record. -/
def unwrapConversion (e operand : Expr) (normalOperand children : Chronicle σ Expr) :
    Chronicle σ Expr := do
  if operand.ty.isNode then
    let unwrapped ← normalOperand
    if unwrapped.ty.isVoid || e.ty.isNode then pure unwrapped
    else .quiet (Step.make (unwrapped.upcast e.ty))
  else if e.ty.isNode then normalOperand
  else children

/-- `resolveRead` on record. -/
def resolveRead (e : Expr) (target : Expr) (read : Member) (children : Chronicle σ Expr) :
    Chronicle σ Expr := do
  match target.asConstant?, read.kind with
  | some (.object id cls content), .field => do
    match ← Chronicle.asked (.read (.object id cls content) read.name)
        (Step.play (apply H fuel) (H.readMember (.object id cls content) read.name)) with
    | .ok v => .quiet (capturedValue e v)
    | .error _ => children
  | _, _ => children

/-- `normalChildren` on record. -/
def normalChildren (e : Expr) (layer : Shape Value (Expr × Recorded σ)) : Chronicle σ Expr := do
  let layer ← layer.mapM fun child => child.2.node
  .quiet (Step.make (e.withLayer layer))

/-- `normalizeStep` on record. -/
def normalizeStep (e : Expr) (layer : Shape Value (Expr × Recorded σ)) : Chronicle σ Expr := do
  match layer with
  | .call .. =>
    if options.foldClosedCalls && e.isClosed then
      match ← foldCall H fuel e with
      | some folded => pure folded
      | none => normalChildren e layer
    else normalChildren e layer
  | .member (some target) read => resolveRead H fuel e target.1 read (normalChildren e layer)
  | .convert _ operand =>
    unwrapConversion e operand.1 operand.2.node (normalChildren e layer)
  | .lambda [] body =>
    if options.flattenThunks then body.2.described else normalChildren e layer
  | layer => normalChildren e layer

/-- `describeStep` on record. -/
def describeStep (e : Expr) (layer : Shape Value (Expr × Recorded σ)) : Chronicle σ Expr := do
  match layer with
  | .construct ctor args =>
    let args ← args.mapM fun arg => arg.2.node
    .quiet (Step.make (Expr.construct ctor args))
  | .call receiver method args =>
    let receiver ← receiver.mapM fun r => r.2.node
    let args ← args.mapM fun arg => arg.2.node
    .quiet (Step.make (Expr.settledCall receiver method args))
  | .invoke target args =>
    let args ← args.mapM fun arg => arg.2.node
    .quiet (Step.make (Expr.make (.invoke target.1 args) e.ty))
  | layer => normalizeStep H fuel options e layer

/-- `analyse` on record. -/
def analyse : Expr → Recorded σ :=
  Expr.fold fun e layer =>
    ⟨normalizeStep H fuel options e layer, describeStep H fuel options e layer⟩

/-- `normalize` on record. -/
def normalize (e : Expr) : Chronicle σ Expr := (analyse H fuel options e).node

theorem analyse_eq (e : Expr) :
    analyse H fuel options e =
      ⟨normalizeStep H fuel options e (e.shape.map fun a => (a, analyse H fuel options a)),
        describeStep H fuel options e (e.shape.map fun a => (a, analyse H fuel options a))⟩ := by
  obtain ⟨id, s, ty⟩ := e
  rw [analyse, Expr.fold_mk]
  rfl

end Definitions

/-! ## Off the record -/

section Erasure

variable (H : Host σ) (fuel : Nat) (options : Normalization)

@[simp] theorem erase_foldCall (call : Expr) :
    (foldCall H fuel call).erase = CodeTree.foldCall H fuel call := by
  rw [foldCall, CodeTree.foldCall, Chronicle.erase_bind, Chronicle.erase_asked]
  congr 1
  funext answer
  cases answer with
  | error _ => rfl
  | ok v => cases v <;> simp

@[simp] theorem erase_unwrapConversion (e operand : Expr) (x y : Chronicle σ Expr) :
    (unwrapConversion e operand x y).erase =
      CodeTree.unwrapConversion e operand x.erase y.erase := by
  unfold unwrapConversion CodeTree.unwrapConversion
  split
  · rw [Chronicle.erase_bind]
    congr 1
    funext u
    split <;> simp
  · split <;> rfl

theorem quiet_unwrapConversion (e operand : Expr) (x y : Step σ Expr) :
    .quiet (CodeTree.unwrapConversion e operand x y) =
      unwrapConversion e operand (.quiet x) (.quiet y) := by
  unfold unwrapConversion CodeTree.unwrapConversion
  split
  · rw [Chronicle.quiet_bind]
    congr 1
    funext u
    split <;> simp
  · split <;> rfl

@[simp] theorem erase_resolveRead (e target : Expr) (read : Member) (x : Chronicle σ Expr) :
    (resolveRead H fuel e target read x).erase =
      CodeTree.resolveRead H fuel e target read x.erase := by
  unfold resolveRead CodeTree.resolveRead
  generalize target.asConstant? = constant, read.kind = kind
  cases constant with
  | none => rfl
  | some v =>
    cases v with
    | object id cls content =>
      cases kind with
      | property => rfl
      | field =>
        rw [Chronicle.erase_bind, Chronicle.erase_asked]
        congr 1
        funext reply
        cases reply <;> simp
    | _ => rfl

/-- A layer off the record. -/
def eraseLayer (layer : Shape Value (Expr × Recorded σ)) : Shape Value (Expr × Normal σ) :=
  layer.map fun a => (a.1, a.2.erase)

@[simp] theorem erase_normalChildren (e : Expr) (layer : Shape Value (Expr × Recorded σ)) :
    (normalChildren e layer).erase = CodeTree.normalChildren e (eraseLayer layer) := by
  simp [normalChildren, CodeTree.normalChildren, eraseLayer, Shape.mapM_map, erase]

theorem erase_normalizeStep (e : Expr) (layer : Shape Value (Expr × Recorded σ)) :
    (normalizeStep H fuel options e layer).erase =
      CodeTree.normalizeStep H fuel options e (eraseLayer layer) := by
  cases layer with
  | call receiver method args =>
    simp only [normalizeStep, CodeTree.normalizeStep, eraseLayer, Shape.map]
    split
    · rw [Chronicle.erase_bind, erase_foldCall]
      congr 1
      funext o
      cases o <;> simp [eraseLayer, Shape.map]
    · simp [eraseLayer, Shape.map]
  | member target read =>
    cases target with
    | none => simp [normalizeStep, CodeTree.normalizeStep, eraseLayer, Shape.map]
    | some target => simp [normalizeStep, CodeTree.normalizeStep, eraseLayer, Shape.map]
  | convert kind operand =>
    simp [normalizeStep, CodeTree.normalizeStep, eraseLayer, Shape.map, erase]
  | lambda params body =>
    cases params with
    | nil =>
      simp only [normalizeStep, CodeTree.normalizeStep, eraseLayer, Shape.map]
      split
      · rfl
      · simp [eraseLayer, Shape.map]
    | cons p ps => simp [normalizeStep, CodeTree.normalizeStep, eraseLayer, Shape.map]
  | _ => simp [normalizeStep, CodeTree.normalizeStep, eraseLayer, Shape.map]

theorem erase_describeStep (e : Expr) (layer : Shape Value (Expr × Recorded σ)) :
    (describeStep H fuel options e layer).erase =
      CodeTree.describeStep H fuel options e (eraseLayer layer) := by
  have hother := erase_normalizeStep H fuel options e layer
  cases layer with
  | construct ctor args =>
    simp [describeStep, CodeTree.describeStep, eraseLayer, Shape.map, erase, Function.comp_def]
  | call receiver method args =>
    simp [describeStep, CodeTree.describeStep, eraseLayer, Shape.map, erase, optionMapM_map,
      Function.comp_def]
  | invoke target args =>
    simp [describeStep, CodeTree.describeStep, eraseLayer, Shape.map, erase, Function.comp_def]
  | _ => exact hother

/-- What is analysed on record is analysed. -/
theorem erase_analyse (e : Expr) :
    (analyse H fuel options e).erase = CodeTree.analyse H fuel options e := by
  induction e using Expr.induction with
  | step e ih =>
    have hlayer : eraseLayer (e.shape.map fun a => (a, analyse H fuel options a)) =
        e.shape.map fun a => (a, CodeTree.analyse H fuel options a) := by
      rw [eraseLayer, Shape.map_map]
      exact Shape.map_congr fun a ha => by rw [ih a ha]
    rw [analyse_eq, CodeTree.analyse_eq, erase]
    simp only [erase_normalizeStep, erase_describeStep, hlayer]

end Erasure

end Recorded

/-! ## The inquiries of a normalization -/

/-- What the normalization of a tree asks, in order. -/
def inquiries (H : Host σ) (fuel : Nat) (options : Normalization) (e : Expr) (m : Machine σ) :
    List (Inquiry σ) :=
  match (Recorded.normalize H fuel options e).run m with
  | some ((_, record), _) => record
  | none => []

/-- A normalization that ends has made its inquiries. -/
theorem recorded_run {H : Host σ} {fuel : Nat} {options : Normalization} {e r : Expr}
    {m m' : Machine σ} (h : normalize H fuel options e m = some (r, m')) :
    (Recorded.normalize H fuel options e).run m = some ((r, inquiries H fuel options e m), m') := by
  have herase : (Recorded.normalize H fuel options e).erase m = some (r, m') := by
    rw [← h, normalize, ← Recorded.erase_analyse]
    rfl
  obtain ⟨⟨⟨r', record⟩, k⟩, hrun, heq⟩ := Option.bind_eq_some_iff.mp herase
  cases heq
  rw [inquiries, hrun]

end CodeTree
