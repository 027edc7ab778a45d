import CodeTree.Eval
import Mathlib.Data.List.Forall2
import Mathlib.Order.Defs.PartialOrder

/-!
# Values that are alike

Two evaluations that should agree need not hand out the same identities, make their
closures in the same order or put their bindings into the same frames. A `World` says which
identities, closures and frames of the one correspond to which of the other, and
`ValueLike w` compares values up to that correspondence.

* `Pairing` — a one-to-one correspondence between numbers, with `Pairing.extend` for the
  next number of each side;
* `World` — three pairings, ordered by growth;
* `ValueLike` — equal but for identities and closures, which have to be paired;
* `ScriptLike` — host code that makes the same calls and answers alike.

Everything evaluation asks of a value respects likeness: runtime types
(`ValueLike.runtimeTy?_eq`), texts (`ValueLike.text_eq`), equality (`ValueLike.equals_eq`),
conversions (`ValueLike.converted`) and operators (`ValueLike.unary`, `ValueLike.binary`).
-/

namespace CodeTree

/-! ## Pairings -/

/-- Pairs of numbers, each number in at most one of them. -/
structure Pairing where
  pairs : Nat → Nat → Prop
  unique_left : ∀ {a b c}, pairs a c → pairs b c → a = b
  unique_right : ∀ {a b c}, pairs a b → pairs a c → b = c

namespace Pairing

/-- Paired numbers are equal to each other on both sides or on none. -/
theorem beq_eq (P : Pairing) {a b c d : Nat} (h₁ : P.pairs a b) (h₂ : P.pairs c d) :
    (a == c) = (b == d) := by
  rw [Bool.eq_iff_iff, beq_iff_eq, beq_iff_eq]
  constructor
  · intro heq
    subst heq
    exact P.unique_right h₁ h₂
  · intro heq
    subst heq
    exact P.unique_left h₁ h₂

/-- Nothing is paired. -/
def empty : Pairing := ⟨fun _ _ => False, False.elim, False.elim⟩

/-- Every number below the bound is paired with itself. -/
def below (bound : Nat) : Pairing where
  pairs a b := a = b ∧ a < bound
  unique_left h₁ h₂ := h₁.1.trans h₂.1.symm
  unique_right h₁ h₂ := h₁.1.symm.trans h₂.1

/-- Every number is paired with itself. -/
def all : Pairing := ⟨Eq, fun h₁ h₂ => h₁.trans h₂.symm, fun h₁ h₂ => h₁.symm.trans h₂⟩

/-- What two supplies have handed out, the first up to `n₁` and the second up to `n₂`, is
paired only with each other. With `ahead`, what they will hand out may be paired already, in
the order in which it comes. -/
def Aligned (ahead : Prop) (P : Pairing) (n₁ n₂ : Nat) : Prop :=
  ∀ a b, P.pairs a b → (a < n₁ ∧ b < n₂) ∨ (ahead ∧ ∃ k, a = n₁ + k ∧ b = n₂ + k)

/-- The pairing together with the next number of each supply. -/
def extend {ahead : Prop} (P : Pairing) {n₁ n₂ : Nat} (h : P.Aligned ahead n₁ n₂) : Pairing where
  pairs a b := P.pairs a b ∨ (a = n₁ ∧ b = n₂)
  unique_left {a b c} := by
    intro hac hbc
    rcases hac with ha | ⟨rfl, rfl⟩ <;> rcases hbc with hb | ⟨rfl, hc⟩
    · exact P.unique_left ha hb
    · subst hc
      rcases h a _ ha with ⟨_, hlt⟩ | ⟨_, k, hk₁, hk₂⟩ <;> omega
    · rcases h b _ hb with ⟨_, hlt⟩ | ⟨_, k, hk₁, hk₂⟩ <;> omega
    · rfl
  unique_right {a b c} := by
    intro hab hac
    rcases hab with hb | ⟨rfl, rfl⟩ <;> rcases hac with hc | ⟨ha, rfl⟩
    · exact P.unique_right hb hc
    · subst ha
      rcases h _ b hb with ⟨hlt, _⟩ | ⟨_, k, hk₁, hk₂⟩ <;> omega
    · rcases h _ c hc with ⟨hlt, _⟩ | ⟨_, k, hk₁, hk₂⟩ <;> omega
    · rfl

theorem Aligned.extend {ahead : Prop} {P : Pairing} {n₁ n₂ : Nat}
    (h : P.Aligned ahead n₁ n₂) : (P.extend h).Aligned ahead (n₁ + 1) (n₂ + 1) := by
  intro a b hab
  rcases hab with hp | ⟨rfl, rfl⟩
  · rcases h a b hp with ⟨ha, hb⟩ | ⟨hahead, k, rfl, rfl⟩
    · exact .inl ⟨by omega, by omega⟩
    · cases k with
      | zero => exact .inl ⟨by omega, by omega⟩
      | succ k => exact .inr ⟨hahead, k, by omega, by omega⟩
  · exact .inl ⟨by omega, by omega⟩

/-- Without pairs ahead, the supplies may go on on their own. -/
theorem Aligned.mono {P : Pairing} {n₁ n₂ k₁ k₂ : Nat} (h : P.Aligned False n₁ n₂)
    (h₁ : n₁ ≤ k₁) (h₂ : n₂ ≤ k₂) : P.Aligned False k₁ k₂ := by
  intro a b hp
  rcases h a b hp with ⟨ha, hb⟩ | ⟨hf, _⟩
  · exact .inl ⟨by omega, by omega⟩
  · exact hf.elim

theorem aligned_below {ahead : Prop} {bound n₁ n₂ : Nat} (h₁ : bound ≤ n₁) (h₂ : bound ≤ n₂) :
    (below bound).Aligned ahead n₁ n₂ := by
  intro a _ hab
  obtain ⟨rfl, h⟩ := hab
  exact .inl ⟨by omega, by omega⟩

theorem aligned_all (n : Nat) : all.Aligned True n n := by
  intro a _ hab
  subst hab
  by_cases h : a < n
  · exact .inl ⟨h, h⟩
  · exact .inr ⟨trivial, a - n, by omega, by omega⟩

end Pairing

/-! ## Worlds -/

/-- How two evaluations correspond. -/
structure World where
  ids : Pairing
  closures : Pairing
  frames : Pairing
  /-- Which frames of the first evaluation have been made. -/
  live : Nat → Prop
  /-- Which variables a frame of the first evaluation has been given. -/
  declared : Nat → Nat → Prop

instance : Preorder World where
  le w w' :=
    (∀ a b, w.ids.pairs a b → w'.ids.pairs a b) ∧
    (∀ a b, w.closures.pairs a b → w'.closures.pairs a b) ∧
    (∀ a b, w.frames.pairs a b → w'.frames.pairs a b) ∧
    (∀ f, w.live f → w'.live f) ∧
    ∀ f id, w.declared f id → w'.declared f id
  le_refl _ :=
    ⟨fun _ _ h => h, fun _ _ h => h, fun _ _ h => h, fun _ h => h, fun _ _ h => h⟩
  le_trans _ _ _ h₁ h₂ :=
    ⟨fun a b h => h₂.1 a b (h₁.1 a b h), fun a b h => h₂.2.1 a b (h₁.2.1 a b h),
      fun a b h => h₂.2.2.1 a b (h₁.2.2.1 a b h), fun f h => h₂.2.2.2.1 f (h₁.2.2.2.1 f h),
      fun f id h => h₂.2.2.2.2 f id (h₁.2.2.2.2 f id h)⟩

namespace World

variable {w w' : World}

theorem le_ids (h : w ≤ w') {a b : Nat} : w.ids.pairs a b → w'.ids.pairs a b := h.1 a b

theorem le_closures (h : w ≤ w') {i j : Nat} : w.closures.pairs i j → w'.closures.pairs i j :=
  h.2.1 i j

theorem le_frames (h : w ≤ w') {f g : Nat} : w.frames.pairs f g → w'.frames.pairs f g :=
  h.2.2.1 f g

theorem le_live (h : w ≤ w') {f : Nat} : w.live f → w'.live f := h.2.2.2.1 f

theorem le_declared (h : w ≤ w') {f id : Nat} : w.declared f id → w'.declared f id :=
  h.2.2.2.2 f id

section Extensions

variable {ahead : Prop} {n₁ n₂ : Nat}

/-- The world with the next identity of each side. -/
def withId (w : World) (h : w.ids.Aligned ahead n₁ n₂) : World := { w with ids := w.ids.extend h }

/-- The world with the next closure of each side. -/
def withClosure (w : World) (h : w.closures.Aligned ahead n₁ n₂) : World :=
  { w with closures := w.closures.extend h }

/-- The world with the next frame of each side. -/
def withFrame (w : World) (h : w.frames.Aligned ahead n₁ n₂) : World :=
  { w with frames := w.frames.extend h, live := fun f => w.live f ∨ f = n₁ }

/-- The world with one more variable in a frame. -/
def withDeclared (w : World) (frame id : Nat) : World :=
  { w with declared := fun f i => w.declared f i ∨ (f = frame ∧ i = id) }

theorem le_withId (h : w.ids.Aligned ahead n₁ n₂) : w ≤ w.withId h :=
  ⟨fun _ _ => .inl, fun _ _ h => h, fun _ _ h => h, fun _ h => h, fun _ _ h => h⟩

theorem le_withClosure (h : w.closures.Aligned ahead n₁ n₂) : w ≤ w.withClosure h :=
  ⟨fun _ _ h => h, fun _ _ => .inl, fun _ _ h => h, fun _ h => h, fun _ _ h => h⟩

theorem le_withFrame (h : w.frames.Aligned ahead n₁ n₂) : w ≤ w.withFrame h :=
  ⟨fun _ _ h => h, fun _ _ h => h, fun _ _ => .inl, fun _ => .inl, fun _ _ h => h⟩

theorem le_withDeclared (frame id : Nat) : w ≤ w.withDeclared frame id :=
  ⟨fun _ _ h => h, fun _ _ h => h, fun _ _ h => h, fun _ h => h, fun _ _ => .inl⟩

end Extensions

end World

/-! ## Values -/

mutual
/-- Values that differ in identities and closures only, and in these as the world says. A
captured tree is like itself alone. `ok` says which faults may travel inside a value. -/
inductive ValueLike (w : World) (ok : Fault → Prop) : Value → Value → Prop
  | void : ValueLike w ok .void .void
  | null : ValueLike w ok .null .null
  | bool (b : Bool) : ValueLike w ok (.bool b) (.bool b)
  | int (n : Int64) : ValueLike w ok (.int n) (.int n)
  | float (x : Float) : ValueLike w ok (.float x) (.float x)
  | str (s : String) : ValueLike w ok (.str s) (.str s)
  | array {a b : Nat} {elem : Ty} {xs ys : List Value} (id : w.ids.pairs a b)
      (items : List.Forall₂ (ValueLike w ok) xs ys) :
      ValueLike w ok (.array a elem xs) (.array b elem ys)
  | record {a b : Nat} {cls : Ty} {xs ys : List (String × Value)} (id : w.ids.pairs a b)
      (fields : List.Forall₂ (FieldLike w ok) xs ys) :
      ValueLike w ok (.object a cls (.fields xs)) (.object b cls (.fields ys))
  | hosted {a b : Nat} {cls : Ty} {handle : Nat} (id : w.ids.pairs a b) :
      ValueLike w ok (.object a cls (.hosted handle)) (.object b cls (.hosted handle))
  | fault {a b : Nat} {cls : Ty} {f : Fault} (id : w.ids.pairs a b) (allowed : ok f) :
      ValueLike w ok (.object a cls (.fault f)) (.object b cls (.fault f))
  | code (code : CodeId) (params : List Ty) (ret : Ty) :
      ValueLike w ok (.func (.hosted code) params ret) (.func (.hosted code) params ret)
  | closure {i j : Nat} {params : List Ty} {ret : Ty} (index : w.closures.pairs i j) :
      ValueLike w ok (.func (.closure i) params ret) (.func (.closure j) params ret)
  | task {a b : Nat} {result : Ty} {x y : Value} (id : w.ids.pairs a b)
      (value : ValueLike w ok x y) :
      ValueLike w ok (.task a result (.ok x)) (.task b result (.ok y))
  | failedTask {a b : Nat} {result : Ty} {x y : Value} (id : w.ids.pairs a b)
      (thrown : ValueLike w ok x y) :
      ValueLike w ok (.task a result (.error x)) (.task b result (.error y))
  | node (tree : Expr) : ValueLike w ok (.node tree) (.node tree)
/-- Members of one name, with values that are alike. -/
inductive FieldLike (w : World) (ok : Fault → Prop) : String × Value → String × Value → Prop
  | mk (name : String) {x y : Value} (value : ValueLike w ok x y) :
      FieldLike w ok (name, x) (name, y)
end

/-- Lists of values that are alike position by position. -/
abbrev ValuesLike (w : World) (ok : Fault → Prop) : List Value → List Value → Prop :=
  List.Forall₂ (ValueLike w ok)

/-- Results that are alike, whichever way they ended. -/
inductive ExceptLike {ε ε' α β : Type} (E : ε → ε' → Prop) (A : α → β → Prop) :
    Except ε α → Except ε' β → Prop
  | ok {a : α} {b : β} (value : A a b) : ExceptLike E A (.ok a) (.ok b)
  | error {x : ε} {y : ε'} (exit : E x y) : ExceptLike E A (.error x) (.error y)

/-- Replies of host code that are alike. -/
abbrev ReplyLike (w : World) (ok : Fault → Prop) : Reply → Reply → Prop :=
  ExceptLike (ValueLike w ok) (ValueLike w ok)

/-- Exits that are alike: the same way out, with values that are alike. -/
inductive ExitLike (w : World) (ok : Fault → Prop) : Exit → Exit → Prop
  | throw {x y : Value} (value : ValueLike w ok x y) : ExitLike w ok (.throw x) (.throw y)
  | jump (label : Label) {x y : Value} (value : ValueLike w ok x y) :
      ExitLike w ok (.jump label x) (.jump label y)
  | fault {f : Fault} (allowed : ok f) : ExitLike w ok (.fault f) (.fault f)

/-- Callables that are alike. -/
inductive RefLike (w : World) : FuncRef → FuncRef → Prop
  | hosted (code : CodeId) : RefLike w (.hosted code) (.hosted code)
  | closure {i j : Nat} (index : w.closures.pairs i j) : RefLike w (.closure i) (.closure j)

section Growth

variable {w w' : World} {ok : Fault → Prop}

mutual
/-- Values stay alike when the world grows. -/
theorem ValueLike.mono (h : w ≤ w') : ∀ {a b : Value}, ValueLike w ok a b → ValueLike w' ok a b
  | .void, _, l => by cases l; constructor
  | .null, _, l => by cases l; constructor
  | .bool _, _, l => by cases l; constructor
  | .int _, _, l => by cases l; constructor
  | .float _, _, l => by cases l; constructor
  | .str _, _, l => by cases l; constructor
  | .array .., _, l => by
    cases l with
    | array id items => exact .array (World.le_ids h id) (ValuesLike.mono h items)
  | .object _ _ (.fields _), _, l => by
    cases l with
    | record id fields => exact .record (World.le_ids h id) (FieldLike.mono h fields)
  | .object _ _ (.hosted _), _, l => by
    cases l with
    | hosted id => exact .hosted (World.le_ids h id)
  | .object _ _ (.fault _), _, l => by
    cases l with
    | fault id allowed => exact .fault (World.le_ids h id) allowed
  | .func .., _, l => by
    cases l with
    | code => constructor
    | closure index => exact .closure (World.le_closures h index)
  | .task _ _ (.ok _), _, l => by
    cases l with
    | task id value => exact .task (World.le_ids h id) (ValueLike.mono h value)
  | .task _ _ (.error _), _, l => by
    cases l with
    | failedTask id thrown => exact .failedTask (World.le_ids h id) (ValueLike.mono h thrown)
  | .node _, _, l => by cases l; constructor
theorem ValuesLike.mono (h : w ≤ w') :
    ∀ {xs ys : List Value}, ValuesLike w ok xs ys → ValuesLike w' ok xs ys
  | [], _, l => by cases l; constructor
  | _ :: _, _, l => by
    cases l with
    | cons first rest => exact .cons (ValueLike.mono h first) (ValuesLike.mono h rest)
theorem FieldLike.mono (h : w ≤ w') : ∀ {xs ys : List (String × Value)},
    List.Forall₂ (FieldLike w ok) xs ys → List.Forall₂ (FieldLike w' ok) xs ys
  | [], _, l => by cases l; constructor
  | (_, _) :: _, _, l => by
    cases l with
    | cons first rest =>
      cases first with
      | mk _ value => exact .cons (.mk _ (ValueLike.mono h value)) (FieldLike.mono h rest)
end

/-- Results that are like in nothing but equality. -/
theorem ExceptLike.eq {ε α : Type} {x y : Except ε α} (h : ExceptLike Eq Eq x y) : x = y := by
  cases h with
  | ok value => rw [value]
  | error exit => rw [exit]

theorem ExceptLike.imp {ε ε' α β : Type} {E E' : ε → ε' → Prop} {A A' : α → β → Prop}
    {x : Except ε α} {y : Except ε' β} (l : ExceptLike E A x y)
    (hE : ∀ a b, E a b → E' a b) (hA : ∀ a b, A a b → A' a b) : ExceptLike E' A' x y := by
  cases l with
  | ok value => exact .ok (hA _ _ value)
  | error exit => exact .error (hE _ _ exit)

theorem ExitLike.mono (h : w ≤ w') {x y : Exit} (l : ExitLike w ok x y) : ExitLike w' ok x y := by
  cases l with
  | throw value => exact .throw (value.mono h)
  | jump label value => exact .jump label (value.mono h)
  | fault allowed => exact .fault allowed

end Growth

/-! ## What evaluation asks of values -/

/-- Whether a value carries no identity and nothing else inside it. -/
def Value.isPlain : Value → Bool
  | .void | .null | .bool _ | .int _ | .float _ | .str _ => true
  | _ => false

/-- What a conversion gives is the value itself or a plain value. -/
theorem convert_eq_or_isPlain {kind : ConvertKind} {v r : Value} {ty : Ty}
    (h : convert kind v ty = .ok r) : r = v ∨ r.isPlain := by
  unfold convert at h
  split at h
  · cases h; exact .inr rfl
  · cases h; exact .inr rfl
  · cases h; exact .inr rfl
  · split at h
    · cases h; exact .inr rfl
    · split at h <;> cases h
      exact .inr rfl
  · split at h
    · cases h; exact .inl rfl
    · split at h <;> cases h
      exact .inr rfl

/-- A value that is not plain is only checked by a conversion. -/
theorem convert_of_not_isPlain {v : Value} (hv : v.isPlain = false) (kind : ConvertKind)
    (ty : Ty) :
    convert kind v ty =
      if ty.isVoid then .ok .void
      else if v.isInstance ty then .ok v
      else
        match kind with
        | .typeAs => .ok .null
        | .cast => .error (.mismatch v.typeName ty) := by
  cases v <;> first
    | cases hv; done
    | (cases ty <;> cases kind <;> rfl)

namespace BinaryOp

theorem isPlain_of_join? {op : BinaryOp} {a b r : Value} (h : op.join? a b = some r) :
    r.isPlain := by
  unfold join? at h
  split at h <;> cases h <;> rfl

theorem isPlain_of_arithmetic? {op : BinaryOp} {a b r : Value} (h : op.arithmetic? a b = some r) :
    r.isPlain := by
  unfold arithmetic? at h
  split at h
  · obtain ⟨n, -, rfl⟩ := Option.map_eq_some_iff.mp h
    rfl
  · split at h
    · obtain ⟨x, -, rfl⟩ := Option.map_eq_some_iff.mp h
      rfl
    · exact isPlain_of_join? h

/-- Operators give plain values. -/
theorem isPlain_of_apply {op : BinaryOp} {a b r : Value} (h : op.apply a b = .ok r) :
    r.isPlain := by
  cases op <;> simp only [apply] at h
  case eq => cases h; rfl
  case notEq => cases h; rfl
  case lt | le | gt | ge =>
    split at h
    next v hv =>
      cases h
      obtain ⟨o, -, rfl⟩ := Option.map_eq_some_iff.mp hv
      rfl
    next => cases h
  all_goals
    split at h
    next v hv =>
      cases h
      exact isPlain_of_arithmetic? hv
    next => cases h

/-- An operator that fails finds its operands at fault. -/
theorem ne_of_apply {op : BinaryOp} {a b : Value} {f : Fault} (h : op.apply a b = .error f)
    {name : String} : f ≠ .unboundParameter name := by
  unfold apply at h
  dsimp only at h
  split at h
  · cases h
  · cases h
    exact fun h => nomatch h

end BinaryOp

/-- The same fault on both sides, which is not about a variable. -/
def MismatchLike (f g : Fault) : Prop := f = g ∧ ∀ name, f ≠ .unboundParameter name

namespace ValueLike

variable {w : World} {ok : Fault → Prop} {a b : Value}

theorem runtimeTy?_eq (l : ValueLike w ok a b) : a.runtimeTy? = b.runtimeTy? := by
  cases l <;> rfl

theorem typeName_eq (l : ValueLike w ok a b) : a.typeName = b.typeName := by
  rw [Value.typeName, Value.typeName, l.runtimeTy?_eq]

theorem isInstance_eq (l : ValueLike w ok a b) (ty : Ty) : a.isInstance ty = b.isInstance ty := by
  rw [Value.isInstance, Value.isInstance, l.runtimeTy?_eq]

theorem isPlain_eq (l : ValueLike w ok a b) : a.isPlain = b.isPlain := by
  cases l <;> rfl

theorem of_isPlain (h : a.isPlain) : ValueLike w ok a a := by
  cases a <;> first
    | cases h; done
    | constructor

theorem eq_of_isPlain (l : ValueLike w ok a b) (h : a.isPlain) : a = b := by
  cases l <;> first
    | rfl
    | cases h

theorem isNull_eq (l : ValueLike w ok a b) : a.isNull = b.isNull := by
  cases l <;> rfl

theorem asBool?_eq (l : ValueLike w ok a b) : a.asBool? = b.asBool? := by
  cases l <;> rfl

theorem asFloat?_eq (l : ValueLike w ok a b) : a.asFloat? = b.asFloat? := by
  cases l <;> rfl

mutual
/-- Texts show no identities. -/
theorem text_eq : ∀ {a b : Value}, ValueLike w ok a b → a.text = b.text
  | .void, _, l => by cases l; rfl
  | .null, _, l => by cases l; rfl
  | .bool _, _, l => by cases l; rfl
  | .int _, _, l => by cases l; rfl
  | .float _, _, l => by cases l; rfl
  | .str _, _, l => by cases l; rfl
  | .array .., _, l => by
    cases l with
    | array id items => rw [Value.text, Value.text, listText_eq items]
  | .object .., _, l => by cases l <;> rfl
  | .func .., _, l => by cases l <;> rfl
  | .task .., _, l => by cases l <;> rfl
  | .node _, _, l => by cases l; rfl
theorem listText_eq : ∀ {xs ys : List Value}, ValuesLike w ok xs ys →
    Value.listText xs = Value.listText ys
  | [], _, l => by cases l; rfl
  | _ :: _, _, l => by
    cases l with
    | cons first rest => rw [Value.listText, Value.listText, text_eq first, tailText_eq rest]
theorem tailText_eq : ∀ {xs ys : List Value}, ValuesLike w ok xs ys →
    Value.tailText xs = Value.tailText ys
  | [], _, l => by cases l; rfl
  | _ :: _, _, l => by
    cases l with
    | cons first rest => rw [Value.tailText, Value.tailText, text_eq first, tailText_eq rest]
end

theorem joinText_eq (l : ValueLike w ok a b) : a.joinText = b.joinText := by
  have htext := l.text_eq
  cases l <;> first | rfl | exact htext

/-- An object is equal to an object alone, and then to the one of its identity. -/
theorem object_equals_eq {id id' : Nat} {cls cls' : Ty} {content content' : Content Value}
    {c d : Value} (h : w.ids.pairs id id') (l : ValueLike w ok c d) :
    (Value.object id cls content).equals c = (Value.object id' cls' content').equals d := by
  cases l with
  | record id₂ => exact w.ids.beq_eq h id₂
  | hosted id₂ => exact w.ids.beq_eq h id₂
  | fault id₂ => exact w.ids.beq_eq h id₂
  | _ => rfl

/-- A task is equal to a task alone, and then to the one of its identity. -/
theorem task_equals_eq {id id' : Nat} {result result' : Ty} {x x' : Except Value Value}
    {c d : Value} (h : w.ids.pairs id id') (l : ValueLike w ok c d) :
    (Value.task id result x).equals c = (Value.task id' result' x').equals d := by
  cases l with
  | task id₂ => exact w.ids.beq_eq h id₂
  | failedTask id₂ => exact w.ids.beq_eq h id₂
  | _ => rfl

/-- Equality looks at identities, which are paired one to one. -/
theorem equals_eq {c d : Value} (l₁ : ValueLike w ok a b) (l₂ : ValueLike w ok c d) :
    a.equals c = b.equals d := by
  cases l₁ with
  | array id₁ =>
    cases l₂ with
    | array id₂ => exact w.ids.beq_eq id₁ id₂
    | _ => rfl
  | record id₁ => exact object_equals_eq id₁ l₂
  | hosted id₁ => exact object_equals_eq id₁ l₂
  | fault id₁ => exact object_equals_eq id₁ l₂
  | closure index₁ =>
    cases l₂ with
    | closure index₂ =>
      have h := w.closures.beq_eq index₁ index₂
      rw [Bool.eq_iff_iff, beq_iff_eq, beq_iff_eq] at h
      simp only [Value.equals]
      rw [Bool.eq_iff_iff, beq_iff_eq, beq_iff_eq, FuncRef.closure.injEq, FuncRef.closure.injEq, h]
    | _ => rfl
  | task id₁ => exact task_equals_eq id₁ l₂
  | failedTask id₁ => exact task_equals_eq id₁ l₂
  | _ => cases l₂ <;> rfl

/-- Conversions check types and change numbers only. -/
theorem converted (l : ValueLike w ok a b) (kind : ConvertKind) (ty : Ty) :
    ExceptLike Eq (ValueLike w ok) (convert kind a ty) (convert kind b ty) := by
  cases hp : a.isPlain with
  | true =>
    obtain rfl := l.eq_of_isPlain hp
    cases hr : convert kind a ty with
    | error failure => exact .error rfl
    | ok r =>
      rcases convert_eq_or_isPlain hr with rfl | hplain
      · exact .ok l
      · exact .ok (of_isPlain hplain)
  | false =>
    rw [convert_of_not_isPlain hp, convert_of_not_isPlain (l.isPlain_eq ▸ hp),
      ← l.isInstance_eq, ← l.typeName_eq]
    split
    · exact .ok .void
    · split
      · exact .ok l
      · cases kind with
        | cast => exact .error rfl
        | typeAs => exact .ok .null

theorem unary (l : ValueLike w ok a b) (op : UnaryOp) :
    ExceptLike MismatchLike (ValueLike w ok) (op.apply a) (op.apply b) := by
  have hname := l.typeName_eq
  cases op <;> cases l <;> first
    | exact .ok (by constructor)
    | exact .error ⟨by rw [hname], fun _ h => nomatch h⟩

theorem join?_eq {c d : Value} (l₁ : ValueLike w ok a b) (l₂ : ValueLike w ok c d)
    (op : BinaryOp) : op.join? a c = op.join? b d := by
  have h₁ := l₁.joinText_eq
  have h₂ := l₂.joinText_eq
  cases op <;> try rfl
  cases l₁ with
  | str s => simp only [BinaryOp.join?, h₂]
  | _ =>
    cases l₂ with
    | str s => simp only [BinaryOp.join?, h₁]
    | _ => rfl

theorem arithmetic?_eq {c d : Value} (l₁ : ValueLike w ok a b) (l₂ : ValueLike w ok c d)
    (op : BinaryOp) : op.arithmetic? a c = op.arithmetic? b d := by
  have h₁ := l₁.asFloat?_eq
  have h₂ := l₂.asFloat?_eq
  have hj := join?_eq l₁ l₂ op
  cases l₁ with
  | int n =>
    cases l₂ with
    | int k => rfl
    | _ => simp only [BinaryOp.arithmetic?, Value.asFloat?, hj]
  | _ => simp only [BinaryOp.arithmetic?, h₁, h₂, hj]

theorem compare?_eq {c d : Value} (l₁ : ValueLike w ok a b) (l₂ : ValueLike w ok c d) :
    BinaryOp.compare? a c = BinaryOp.compare? b d := by
  have h₁ := l₁.asFloat?_eq
  have h₂ := l₂.asFloat?_eq
  cases l₁ with
  | int n => cases l₂ <;> rfl
  | str s => cases l₂ <;> rfl
  | _ => simp only [BinaryOp.compare?, h₁, h₂]

theorem apply_eq {c d : Value} (l₁ : ValueLike w ok a b) (l₂ : ValueLike w ok c d)
    (op : BinaryOp) : op.apply a c = op.apply b d := by
  unfold BinaryOp.apply
  rw [l₁.equals_eq l₂, compare?_eq l₁ l₂, arithmetic?_eq l₁ l₂, l₁.typeName_eq, l₂.typeName_eq]

/-- Operators compute numbers and texts. -/
theorem binary {c d : Value} (l₁ : ValueLike w ok a b) (l₂ : ValueLike w ok c d) (op : BinaryOp) :
    ExceptLike MismatchLike (ValueLike w ok) (op.apply a c) (op.apply b d) := by
  rw [apply_eq l₁ l₂]
  cases h : op.apply b d with
  | error f => exact .error ⟨rfl, fun _ => BinaryOp.ne_of_apply h⟩
  | ok r => exact .ok (of_isPlain (BinaryOp.isPlain_of_apply h))

/-- The initial value of a variable mentions no identity. -/
theorem default (ty : Ty) : ValueLike w ok (.default ty) (.default ty) := by
  cases ty <;> constructor

theorem settle (l : ValueLike w ok a b) (ty : Ty) :
    ValueLike w ok (settle ty a) (settle ty b) := by
  unfold CodeTree.settle
  split
  · exact .void
  · exact l

theorem exception {id id' : Nat} (h : w.ids.pairs id id') (cls : Ty) (message : String) :
    ValueLike w ok (.exception id cls message) (.exception id' cls message) :=
  .record h (.cons (.mk _ (.str message)) .nil)

end ValueLike

/-! ## Host code -/

/-- Runs of host code that go side by side, whatever states they see that are related by
`state`, and whatever replies they get that are alike: they make the same calls, and end with
results related by `R`. -/
inductive ScriptLike {σ α : Type} (state : World → σ → σ → Prop) (ok : Fault → Prop)
    (R : World → α → α → Prop) : World → Script σ α → Script σ α → Prop
  | done {w : World} {a b : α} (result : R w a b) : ScriptLike state ok R w (.done a) (.done b)
  | read {w : World} {k l : σ → Script σ α}
      (next : ∀ s t, state w s t → ScriptLike state ok R w (k s) (l t)) :
      ScriptLike state ok R w (.read k) (.read l)
  | write {w : World} {s t : σ} {k l : Script σ α} (related : state w s t)
      (next : ScriptLike state ok R w k l) : ScriptLike state ok R w (.write s k) (.write t l)
  | fresh {w : World} {k l : Nat → Script σ α}
      (next : ∀ w' a b, w ≤ w' → w'.ids.pairs a b → ScriptLike state ok R w' (k a) (l b)) :
      ScriptLike state ok R w (.fresh k) (.fresh l)
  | call {w : World} {callee callee' : FuncRef} {args args' : List Value}
      {k l : Reply → Script σ α} (called : RefLike w callee callee')
      (given : ValuesLike w ok args args')
      (next : ∀ w' r r', w ≤ w' → ReplyLike w' ok r r' → ScriptLike state ok R w' (k r) (l r')) :
      ScriptLike state ok R w (.call callee args k) (.call callee' args' l)

end CodeTree
