import CodeTree.Proofs.ScopeIndependence
import CodeTree.Proofs.Strictness
import Mathlib.Data.Int.ModEq

/-!
# Integer arithmetic against exact arithmetic

Evaluation computes with integers of 64 bits, and wraps after every operation.
`Expr.exactValue?` is the integer that a tree of additions, subtractions, multiplications and
negations stands for when nothing wraps; other trees have none.

* `exactValue?_cases` — the four ways in which a tree has an exact value;
* `ofInt_eq_ofInt_iff` — integers are wrapped alike if and only if they are congruent;
* `BinaryOp.apply_ofInt` — operands may be wrapped before an operation, as its result is anyway;
* `evaluates_of_exactValue?` — by induction on the tree, evaluation gives its exact value,
  wrapped once.

Main statement: `integer_arithmetic_wraps` — such a tree evaluates to the only integer of 64 bits
that is congruent to its exact value, and two of them to the same one if and only if their exact
values are congruent.
-/

namespace CodeTree

variable {σ : Type}

/-! ## Exact values -/

/-- Arithmetic on integers of any size. -/
def BinaryOp.exactly? : BinaryOp → Int → Int → Option Int
  | .add, a, b => some (a + b)
  | .sub, a, b => some (a - b)
  | .mul, a, b => some (a * b)
  | _, _, _ => none

/-- The integer to which a variable is bound. -/
def Machine.intOf? (m : Machine σ) (scope : Scope) (p : Param) : Option Int64 :=
  (m.store.lookup scope p.id).bind Value.asInt?

theorem Machine.lookup_of_intOf? {m : Machine σ} {scope : Scope} {p : Param} {n : Int64}
    (h : m.intOf? scope p = some n) : m.store.lookup scope p.id = some (.int n) := by
  obtain ⟨v, hlookup, hint⟩ := Option.bind_eq_some_iff.mp h
  cases v with
  | int k =>
    cases hint
    exact hlookup
  | _ => cases hint

namespace Expr

/-- One step of `exactValue?`. -/
def exactStep (ints : Param → Option Int64) (_ : Expr) (layer : Shape Value (Expr × Option Int)) :
    Option Int :=
  match layer with
  | .constant (.int n) => some n.toInt
  | .parameter p => (ints p).map Int64.toInt
  | .unary .negate (_, a) => a.map fun x => -x
  | .binary op (_, a) (_, b) => a.bind fun x => b.bind fun y => op.exactly? x y
  | _ => none

/-- The exact value of a tree of integer arithmetic, of which `ints` gives the variables. -/
def exactValue? (ints : Param → Option Int64) : Expr → Option Int := fold (exactStep ints)

variable {ints : Param → Option Int64} {e : Expr} {z : Int}

/-- A tree that has an exact value is an operand that is an integer, or one of the operations. -/
theorem exactValue?_cases (h : e.exactValue? ints = some z) :
    (∃ n, e.shape = .constant (.int n) ∧ z = n.toInt) ∨
      (∃ p n, e.shape = .parameter p ∧ ints p = some n ∧ z = n.toInt) ∨
      (∃ a x, e.shape = .unary .negate a ∧ a.exactValue? ints = some x ∧ z = -x) ∨
      ∃ op a b x y, e.shape = .binary op a b ∧ a.exactValue? ints = some x ∧
        b.exactValue? ints = some y ∧ op.exactly? x y = some z := by
  obtain ⟨id, s, ty⟩ := e
  rw [exactValue?, fold_mk] at h
  cases s with
  | constant v =>
    cases v with
    | int n =>
      cases h
      exact .inl ⟨n, rfl, rfl⟩
    | _ => cases h
  | parameter p =>
    obtain ⟨n, hn, rfl⟩ := Option.map_eq_some_iff.mp h
    exact .inr (.inl ⟨p, n, rfl, hn, rfl⟩)
  | unary op a =>
    cases op with
    | negate =>
      obtain ⟨x, hx, rfl⟩ := Option.map_eq_some_iff.mp h
      exact .inr (.inr (.inl ⟨a, x, rfl, hx, rfl⟩))
    | not => cases h
  | binary op a b =>
    obtain ⟨x, hx, h⟩ := Option.bind_eq_some_iff.mp h
    obtain ⟨y, hy, hz⟩ := Option.bind_eq_some_iff.mp h
    exact .inr (.inr (.inr ⟨op, a, b, x, y, rfl, hx, hy, hz⟩))
  | _ => cases h

end Expr

/-! ## Wrapping -/

theorem toInt_ofInt_modEq (z : Int) : (Int64.ofInt z).toInt ≡ z [ZMOD 2 ^ 64] := by
  rw [Int64.toInt_ofInt]
  exact Int.bmod_emod

/-- Integers are wrapped alike if and only if they are congruent. -/
theorem ofInt_eq_ofInt_iff {x y : Int} : Int64.ofInt x = Int64.ofInt y ↔ x ≡ y [ZMOD 2 ^ 64] := by
  constructor
  · intro h
    have hx := toInt_ofInt_modEq x
    rw [h] at hx
    exact hx.symm.trans (toInt_ofInt_modEq y)
  · intro h
    have hbmod : x.bmod Int64.size = y.bmod Int64.size := by
      rw [← Int.emod_bmod x, ← Int.emod_bmod y]
      exact congrArg (Int.bmod · Int64.size) h
    rw [← Int64.toInt_inj, Int64.toInt_ofInt, Int64.toInt_ofInt, hbmod]

/-- Operands that are wrapped give the wrapped result. -/
theorem BinaryOp.apply_ofInt {op : BinaryOp} {x y z : Int} (h : op.exactly? x y = some z) :
    op.apply (.int (.ofInt x)) (.int (.ofInt y)) = .ok (.int (.ofInt z)) := by
  unfold exactly? at h
  split at h
  · cases h
    rw [Int64.ofInt_add]
    rfl
  · cases h
    rw [Int64.ofInt_sub]
    rfl
  · cases h
    rw [Int64.ofInt_mul]
    rfl
  · cases h

/-! ## Evaluation -/

section Evaluation

variable {H : Host σ} {I : Interp} {scope : Scope} {m : Machine σ}

theorem evaluates_negate {e a : Expr} (hshape : e.shape = .unary .negate a) {n : Int64}
    (h : Evaluates H I scope a m (.ok (.int n), m)) :
    Evaluates H I scope e m (.ok (.int (-n)), m) := by
  obtain ⟨id, s, ty⟩ := e
  cases hshape
  exact (evaluates_iff_eq rfl (evaluatesAll_one h) fun _ => rfl).mpr rfl

theorem evaluates_binary {e a b : Expr} {op : BinaryOp} (hshape : e.shape = .binary op a b)
    {x y z : Int} (hz : op.exactly? x y = some z)
    (ha : Evaluates H I scope a m (.ok (.int (.ofInt x)), m))
    (hb : Evaluates H I scope b m (.ok (.int (.ofInt y)), m)) :
    Evaluates H I scope e m (.ok (.int (.ofInt z)), m) := by
  have hstrict : e.shape.isStrict = true := by
    rw [hshape]
    cases op <;> first
      | rfl
      | cases hz
  have hall : EvaluatesAll H I scope [a, b] m (.ok [.int (.ofInt x), .int (.ofInt y)], m) :=
    evaluatesAll_of_values (.cons ha (.cons hb .nil))
  obtain ⟨id, s, ty⟩ := e
  cases hshape
  refine (evaluates_iff_eq hstrict hall fun _ => ?_).mpr rfl
  change (Setting.computed (op.apply (.int (.ofInt x)) (.int (.ofInt y)))).run m = _
  rw [BinaryOp.apply_ofInt hz]
  rfl

/-- Evaluation gives the exact value, wrapped, and changes nothing. -/
theorem evaluates_of_exactValue? {e : Expr} {z : Int}
    (h : e.exactValue? (m.intOf? scope) = some z) :
    Evaluates H I scope e m (.ok (.int (.ofInt z)), m) := by
  induction e using Expr.induction generalizing z with
  | step e ih =>
  obtain ⟨n, hshape, rfl⟩ | ⟨p, n, hshape, hn, rfl⟩ | ⟨a, x, hshape, ha, rfl⟩ |
    ⟨op, a, b, x, y, hshape, ha, hb, hz⟩ := Expr.exactValue?_cases h
  · rw [Int64.ofInt_toInt]
    refine evaluates_iff.mpr ⟨0, ?_⟩
    simp only [evalNode, hshape]
    rfl
  · rw [Int64.ofInt_toInt]
    exact evaluates_iff.mpr ⟨0, evalNode_reference hshape (Machine.lookup_of_intOf? hn) _⟩
  · have hchildren : e.children = [a] := by rw [Expr.children, hshape]; rfl
    rw [Int64.ofInt_neg]
    exact evaluates_negate hshape (ih a (by simp [hchildren]) ha)
  · have hchildren : e.children = [a, b] := by rw [Expr.children, hshape]; rfl
    exact evaluates_binary hshape hz (ih a (by simp [hchildren]) ha) (ih b (by simp [hchildren]) hb)

end Evaluation

/-! ## Trees of integer arithmetic -/

/-- A tree of integer arithmetic, of any size, evaluates without an error and without an effect to
the integer of 64 bits that is congruent to its exact value; another one, wherever it is evaluated,
gives the same integer if and only if its exact value is congruent, and so if it is the same. -/
theorem integer_arithmetic_wraps (H : Host σ) (I : Interp) {scope : Scope} {m : Machine σ}
    {e : Expr} {z : Int} (h : e.exactValue? (m.intOf? scope) = some z) :
    ∃ n : Int64, (∀ y, Evaluates H I scope e m y ↔ y = (.ok (.int n), m)) ∧
      (-2 ^ 63 ≤ n.toInt ∧ n.toInt < 2 ^ 63 ∧ n.toInt ≡ z [ZMOD 2 ^ 64]) ∧
      ∀ {τ : Type} (H' : Host τ) (I' : Interp) (scope' : Scope) (m' : Machine τ) (e' : Expr)
        (z' : Int), e'.exactValue? (m'.intOf? scope') = some z' →
        (Evaluates H' I' scope' e' m' (.ok (.int n), m') ↔ z' ≡ z [ZMOD 2 ^ 64]) := by
  have hself : Evaluates H I scope e m (.ok (.int (.ofInt z)), m) := evaluates_of_exactValue? h
  refine ⟨.ofInt z, fun y => ⟨fun hy => hy.unique hself, fun hy => hy ▸ hself⟩,
    ⟨Int64.le_toInt _, Int64.toInt_lt _, toInt_ofInt_modEq z⟩, ?_⟩
  intro τ H' I' scope' m' e' z' h'
  have hother : Evaluates H' I' scope' e' m' (.ok (.int (.ofInt z')), m') :=
    evaluates_of_exactValue? h'
  rw [← ofInt_eq_ofInt_iff]
  constructor
  · intro hn
    have hsame := congrArg Prod.fst (hother.unique hn)
    simpa only [Except.ok.injEq, Value.int.injEq] using hsame
  · intro hn
    rw [← hn]
    exact hother

namespace Sample

/-- A machine on which the variable has the least value. -/
def lowestHeld : Machine Unit := ⟨5, ⟨#[[(1, .int Int64.minValue)]]⟩, #[], #[0], ()⟩

/-- The negated variable, less one. -/
def mirrored : Expr :=
  .mk 4 (.binary .sub (.mk 2 (.unary .negate (.mk 1 (.parameter x) .int)) .int)
    (.mk 3 (.constant (.int 1)) .int)) .int

end Sample

open Sample in
/-- The negation wraps, and so does the subtraction: the greatest value comes out as it should. -/
theorem mirrored_wraps :
    mirrored.exactValue? (lowestHeld.intOf? ⟨[⟨0, none⟩]⟩) = some 9223372036854775807 ∧
      Evaluates silent ⟨0, 8⟩ ⟨[⟨0, none⟩]⟩ mirrored lowestHeld
        (.ok (.int Int64.maxValue), lowestHeld) := by
  have hexact : mirrored.exactValue? (lowestHeld.intOf? ⟨[⟨0, none⟩]⟩) =
      some 9223372036854775807 := by decide
  obtain ⟨n, hn, ⟨hlow, hhigh, hcongruent⟩, -⟩ := integer_arithmetic_wraps silent ⟨0, 8⟩ hexact
  have hmax : n = Int64.maxValue := by
    have hvalue : Int64.maxValue.toInt = 9223372036854775807 := by decide
    unfold Int.ModEq at hcongruent
    rw [← Int64.toInt_inj, hvalue]
    omega
  exact ⟨hexact, (hn _).mpr (by rw [hmax])⟩

end CodeTree
