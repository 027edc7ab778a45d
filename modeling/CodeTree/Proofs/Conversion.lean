import CodeTree.Proofs.Ancestry
import CodeTree.Proofs.Strictness

/-!
# Conversions and type tests

A conversion changes the representation of a value in a few cases that the two types decide
(`represented?`). Every other conversion asks whether the value fits the type, keeps a value that
does, and refuses one that does not (`refuse`): a cast throws, and the other kind gives `null`.

* `convert_of_represented`, `convert_of_checked` — a conversion is one or the other;
* `convert_of_fits` — a value that fits is kept;
* `convert_convert` — what a conversion gives is `null` or an instance, and is converted to itself;
* `evaluates_convert` — what a conversion in a tree ends with.

Main statement: `conversions_respect_type_tests` — conversions agree with type tests, may be
repeated, and the two kinds agree wherever a cast succeeds.
-/

namespace CodeTree

variable {σ : Type}

/-! ## Values that fit -/

/-- Whether a value may stand where a type is expected without a conversion. -/
def Value.fits (v : Value) (ty : Ty) : Bool := if v.isNull then ty.isNullable else v.isInstance ty

theorem Value.runtimeTy?_of_isInstance_void {v : Value} (h : v.isInstance .void) :
    v.runtimeTy? = some .void := by
  unfold isInstance at h
  split at h
  · next actual hactual =>
    cases actual <;> first
      | exact hactual
      | cases h
  · cases h

theorem Value.fits_of_isInstance {v : Value} {ty : Ty} (h : v.isInstance ty = true) :
    v.fits ty = true := by
  cases v with
  | null => cases h
  | _ => exact h

theorem Value.eq_null_or_isInstance_of_fits {v : Value} {ty : Ty} (h : v.fits ty = true) :
    v = .null ∨ v.isInstance ty = true := by
  cases v with
  | null => exact .inl rfl
  | _ => exact .inr h

/-! ## The rules for conversions -/

/-- What becomes of a value whose representation a conversion changes. -/
def represented? (kind : ConvertKind) (v : Value) (ty : Ty) : Option Value :=
  match v, ty, kind with
  | _, .void, _ => some .void
  | .int n, .float, _ => some (.float n.toFloat)
  | .float x, .int, .cast => some (.int x.toInt64)
  | _, _, _ => none

/-- What a conversion that only checks makes of a value that does not fit. -/
def refuse (kind : ConvertKind) (v : Value) (ty : Ty) : Except CastError Value :=
  match kind with
  | .typeAs => .ok .null
  | .cast => .error (if v.isNull then .null ty else .mismatch v.typeName ty)

variable {kind : ConvertKind} {v w : Value} {ty : Ty}

theorem convert_of_represented (h : represented? kind v ty = some w) :
    convert kind v ty = .ok w := by
  unfold represented? at h
  split at h
  · cases h
    simp only [convert]
  · cases h
    rfl
  · cases h
    rfl
  · cases h

theorem convert_of_checked (h : represented? kind v ty = none) :
    convert kind v ty = if v.fits ty then .ok v else refuse kind v ty := by
  unfold convert
  split
  · cases h
  · cases h
  · cases h
  · cases kind <;> rfl
  · next hnull _ _ _ =>
    have hvalue : v.isNull = false := by
      cases v with
      | null => exact absurd rfl hnull
      | _ => rfl
    unfold Value.fits refuse
    rw [hvalue]
    cases kind <;> rfl

theorem isInstance_of_represented (h : represented? kind v ty = some w) :
    w.isInstance ty = true := by
  unfold represented? at h
  split at h <;> cases h <;> rfl

/-- The two kinds represent values alike, except for floats that are cast to integers. -/
theorem represented?_typeAs (h : represented? .cast v ty = some w) :
    represented? .typeAs v ty = some w ∨ (∃ x, v = .float x) ∧ ty = .int := by
  unfold represented? at h
  split at h
  · exact .inl h
  · exact .inl h
  · exact .inr ⟨⟨_, rfl⟩, rfl⟩
  · cases h

theorem represented?_cast (h : represented? .typeAs v ty = some w) :
    represented? .cast v ty = some w := by
  unfold represented? at h
  split at h
  · exact h
  · exact h
  · next hkind => cases hkind
  · cases h

theorem represented?_typeAs_eq_none (h : represented? .cast v ty = none) :
    represented? .typeAs v ty = none := by
  cases htypeAs : represented? .typeAs v ty with
  | none => rfl
  | some w => cases h.symm.trans (represented?_cast htypeAs)

/-! ## What conversions give -/

/-- A value that fits a type is kept; of the values that show themselves as `void`, only `void`
itself is. -/
theorem convert_of_fits (h : v.fits ty = true) (hvoid : ty = .void → v = .void) :
    convert kind v ty = .ok v := by
  cases hrepresented : represented? kind v ty with
  | none => rw [convert_of_checked hrepresented, if_pos h]
  | some w =>
    rw [convert_of_represented hrepresented]
    unfold represented? at hrepresented
    split at hrepresented
    · cases hrepresented
      rw [hvoid rfl]
    · cases h
    · cases h
    · cases hrepresented

/-- What a conversion gives is converted to itself. -/
theorem convert_convert (h : convert kind v ty = .ok w) :
    (w = .null ∨ w.isInstance ty = true) ∧ convert kind w ty = .ok w := by
  cases hrepresented : represented? kind v ty with
  | some w' =>
    cases (convert_of_represented hrepresented).symm.trans h
    have hinstance := isInstance_of_represented hrepresented
    refine ⟨.inr hinstance, convert_of_fits (Value.fits_of_isInstance hinstance) ?_⟩
    intro hvoid
    subst hvoid
    simp only [represented?, Option.some.injEq] at hrepresented
    exact hrepresented.symm
  | none =>
    by_cases hfits : v.fits ty = true
    · rw [convert_of_checked hrepresented, if_pos hfits] at h
      cases h
      refine ⟨Value.eq_null_or_isInstance_of_fits hfits, ?_⟩
      rw [convert_of_checked hrepresented, if_pos hfits]
    · rw [convert_of_checked hrepresented, if_neg hfits] at h
      cases kind with
      | cast => cases h
      | typeAs =>
        cases h
        have hnull : represented? .typeAs .null ty = none := by
          cases ty <;> first
            | rfl
            | simp [represented?] at hrepresented
        refine ⟨.inl rfl, ?_⟩
        rw [convert_of_checked hnull]
        exact ite_self _

theorem convert_typeAs_ok (v : Value) (ty : Ty) : ∃ w, convert .typeAs v ty = .ok w := by
  cases hrepresented : represented? .typeAs v ty with
  | some w => exact ⟨w, convert_of_represented hrepresented⟩
  | none =>
    rw [convert_of_checked hrepresented]
    by_cases hfits : v.fits ty = true
    · exact ⟨v, if_pos hfits⟩
    · exact ⟨.null, if_neg hfits⟩

/-- Where a cast throws, the other kind gives `null`. -/
theorem convert_typeAs_of_error {failure : CastError} (h : convert .cast v ty = .error failure) :
    convert .typeAs v ty = .ok .null := by
  cases hrepresented : represented? .cast v ty with
  | some w => cases (convert_of_represented hrepresented).symm.trans h
  | none =>
    have hfits : ¬v.fits ty = true := by
      intro hfits
      rw [convert_of_checked hrepresented, if_pos hfits] at h
      cases h
    rw [convert_of_checked (represented?_typeAs_eq_none hrepresented), if_neg hfits]
    rfl

/-- Where a cast gives a value, the other kind gives the same one, unless the cast makes an
integer of a float. -/
theorem convert_typeAs_of_ok (h : convert .cast v ty = .ok w) :
    convert .typeAs v ty = .ok w ∨ (∃ x, v = .float x) ∧ ty = .int := by
  cases hrepresented : represented? .cast v ty with
  | some w' =>
    cases (convert_of_represented hrepresented).symm.trans h
    exact (represented?_typeAs hrepresented).imp_left convert_of_represented
  | none =>
    rw [convert_of_checked hrepresented] at h
    by_cases hfits : v.fits ty = true
    · rw [if_pos hfits] at h
      refine .inl ?_
      rw [convert_of_checked (represented?_typeAs_eq_none hrepresented), if_pos hfits]
      exact h
    · rw [if_neg hfits] at h
      cases h

theorem CastError.cls_cases (failure : CastError) :
    failure.cls = .invalidCast ∨ failure.cls = .nullReference := by
  cases failure with
  | null => exact .inr rfl
  | mismatch => exact .inl rfl

/-! ## Conversions in trees -/

/-- How a conversion ends: with the value, or by throwing a new exception. -/
def concluded (m : Machine σ) : Except CastError Value → Except Exit Value × Machine σ
  | .ok w => (.ok w, m)
  | .error failure =>
    (.error (.throw (.exception m.next failure.cls failure.message)), { m with next := m.next + 1 })

section Trees

variable {H : Host σ} {I : Interp} {scope : Scope} {e operand : Expr} {m m₁ : Machine σ}

/-- A conversion of an operand that has given a value. -/
theorem evaluates_convert (hshape : e.shape = .convert kind operand)
    (h : Evaluates H I scope operand m (.ok v, m₁)) {y : Except Exit Value × Machine σ} :
    Evaluates H I scope e m y ↔ y = concluded m₁ (convert kind v e.ty) := by
  obtain ⟨id, shape, target⟩ := e
  cases hshape
  refine evaluates_iff_eq rfl (evaluatesAll_one h) fun n => ?_
  change (takeEffect H _ scope target (.convert kind ()) [v]).run m₁ =
    some (concluded m₁ (convert kind v target))
  simp only [takeEffect]
  cases convert kind v target <;> rfl

/-- A type test of an operand that has given a value. -/
theorem evaluates_typeIs (hshape : e.shape = .typeIs operand ty)
    (h : Evaluates H I scope operand m (.ok v, m₁)) {y : Except Exit Value × Machine σ} :
    Evaluates H I scope e m y ↔ y = (.ok (.bool (v.isInstance ty)), m₁) := by
  obtain ⟨id, shape, target⟩ := e
  cases hshape
  exact evaluates_iff_eq rfl (evaluatesAll_one h) fun _ => rfl

end Trees

/-! ## Conversions and type tests -/

/-- Conversions are consistent with type tests, for every value but an object of the class `void`.
A conversion keeps an instance of its type; what it gives is `null` or an instance, and is
converted to itself. One kind never throws; the other throws one of two exceptions, where the first
gives `null`, and otherwise both give the same, except for floats that are cast to integers. In a
tree, conversions and type tests end by what is said of the value of the operand. -/
theorem conversions_respect_type_tests {v : Value} (hv : ∀ id content, v ≠ .object id .void content)
    (ty : Ty) :
    (∀ kind, v.isInstance ty = true → convert kind v ty = .ok v) ∧
      (∀ kind w, convert kind v ty = .ok w →
        (w = .null ∨ w.isInstance ty = true) ∧ convert kind w ty = .ok w) ∧
      (∃ w, convert .typeAs v ty = .ok w) ∧
      (∀ failure, convert .cast v ty = .error failure →
        (failure.cls = .invalidCast ∨ failure.cls = .nullReference) ∧
          convert .typeAs v ty = .ok .null) ∧
      (∀ w, convert .cast v ty = .ok w →
        convert .typeAs v ty = .ok w ∨ (∃ x, v = .float x) ∧ ty = .int) ∧
      ∀ {σ : Type} (H : Host σ) (I : Interp) (scope : Scope) (operand : Expr) (m m₁ : Machine σ),
        Evaluates H I scope operand m (.ok v, m₁) →
        ∀ (e : Expr) (y : Except Exit Value × Machine σ),
          (e.shape = .typeIs operand ty →
            (Evaluates H I scope e m y ↔ y = (.ok (.bool (v.isInstance ty)), m₁))) ∧
          ∀ kind, e.shape = .convert kind operand → e.ty = ty →
            (Evaluates H I scope e m y ↔ y = concluded m₁ (convert kind v ty)) := by
  refine ⟨fun kind h => ?_, fun kind w => convert_convert, convert_typeAs_ok v ty,
    fun failure h => ⟨failure.cls_cases, convert_typeAs_of_error h⟩, fun w => convert_typeAs_of_ok,
    fun H I scope operand m m₁ h e y => ⟨fun hshape => evaluates_typeIs hshape h, ?_⟩⟩
  · refine convert_of_fits (Value.fits_of_isInstance h) fun hvoid => ?_
    subst hvoid
    have hshown := Value.runtimeTy?_of_isInstance_void h
    cases v with
    | void => rfl
    | object id cls content =>
      cases hshown
      exact absurd rfl (hv id content)
    | _ => cases hshown
  · intro kind hshape hty
    subst hty
    exact evaluates_convert hshape h

/-- An object of a class that implements an interface through its base. -/
def Sample.rex : Value := .object 7 Ty.Sample.dog (.fields [])

open Sample in
/-- The object is an instance of the interface and is kept; to a string it cannot be cast. -/
theorem rex_converted :
    (∀ id content, rex ≠ .object id .void content) ∧
      convert .cast rex Ty.Sample.walker = .ok rex ∧ convert .typeAs rex .string = .ok .null := by
  have hrex : ∀ id content, rex ≠ .object id .void content := by
    intro id content h
    cases h
  have hwalker := conversions_respect_type_tests hrex Ty.Sample.walker
  have hstring := conversions_respect_type_tests hrex .string
  exact ⟨hrex, hwalker.1 .cast (by decide), (hstring.2.2.2.1 (.mismatch "Dog" .string) rfl).2⟩

end CodeTree
