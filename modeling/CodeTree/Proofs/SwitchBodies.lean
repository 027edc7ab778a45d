import CodeTree.Proofs.FirstMistake

/-!
# The bodies of a typed switch

A body enters a switch through a case or the default, given as a node or filled by a callback. Once
the result type is fixed every body is judged by its static type, and a result type cannot be fixed
after a body, so that each body of a finished switch was judged by the type of the switch
(`Traced`).

The static type of a block that a callback fills is the type of the switch whatever is in it. Its
last statement, which gives its value, is not looked at, unlike that of a conditional's arm: a switch
that is to give integers may give a string. It fits if the callback sees to it
(`Nested.EndsFitting`).

Main statement: `switch_bodies_fit`.
-/

namespace CodeTree

/-- A node yields a value of a type, or leaves its surroundings. -/
def Fits (R : Ty) (value : Expr) : Prop :=
  R.isAssignableFrom value.ty = true ∨ value.isDeparture = true

/-- The last statement that a callback puts into a block fits. -/
def Nested.EndsFitting (R : Ty) (nested : Nested) : Prop :=
  ∀ kept, (blockContract (some R)).accepted nested.calls = .ok kept →
    ∃ last, (kept.filterMap BlockEntry.stated?).getLast? = some last ∧ Fits R last

namespace SwitchCall

/-- The callback of a call. -/
def callback? : SwitchCall → Option Nested
  | caseBlock body _ => some body
  | defaultBlock body => some body
  | _ => none

/-- The body that a call brings, as it is judged. -/
def body? (R : Ty) : SwitchCall → Option (Except BuildError Expr)
  | case body _ => some (yielding R body)
  | default body => some (yielding R body)
  | caseBlock body _ => some (yieldingBlock R body)
  | defaultBlock body => some (yieldingBlock R body)
  | _ => none

/-- The body that a callback has filled. -/
def Fills (R : Ty) (c : SwitchCall) (body : Expr) : Prop :=
  ∃ nested, c.callback? = some nested ∧ nested.built (some R) = .ok body

variable {R : Ty} {c : SwitchCall} {body : Expr}

/-- A body that is not rejected has the result type. -/
theorem isAssignableFrom_of_body? (h : c.body? R = some (.ok body)) (hR : R.isVoid = false) :
    R.isAssignableFrom body.ty = true := by
  have hgiven : ∀ given, yielding R given = .ok body → R.isAssignableFrom body.ty = true := by
    intro given hgiven
    unfold yielding at hgiven
    rw [hR, Bool.false_or] at hgiven
    split at hgiven
    · next hfits =>
      cases hgiven
      exact hfits
    · cases hgiven
  have hfilled : ∀ nested, yieldingBlock R nested = .ok body →
      R.isAssignableFrom body.ty = true := by
    intro nested hnested
    rw [yieldingBlock_eq_built] at hnested
    rw [Nested.ty_of_built hnested]
    exact R.isAssignableFrom_self
  cases c with
  | case given tests => exact hgiven given (Option.some.inj h)
  | default given => exact hgiven given (Option.some.inj h)
  | caseBlock nested tests => exact hfilled nested (Option.some.inj h)
  | defaultBlock nested => exact hfilled nested (Option.some.inj h)
  | returns ty => cases h
  | comparer method => cases h

/-- The last statement of a block is the last that its callback has put there. -/
theorem fits_of_fills (h : c.Fills R body)
    (hends : ∀ nested, c.callback? = some nested → nested.EndsFitting R) :
    Fits R (ConditionBuilder.lastStatement body) := by
  obtain ⟨nested, hcallback, hbuilt⟩ := h
  unfold Nested.built at hbuilt
  cases hkept : (blockContract (some R)).accepted nested.calls with
  | error error =>
    rw [hkept] at hbuilt
    cases hbuilt
  | ok kept =>
    rw [hkept] at hbuilt
    cases hbuilt
    obtain ⟨last, hlast, hfits⟩ := hends nested hcallback kept hkept
    show Fits R (ConditionBuilder.lastStatement (blockOf (some R) kept nested.finish).1)
    rw [show ConditionBuilder.lastStatement (blockOf (some R) kept nested.finish).1 = last from
      ConditionBuilder.lastStatement_typedBlock _ _ hlast nested.finish]
    exact hfits

end SwitchCall

namespace SwitchEntry

/-- The body of a case or of the default. -/
def body? : SwitchEntry → Option Expr
  | arm a => some a.body
  | default body => some body
  | _ => none

variable {kept : List SwitchEntry} {entry : SwitchEntry}

theorem resultOf_concat_of_none (h : entry.result? = none) :
    resultOf (kept ++ [entry]) = resultOf kept := by
  rw [resultOf, List.filterMap_append, List.filterMap_cons_none h, List.filterMap_nil,
    List.append_nil, resultOf]

theorem body?_of_arm? {a : Case Expr} (h : entry.arm? = some a) : entry.body? = some a.body := by
  cases entry with
  | arm a =>
    cases h
    rfl
  | _ => cases h

theorem body?_of_default? {body : Expr} (h : entry.default? = some body) :
    entry.body? = some body := by
  cases entry with
  | default body => exact h
  | _ => cases h

theorem body?_eq_none_of_not_any
    (h : (kept.any fun entry => entry.arm?.isSome || entry.default?.isSome) = false) :
    ∀ entry ∈ kept, entry.body? = none := by
  intro entry hentry
  have hnone := List.any_eq_false.mp h entry hentry
  cases entry with
  | arm a => exact absurd rfl hnone
  | default body => exact absurd rfl hnone
  | result ty => rfl
  | comparer method => rfl

end SwitchEntry

open SwitchEntry

variable {value : Expr} {scrutinee : Ty} {kept more : List SwitchEntry} {c : At SwitchCall}

/-- What one call that is accepted adds: a result type, unless there is a body; a body that was
judged by the result type so far; or a comparer. -/
inductive Adds (kept : List SwitchEntry) (c : SwitchCall) : List SwitchEntry → Prop
  | result (ty : Ty) (unused : ∀ entry ∈ kept, entry.body? = none) : Adds kept c [.result ty]
  | body {entry : SwitchEntry} {body : Expr} (untyped : entry.result? = none)
      (holds : entry.body? = some body) (judged : c.body? (resultOf kept) = some (.ok body)) :
      Adds kept c [entry]
  | comparer (method : Method) : Adds kept c [.comparer method]

theorem Adds.of_map {c : SwitchCall} {r : Except BuildError Expr} {entry : Expr → SwitchEntry}
    (h : (r.map fun body => [entry body]) = .ok more) (huntyped : ∀ b, (entry b).result? = none)
    (hholds : ∀ b, (entry b).body? = some b) (hjudged : c.body? (resultOf kept) = some r) :
    Adds kept c more := by
  cases r with
  | error error => cases h
  | ok body =>
    cases h
    exact .body (huntyped body) (hholds body) hjudged

theorem adds_of_judge (h : (switchContract value scrutinee).judge kept c = .ok more) :
    Adds kept c.call more := by
  obtain ⟨next, c⟩ := c
  cases c with
  | returns ty =>
    simp only [switchContract] at h
    split at h
    · cases h
    · next hany =>
      cases h
      exact .result ty (body?_eq_none_of_not_any (Bool.not_eq_true _ ▸ hany))
  | case given tests => exact .of_map h (fun _ => rfl) (fun _ => rfl) rfl
  | caseBlock nested tests => exact .of_map h (fun _ => rfl) (fun _ => rfl) rfl
  | default given => exact .of_map h (fun _ => rfl) (fun _ => rfl) rfl
  | defaultBlock nested => exact .of_map h (fun _ => rfl) (fun _ => rfl) rfl
  | comparer method =>
    simp only [switchContract] at h
    split at h
    · cases h
    · cases h
      exact .comparer method

/-- Every body was judged by the result type, when one of the calls brought it. -/
def Traced (calls : List (At SwitchCall)) (kept : List SwitchEntry) : Prop :=
  ∀ entry ∈ kept, ∀ body, entry.body? = some body →
    ∃ c ∈ calls, c.call.body? (resultOf kept) = some (.ok body)

/-- One call that is accepted leaves every body judged by the result type. -/
theorem Traced.step {calls : List (At SwitchCall)} (h : Traced calls kept) (hc : c ∈ calls)
    (hadds : Adds kept c.call more) : Traced calls (kept ++ more) := by
  intro entry hentry body hbody
  cases hadds with
  | result ty unused =>
    -- there is no body yet that the new result type could not suit
    rcases List.mem_append.mp hentry with hold | hnew
    · cases (unused entry hold).symm.trans hbody
    · cases List.mem_singleton.mp hnew
      cases hbody
  | @body added judgedBody untyped holds judged =>
    rw [resultOf_concat_of_none untyped]
    rcases List.mem_append.mp hentry with hold | hnew
    · exact h entry hold body hbody
    · cases List.mem_singleton.mp hnew
      cases holds.symm.trans hbody
      exact ⟨c, hc, judged⟩
  | comparer method =>
    rw [resultOf_concat_of_none rfl]
    rcases List.mem_append.mp hentry with hold | hnew
    · exact h entry hold body hbody
    · cases List.mem_singleton.mp hnew
      cases hbody

/-- So do calls that are all accepted. -/
theorem Traced.run {all calls : List (At SwitchCall)} {kept' : List SwitchEntry}
    (h : Traced all kept) (hcalls : ∀ c ∈ calls, c ∈ all)
    (haccepted : (switchContract value scrutinee).acceptedFrom kept calls = .ok kept') :
    Traced all kept' := by
  induction calls generalizing kept with
  | nil =>
    cases haccepted
    exact h
  | cons c calls ih =>
    obtain ⟨hc, hrest⟩ := List.forall_mem_cons.mp hcalls
    cases hjudge : (switchContract value scrutinee).judge kept c with
    | error error => cases (Contract.acceptedFrom_cons_of_error hjudge).symm.trans haccepted
    | ok more =>
      exact ih (h.step hc (adds_of_judge hjudge)) hrest
        ((Contract.acceptedFrom_cons_of_ok hjudge).symm.trans haccepted)

/-- The switch that is made of some entries has their result type, and a default if that is not
`void`. -/
theorem switch_of_finish {n n' : Nat} {e : Expr}
    (h : ((switchContract value scrutinee).finish kept).run n = (.ok e, n')) :
    e.ty = resultOf kept ∧ ((resultOf kept).isVoid = false →
      ∃ default, e.shape = .switch value (kept.filterMap arm?) (some default)
          (kept.filterMap comparer?).getLast? ∧
        (default.ty = resultOf kept ∨ ∃ entry ∈ kept, entry.body? = some default)) := by
  simp only [switchContract] at h
  cases hlast : (kept.filterMap default?).getLast? with
  | some default =>
    rw [hlast] at h
    cases h
    obtain ⟨entry, hentry, hdefault⟩ := List.mem_filterMap.mp (List.mem_of_getLast? hlast)
    exact ⟨rfl, fun _ => ⟨default, rfl, .inr ⟨entry, hentry, body?_of_default? hdefault⟩⟩⟩
  | none =>
    cases hR : (resultOf kept).isVoid with
    | true =>
      rw [hlast, Option.elim, missingDefault, if_pos hR] at h
      cases h
      refine ⟨rfl, fun hfalse => ?_⟩
      cases hfalse
    | false =>
      have hdefault : missingDefault (resultOf kept) =
          some <$> Expr.typedConstant (.default (resultOf kept)) (resultOf kept) := by
        rw [missingDefault, Expr.defaultOf, hR]
        rfl
      rw [hlast, Option.elim, hdefault] at h
      cases h
      exact ⟨rfl, fun _ => ⟨_, rfl, .inl rfl⟩⟩

/-- A typed switch admits only bodies of its type, whatever calls its builder takes: every case's
body and the default have a static type that is assignable to the result type. If the callbacks see
to it that the blocks that they fill end in a statement that fits, then the last statement of every
body that is such a block has a type that is assignable to the result type, or is a throw or a
jump. -/
theorem switch_bodies_fit {calls : List (At SwitchCall)} {n n' : Nat} {e : Expr}
    (hbuild : ((switches value scrutinee).after calls).build.run n = (.ok e, n'))
    (htyped : e.ty.isVoid = false)
    (hcallbacks : ∀ c ∈ calls, ∀ nested, c.call.callback? = some nested →
      nested.EndsFitting e.ty) :
    ∃ cases default comparer, e.shape = .switch value cases (some default) comparer ∧
      ∀ body ∈ default :: cases.map Case.body, e.ty.isAssignableFrom body.ty = true ∧
        ((∃ c ∈ calls, c.call.Fills e.ty body) →
          Fits e.ty (ConditionBuilder.lastStatement body)) := by
  have honors := Fluent.honors (switchLedger value scrutinee)
  rcases (switchContract value scrutinee).accepted_or_rejected calls [] with
    ⟨kept, hkept⟩ | ⟨before, c, after, kept, error, rfl, hkept, hjudge⟩
  · have hfinish : ((switchContract value scrutinee).finish kept).run n = (.ok e, n') := by
      rw [← honors.all calls kept hkept]
      exact hbuild
    have htraced : Traced calls kept := .run (List.forall_mem_nil _) (fun _ h => h) hkept
    obtain ⟨hty, hshape⟩ := switch_of_finish hfinish
    rw [hty] at htyped hcallbacks ⊢
    obtain ⟨default, hshape, hdefault⟩ := hshape htyped
    have hfits : ∀ entry ∈ kept, ∀ body, entry.body? = some body →
        (resultOf kept).isAssignableFrom body.ty = true := by
      intro entry hentry body hbody
      obtain ⟨c, -, hjudged⟩ := htraced entry hentry body hbody
      exact SwitchCall.isAssignableFrom_of_body? hjudged htyped
    refine ⟨_, default, _, hshape, fun body hbody => ⟨?_, ?_⟩⟩
    · rcases List.mem_cons.mp hbody with rfl | hbody
      · rcases hdefault with hmissing | ⟨entry, hentry, hset⟩
        · rw [hmissing]
          exact Ty.isAssignableFrom_self _
        · exact hfits entry hentry _ hset
      · obtain ⟨arm, harm, rfl⟩ := List.mem_map.mp hbody
        obtain ⟨entry, hentry, harm⟩ := List.mem_filterMap.mp harm
        exact hfits entry hentry arm.body (body?_of_arm? harm)
    · rintro ⟨c, hc, hfills⟩
      exact SwitchCall.fits_of_fills hfills (hcallbacks c hc)
  · have hthrow : ((throw error : Build Expr)).run n = (.ok e, n') := by
      rw [← honors.first before kept c error after hkept hjudge]
      exact hbuild
    cases hthrow

namespace Sample

/-- The integer that is switched on. -/
def selector : Expr := .mk 0 (.constant (.int 1)) .int

/-- A switch that gives integers, with a case that a callback fills with one statement. -/
def casing (line : Expr) : List (At SwitchCall) :=
  [⟨3, .returns .int⟩, ⟨4, .caseBlock ⟨[⟨3, .line line⟩], 3⟩ [.mk 1 (.constant (.int 1)) .int]⟩]

/-- A statement that gives an integer. -/
def integerLine : Expr := .mk 2 (.constant (.int 7)) .int

/-- A statement that gives a string. -/
def stringLine : Expr := .mk 2 (.constant (.str "a")) .string

end Sample

open Sample in
/-- A callback that ends in an integer fills a body of a switch that gives integers. -/
theorem integer_block_fits : ∃ e n' cases default comparer,
    ((switches selector .int).after (casing integerLine)).build.run 4 = (.ok e, n') ∧
      e.shape = .switch selector cases (some default) comparer ∧
      ∀ body ∈ default :: cases.map Case.body, e.ty.isAssignableFrom body.ty = true ∧
        ((∃ c ∈ casing integerLine, c.call.Fills e.ty body) →
          Fits e.ty (ConditionBuilder.lastStatement body)) := by
  obtain ⟨e, n', hbuild, hty⟩ : ∃ e n',
      ((switches selector .int).after (casing integerLine)).build.run 4 = (.ok e, n') ∧ e.ty = .int :=
    ⟨_, _, rfl, rfl⟩
  have hends : Nested.EndsFitting e.ty ⟨[⟨3, .line integerLine⟩], 3⟩ := by
    intro kept hkept
    cases hkept
    exact ⟨integerLine, rfl, .inl (by rw [hty]; rfl)⟩
  obtain ⟨cases, default, comparer, hshape, hbodies⟩ := switch_bodies_fit hbuild (by rw [hty]; rfl)
    (by
      intro c hc nested hnested
      rcases List.mem_cons.mp hc with rfl | hc
      · cases hnested
      · cases List.mem_singleton.mp hc
        cases hnested
        exact hends)
  exact ⟨e, n', cases, default, comparer, hbuild, hshape, hbodies⟩

open Sample in
/-- A callback that ends in a string fills a body of a switch that gives integers just as well. -/
theorem string_block_admitted : ∃ e n' arm default,
    ((switches selector .int).after (casing stringLine)).build.run 4 = (.ok e, n') ∧
      e.ty = .int ∧ e.shape = .switch selector [arm] (some default) none ∧
      (∃ c ∈ casing stringLine, c.call.Fills e.ty arm.body) ∧
      ¬ Fits e.ty (ConditionBuilder.lastStatement arm.body) := by
  refine ⟨_, _, _, _, rfl, rfl, rfl, ⟨_, List.mem_cons_of_mem _ (List.mem_singleton_self _), ?_⟩, ?_⟩
  · exact ⟨_, rfl, rfl⟩
  · rintro (hty | hdeparture)
    · cases hty
    · cases hdeparture

end CodeTree
