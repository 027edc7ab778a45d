import CodeTree.Compile
import CodeTree.Proofs.SameTree

/-!
# Whole evaluations side by side

An evaluation that leaves its outermost frame early ends with an error, for which a thrown value
is asked for its message. Evaluations that go side by side end alike: `Steps.finish`.
-/

namespace CodeTree

/-- Errors of the same kind and wording, with thrown values that are alike. -/
inductive ErrorLike (w : World) (ok : Fault → Prop) : EvalError → EvalError → Prop
  | fault {f : Fault} (allowed : ok f) : ErrorLike w ok (.fault f) (.fault f)
  | unhandled (description : String) {x y : Value} (thrown : ValueLike w ok x y) :
      ErrorLike w ok (.unhandled description x) (.unhandled description y)

/-- Results of whole evaluations that are alike. -/
abbrev ResultLike (w : World) (ok : Fault → Prop) :
    Except EvalError Value → Except EvalError Value → Prop :=
  ExceptLike (ErrorLike w ok) (ValueLike w ok)

/-- One run of host code after another, side by side. -/
theorem ScriptLike.bind {σ α β : Type} {state : World → σ → σ → Prop} {ok : Fault → Prop}
    {R : World → α → α → Prop} {T : World → β → β → Prop} {f g : α → Script σ β} {w : World}
    {s t : Script σ α} (h : ScriptLike state ok R w s t)
    (hf : ∀ w', w ≤ w' → ∀ a b, R w' a b → ScriptLike state ok T w' (f a) (g b)) :
    ScriptLike state ok T w (s.bind f) (t.bind g) := by
  induction h with
  | done result => exact hf _ (le_refl _) _ _ result
  | read next ih => exact .read fun s t hst => ih s t hst hf
  | write related next ih => exact .write related (ih hf)
  | fresh next ih =>
    exact .fresh fun w' a b hw hab =>
      ih w' a b hw hab fun w'' hw' => hf w'' (le_trans hw hw')
  | call called given next ih =>
    exact .call called given fun w' r r' hw hr =>
      ih w' r r' hw hr fun w'' hw' => hf w'' (le_trans hw hw')

namespace Setting

variable {σ : Type} {S : Setting σ} {d : Array Nat × Array Nat} {w : World}

/-- Thrown values that are alike have one message. -/
theorem HostLike.messageOf {H : Host σ} (hH : S.HostLike H) (hbase : S.base ≤ w)
    {v v' : Value} (h : S.value w v v') :
    ScriptLike S.state S.ok (fun _ => Eq) w (H.messageOf v) (H.messageOf v') := by
  have hask := hH.readMember hbase h "message"
  cases h with
  | record | hosted | fault =>
    refine hask.bind fun w' _ r r' hr => ?_
    cases hr with
    | ok value => cases value <;> exact .done rfl
    | error thrown => exact .done rfl
  | _ => exact .done rfl

/-- Thrown values that are alike are described alike. -/
theorem HostLike.describe {H : Host σ} (hH : S.HostLike H) (hbase : S.base ≤ w)
    {v v' : Value} (h : S.value w v v') :
    ScriptLike S.state S.ok (fun _ => Eq) w (H.describe v) (H.describe v') := by
  refine (hH.messageOf hbase h).bind fun w' _ message message' hmessage => ?_
  subst hmessage
  have htext := h.text_eq
  cases h with
  | record | hosted | fault => cases message <;> exact .done rfl
  | _ =>
    dsimp only
    rw [htext]
    exact .done rfl

/-- What leaves the outermost frame becomes the same error. -/
theorem Steps.escaped {H : Host σ} (hH : S.HostLike H) {n₁ n₂ : Nat}
    (hE : S.EngineLike (engine H n₁) (engine H n₂)) {x y : Exit} (h : ExitLike w S.ok x y) :
    S.Steps d w (fun w => ErrorLike w S.ok) (CodeTree.escaped H n₁ x)
      (CodeTree.escaped H n₂ y) := by
  cases h with
  | throw value =>
    refine Steps.bind (R := fun _ => Eq) (Steps.above fun hbase => ?_) fun w' hw s s' hs => ?_
    · exact Steps.play (fun w ref ref' args args' => hE.apply d w ref ref' args args')
        (hH.describe hbase value)
    · subst hs
      exact Steps.pure (.unhandled s (value.mono hw))
  | jump l value => exact Steps.pure (.fault (S.ok_of_bound fun _ h => nomatch h))
  | fault allowed => exact Steps.pure (.fault allowed)

/-- Evaluations side by side end alike. -/
theorem Steps.finish {H : Host σ} (hH : S.HostLike H) {n₁ n₂ : Nat}
    (hE : S.EngineLike (engine H n₁) (engine H n₂)) {x y : Run σ Value}
    (h : S.Runs d w S.value x y) :
    S.Steps d w (fun w => ResultLike w S.ok) (CodeTree.finish H n₁ x)
      (CodeTree.finish H n₂ y) := by
  refine Steps.bind h fun w' _ r r' hr => ?_
  cases hr with
  | ok value => exact Steps.pure (.ok value)
  | error exit => exact Steps.bind (Steps.escaped hH hE exit) fun _ _ _ _ he => Steps.pure (.error he)

end Setting

end CodeTree
