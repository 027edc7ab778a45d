import CodeTree.Normalize
import CodeTree.Proofs.Mirror

/-!
# Self-contained trees do not depend on their surroundings

A tree that declares every variable it reads or writes, and rethrows in its own catch clauses
only, evaluates in all scopes alike: with the same outcome, the same bindings and the same host
state, and with closures that no later host code can tell apart. It leaves every binding that
was there before as it was, unless closures from before are called.

Main statements: `eval_alike_of_isSelfContained`, and `closed_call_assigns_outside`: a call may be
closed in the sense of `Expr.isClosed` and still depend on its surroundings, since the target
of an assignment is no reference.
-/

namespace CodeTree

variable {σ : Type}

/-- Machines that no later host code can tell apart, whatever it calls and however often. -/
structure SeenAlike (H : Host σ) (m₁ m₂ : Machine σ) : Prop where
  next : m₁.next = m₂.next
  store : m₁.store = m₂.store
  depths : m₁.depths = m₂.depths
  host : m₁.host = m₂.host
  later : ∀ (fuel : Nat) (α : Type) (s : Script σ α),
    (Step.play (apply H fuel) s m₁).map Prod.fst = (Step.play (apply H fuel) s m₂).map Prod.fst

/-- The permission to call host code, and closures from a certain one on. -/
def closuresSince (first : Nat) : Permission σ where
  visit _ _ _ := true
  call _ ref :=
    match ref with
    | .hosted _ => true
    | .closure i => first ≤ i

/-- A self-contained tree stands alike in any two scopes. -/
theorem samePlace_of_isSelfContained {e : Expr} (he : e.isSelfContained) {frames : Nat}
    {w : World} (h : World.since frames ≤ w) (I : Interp) (s t : Scope) :
    SamePlace Eq (fun _ => True) w ⟨I, s, e⟩ ⟨I, t, e⟩ :=
  ⟨rfl, rfl, fun _ _ _ _ => .of_since h fun _ _ => trivial, _, he, .nothing _ w s t⟩

/-- One direction of agreement: what happens in the first scope happens in the second one. -/
theorem eval_of_isSelfContained (H : Host σ) {e : Expr} (he : e.isSelfContained) (fuel : Nat)
    (permit : Permission σ) (I : Interp) (s t : Scope) (m : Machine σ)
    {r : Except Exit Value} {m₁ : Machine σ}
    (h : (evalWhile H permit fuel I s e).run m = some (r, m₁)) :
    ∃ m₂ w, (eval H fuel I t e).run m = some (r, m₂) ∧
      (anyhow σ).Similar w (m.depths, m.depths) m₁ m₂ := by
  have hsince : World.since 0 ≤ World.of 0 m := World.since_le_of m
  have hplace : (anyhow σ).place (World.of 0 m) ⟨I, s, e⟩ ⟨I, t, e⟩ :=
    ⟨hsince, .inl (samePlace_of_isSelfContained he hsince I s t)⟩
  have hlawful : (anyhow σ).Lawful H permit .always :=
    mirror_lawful_always H.keeps_trivial fun _ i _ => Nat.zero_le i
  obtain ⟨m₂, w, hm₂, hm, -, -⟩ := mirror_eval hlawful (anyhow_similar m) hplace h
  rw [evalWhile_always] at hm₂
  exact ⟨m₂, w, hm₂, hm⟩

/-- Machines that mirror each other both ways are seen alike. -/
theorem SeenAlike.of_similar (H : Host σ) {w w' : World} {d : Array Nat × Array Nat}
    {m₁ m₂ : Machine σ} (h₁ : (anyhow σ).Similar w d m₁ m₂) (h₂ : (anyhow σ).Similar w' d m₂ m₁) :
    SeenAlike H m₁ m₂ where
  next := mirror_next_eq h₁
  store := mirror_store_eq h₁
  depths := by rw [h₁.depths₁, h₁.depths₂, show d.1 = d.2 from h₁.depths]
  host := h₁.host.1
  later fuel α s := by
    cases hp₁ : Step.play (apply H fuel) s m₁ with
    | some x =>
      obtain ⟨a, k⟩ := x
      obtain ⟨k', -, hp₂, -, -⟩ := mirror_play H.keeps_trivial h₁ s.keeps_trivial hp₁
      rw [hp₂]
      rfl
    | none =>
      cases hp₂ : Step.play (apply H fuel) s m₂ with
      | none => rfl
      | some x =>
        obtain ⟨a, k⟩ := x
        obtain ⟨k', -, hp₁', -, -⟩ := mirror_play H.keeps_trivial h₂ s.keeps_trivial hp₂
        rw [hp₁] at hp₁'
        cases hp₁'

/-- An evaluation that calls closures of its own only writes to frames of its own only. -/
theorem frames_kept_of_isSelfContained (H : Host σ) {e : Expr} (he : e.isSelfContained)
    (fuel : Nat) (I : Interp) (s : Scope) (m : Machine σ) {r : Except Exit Value}
    {m' : Machine σ}
    (h : (evalWhile H (closuresSince m.closures.size) fuel I s e).run m = some (r, m')) :
    ∀ f < m.store.frames.size, m'.store.frame f = m.store.frame f := by
  let apart : Setting σ := mirror (fun _ => True) (fun _ => True) (fun _ _ => trivial)
    m.store.frames.size m.closures.size
  have hsince : World.since m.store.frames.size ≤ World.of m.store.frames.size m :=
    World.since_le_of m
  have hm : apart.Similar (World.of m.store.frames.size m) (m.depths, m.depths) m m := by
    refine mirror_similar trivial (Nat.le_refl _) (fun _ _ _ _ _ _ => trivial) fun i hi c hc => ?_
    -- there is no closure to call yet
    have := (Array.getElem?_eq_some_iff.mp hc).1
    omega
  have hplace : apart.place (World.of m.store.frames.size m) ⟨I, s, e⟩ ⟨I, s, e⟩ :=
    ⟨hsince, .inl (samePlace_of_isSelfContained he hsince I s s)⟩
  have hlawful : apart.Lawful H (closuresSince m.closures.size) .always :=
    mirror_lawful_always H.keeps_trivial fun _ _ hi => of_decide_eq_true hi
  obtain ⟨-, -, -, -, hkept, -⟩ := mirror_eval hlawful hm hplace h
  exact hkept

/-- A self-contained tree evaluates in any two scopes alike: neither evaluation ends, or both
end with one outcome, in machines that are seen alike. As long as no older closure is called,
all bindings that were there before stay as they were. -/
theorem eval_alike_of_isSelfContained (H : Host σ) {e : Expr} (he : e.isSelfContained)
    (fuel : Nat) (I : Interp) (s t : Scope) (m : Machine σ) :
    Option.Rel (fun x y => x.1 = y.1 ∧ SeenAlike H x.2 y.2)
      ((eval H fuel I s e).run m) ((eval H fuel I t e).run m) ∧
    ∀ r m', (evalWhile H (closuresSince m.closures.size) fuel I s e).run m = some (r, m') →
      ∃ m'', (eval H fuel I s e).run m = some (r, m'') ∧
        ∀ f < m.store.frames.size, m''.store.frame f = m.store.frame f := by
  refine ⟨?_, fun r m' h => ?_⟩
  · -- each of the two evaluations follows the other, so neither ends alone
    cases hs : (eval H fuel I s e).run m with
    | some x =>
      obtain ⟨r, m₁⟩ := x
      rw [← evalWhile_always] at hs
      obtain ⟨m₂, w, ht, h₁₂⟩ := eval_of_isSelfContained H he fuel .always I s t m hs
      rw [← evalWhile_always] at ht
      obtain ⟨m₁', w', hs', h₂₁⟩ := eval_of_isSelfContained H he fuel .always I t s m ht
      rw [← evalWhile_always, hs] at hs'
      cases hs'
      rw [evalWhile_always] at ht
      rw [ht]
      exact .some ⟨rfl, .of_similar H h₁₂ h₂₁⟩
    | none =>
      cases ht : (eval H fuel I t e).run m with
      | none => exact .none
      | some x =>
        obtain ⟨r, m₂⟩ := x
        rw [← evalWhile_always] at ht
        obtain ⟨m₁, -, hs', -⟩ := eval_of_isSelfContained H he fuel .always I t s m ht
        rw [hs] at hs'
        cases hs'
  · obtain ⟨m'', w, hm'', hsim⟩ := eval_of_isSelfContained H he fuel _ I s s m h
    refine ⟨m'', hm'', fun f hf => ?_⟩
    rw [← mirror_store_eq hsim]
    exact frames_kept_of_isSelfContained H he fuel I s m h f hf

/-! ## A closed call that is not self-contained -/

namespace Sample

/-- A host that answers `null` and does nothing else. -/
def silent : Host Unit where
  run _ _ _ := .done (.ok .null)
  get _ _ _ := .done (.ok .null)
  invoke _ _ _ _ := .done (.ok .null)

/-- A variable. -/
def x : Param := ⟨1, some "x", .int⟩

/-- A call whose operand assigns to the variable. -/
def assigningCall : Expr :=
  .mk 4 (.call none (.static "keep" .object [.int] .int 0)
    [.mk 3 (.assign x (.mk 2 (.constant (.int 5)) .int)) .int]) .int

/-- The same call below a declaration of the variable. -/
def declaringCall : Expr :=
  .mk 6 (.call none (.static "keep" .object [.int] .int 0)
    [.mk 5 (.block [x] [.mk 3 (.assign x (.mk 2 (.constant (.int 5)) .int)) .int]) .int]) .int

/-- A lambda whose body assigns to a variable that nothing declares. -/
def assigningLambda : Expr :=
  .mk 4 (.lambda [] (.mk 3 (.assign x (.mk 2 (.constant (.int 5)) .int)) .int)) (.func [] .int)

/-- A block whose value is a closure that reads its variable. -/
def escapingClosure : Expr :=
  .mk 4 (.block [x] [.mk 3 (.lambda [] (.mk 2 (.parameter x) .int)) (.func [] .int)]) (.func [] .int)

/-- A machine with a frame that binds the variable and one that binds nothing. -/
def machine : Machine Unit := ⟨7, ⟨#[[(1, .int 0)], []]⟩, #[], #[0], ()⟩

end Sample

/-- The target of an assignment does not count as free: this call is closed, yet it overwrites
the variable of the first scope and fails in the second one. -/
theorem closed_call_assigns_outside :
    Sample.assigningCall.isClosed = true ∧
      (eval Sample.silent 4 ⟨0, 8⟩ ⟨[⟨0, none⟩]⟩ Sample.assigningCall).run Sample.machine =
        some (.ok .null, { Sample.machine with store := ⟨#[[(1, .int 5)], []]⟩ }) ∧
      (eval Sample.silent 4 ⟨0, 8⟩ ⟨[⟨1, none⟩]⟩ Sample.assigningCall).run Sample.machine =
        some (.error (.fault (.unboundParameter "x")), Sample.machine) := by
  refine ⟨?_, rfl, rfl⟩
  decide

theorem declaringCall_alike :
    Sample.declaringCall.isSelfContained = true ∧
      Option.Rel (fun x y => x.1 = y.1 ∧ SeenAlike Sample.silent x.2 y.2)
        ((eval Sample.silent 6 ⟨0, 8⟩ ⟨[⟨0, none⟩]⟩ Sample.declaringCall).run Sample.machine)
        ((eval Sample.silent 6 ⟨0, 8⟩ ⟨[⟨1, none⟩]⟩ Sample.declaringCall).run Sample.machine) := by
  have h : Sample.declaringCall.isSelfContained = true := by decide
  exact ⟨h, (eval_alike_of_isSelfContained Sample.silent h 6 ⟨0, 8⟩ _ _ Sample.machine).1⟩

end CodeTree
