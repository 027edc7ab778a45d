import CodeTree.Proofs.Lockstep

/-!
# Evaluation under a restraint

A `Restraint` says which callables may be called, and from which scopes a variable may be assigned
to. `evalWithin` evaluates as `eval` does and gives no answer once it comes to a call or an
assignment that is ruled out. An assignment is ruled out when it is about to be made: its operand
has been evaluated by then, and an operand that leaves early makes no assignment.

* `Lockstep.within_engines` — an evaluation under a restraint goes in step with one that is only
  permitted as many calls, if the assignments that are not ruled out keep the stores related;
* `eval_of_evalWithin` — what ends under a restraint ends so without it;
* `Restraint.sparing` — the restraint that spares some variables, and keeps away from the limit on
  nested calls.
-/

namespace CodeTree

variable {σ : Type}

/-- What an evaluation may do. -/
structure Restraint (σ : Type) where
  /-- Whether a callable may be called. -/
  call : Machine σ → FuncRef → Bool
  /-- Whether a variable may be assigned to from a scope. -/
  assign : Machine σ → Scope → Param → Bool

namespace Restraint

variable (R : Restraint σ)

/-- An assignment, unless it is ruled out. -/
def assigning (scope : Scope) (p : Param) (v : Value) : Step σ Bool := fun m =>
  if R.assign m scope p then Step.assign scope p v m else none

/-- What one node does under a restraint. -/
def evalNode (H : Host σ) (E : Engine σ) (I : Interp) (scope : Scope) (e : Expr) : Run σ Value :=
  match e.shape with
  | .assign target value => do
    let v ← E.eval I scope value
    if ← Run.step (R.assigning scope target v) then pure v
    else .fault (.unboundParameter target.displayName)
  | _ => CodeTree.evalNode H E I scope e

theorem evalNode_of_assign {H : Host σ} {E : Engine σ} {I : Interp} {scope : Scope} {e value : Expr}
    {target : Param} (h : e.shape = .assign target value) :
    R.evalNode H E I scope e = E.eval I scope value >>= fun v =>
      Run.step (R.assigning scope target v) >>= fun found =>
        if found then pure v else .fault (.unboundParameter target.displayName) := by
  unfold evalNode
  rw [h]

theorem evalNode_of_ne {H : Host σ} {E : Engine σ} {I : Interp} {scope : Scope} {e : Expr}
    (h : ∀ target value, e.shape ≠ .assign target value) :
    R.evalNode H E I scope e = CodeTree.evalNode H E I scope e := by
  unfold evalNode
  split
  next target value heq => exact absurd heq (h target value)
  next => rfl

end Restraint

mutual
/-- Evaluates a tree as `eval` does, but gives no answer once it comes to something that is ruled
out. -/
def evalWithin (H : Host σ) (R : Restraint σ) : Nat → Interp → Scope → Expr → Run σ Value
  | 0, _, _, _ => .step .outOfFuel
  | n + 1, I, scope, e => R.evalNode H ⟨n, evalWithin H R n, applyWithin H R n⟩ I scope e
/-- Calls a callable as `apply` does, as far as the restraint lets it. -/
def applyWithin (H : Host σ) (R : Restraint σ) : Nat → FuncRef → List Value → Step σ Reply
  | 0, _, _ => .outOfFuel
  | n + 1, ref, args => fun m =>
    if R.call m ref then applyRef H ⟨n, evalWithin H R n, applyWithin H R n⟩ ref args m else none
end

/-- The engine of a given fuel, under a restraint. -/
def engineWithin (H : Host σ) (R : Restraint σ) (fuel : Nat) : Engine σ :=
  ⟨fuel, evalWithin H R fuel, applyWithin H R fuel⟩

/-- What is no assignment is evaluated as without the restraint. -/
theorem evalWithin_succ {H : Host σ} {R : Restraint σ} {n : Nat} {I : Interp} {scope : Scope}
    {e : Expr} {shape : Shape Value Expr} (h : e.shape = shape)
    (hne : ∀ target value, shape ≠ .assign target value) :
    evalWithin H R (n + 1) I scope e = evalNode H (engineWithin H R n) I scope e := by
  rw [evalWithin, R.evalNode_of_ne fun target value heq => hne target value (h.symm.trans heq)]
  rfl

namespace Lockstep

variable {W : Type} [Preorder W] {L : Lockstep W} {R : Restraint σ} {d : Array Nat} {w : W}

/-- An assignment that is made on both sides or ruled out on the first one. -/
def WritesWithin (L : Lockstep W) (R : Restraint σ) (w : W) (s₁ s₂ : Scope) (p : Param) : Prop :=
  ∀ w', w ≤ w' → ∀ (m : Machine σ) st₂, L.memory w' m.store st₂ → R.assign m s₁ p → ∀ v,
    (m.store.assign s₁ p.id v).1 = (st₂.assign s₂ p.id v).1 ∧
      L.memory w' (m.store.assign s₁ p.id v).2 (st₂.assign s₂ p.id v).2

/-- Places that are the same layer by layer, as far as the restraint goes. -/
inductive LayerWithin (L : Lockstep W) (R : Restraint σ) (w : W) (P Q : Place) : Prop
  | layer {C : Position → Expr → Expr → Prop} (same : L.LayerLike w P Q C)
      (other : ∀ target value, P.tree.shape ≠ .assign target value)
  | assign {target : Param} {a b : Expr} (left : P.tree.shape = .assign target a)
      (right : Q.tree.shape = .assign target b)
      (operand : L.place w { P with tree := a } { Q with tree := b })
      (writes : L.WritesWithin R w P.scope Q.scope target)

/-- The second side makes the assignment if the first one does. -/
theorem Steps.assigning (hboth : ¬L.both) {s₁ s₂ : Scope} {p : Param}
    (h : L.WritesWithin R w s₁ s₂ p) (v : Value) :
    L.Steps d w Eq (R.assigning s₁ p v) (Step.assign s₂ p v) := by
  intro m₁ m₂ hm
  unfold Restraint.assigning
  split
  next hfree =>
    obtain ⟨hfound, hstore⟩ := h w (le_refl w) m₁ m₂.store hm.store hfree v
    exact .ended ⟨w, le_refl w, { hm with store := hstore }, hfound⟩
  next => exact .behind hboth _

/-- An evaluation under a restraint goes in step with one under a permission that lets through the
same calls. -/
theorem within_engines (hboth : ¬L.both) {H : Host σ} {permit : Permission σ}
    (hlayer : ∀ w P Q, L.place w P Q → L.LayerWithin R w P Q)
    (hvisit : ∀ m s e, permit.visit m s e)
    (hcall : ∀ w d m₁ m₂, L.Similar w d m₁ m₂ → ∀ ref, R.call m₁ ref → permit.call m₂ ref) :
    ∀ (n : Nat) (d : Array Nat), L.Engines d (engineWithin H R n) (engineWhile H permit n)
  | 0, d =>
    { rounds := Nat.le_refl 0
      rounds_eq := fun _ => rfl
      eval := fun w P Q _ m₁ m₂ _ => by
        show EndsLike _ _ ((evalWithin H R 0 P.interp P.scope P.tree).run m₁) _
        rw [evalWithin]
        exact .of_none fun hb => absurd hb hboth
      apply := fun w ref args m₁ m₂ _ => by
        show EndsLike _ _ (applyWithin H R 0 ref args m₁) _
        rw [applyWithin]
        exact .of_none fun hb => absurd hb hboth }
  | n + 1, d =>
    have ih := within_engines hboth hlayer hvisit hcall n
    { rounds := Nat.le_refl _
      rounds_eq := fun _ => rfl
      eval := fun w P Q hplace => by
        show L.Runs d w Eq (evalWithin H R (n + 1) P.interp P.scope P.tree)
          (evalWhile H permit (n + 1) Q.interp Q.scope Q.tree)
        rw [evalWithin, evalWhile]
        intro m₁ m₂ hm
        show EndsLike _ _ _ (if permit.visit m₂ Q.scope Q.tree then _ else none)
        rw [if_pos (hvisit m₂ Q.scope Q.tree)]
        cases hlayer w P Q hplace with
        | layer same other =>
          rw [R.evalNode_of_ne other]
          exact Runs.evalNode (ih d) H same m₁ m₂ hm
        | @assign target a b left right operand writes =>
          rw [R.evalNode_of_assign left, CodeTree.evalNode, right]
          refine Runs.bind_eq ((ih d).eval w _ _ operand) (fun w₁ hw₁ v => ?_) m₁ m₂ hm
          refine Runs.bind_eq (Runs.step (Steps.assigning hboth ?_ v)) fun _ _ found => ?_
          · exact fun w₂ hw₂ => writes w₂ (le_trans hw₁ hw₂)
          · cases found with
            | true => exact Runs.pure rfl
            | false => exact Runs.fault _
      apply := fun w ref args => by
        show L.Steps d w Eq (applyWithin H R (n + 1) ref args) (applyWhile H permit (n + 1) ref args)
        rw [applyWithin, applyWhile]
        intro m₁ m₂ hm
        dsimp only
        split
        next hfree =>
          rw [if_pos (hcall w d m₁ m₂ hm ref hfree)]
          exact Steps.applyRef H (ih d).apply (fun w c₁ c₂ hc => Runs.callClosure (ih _) hc args)
            m₁ m₂ hm
        next => exact .of_none fun hb => absurd hb hboth }

end Lockstep

/-- What ends under a restraint ends so without it. -/
theorem eval_of_evalWithin {H : Host σ} {R : Restraint σ} {n : Nat} {I : Interp} {s : Scope} {e : Expr}
    {m : Machine σ} {z : Except Exit Value × Machine σ} (h : (evalWithin H R n I s e).run m = some z) :
    (eval H n I s e).run m = some z := by
  have hinvariant : Lockstep.Invariant (fun _ => True) (fun _ => True) :=
    ⟨fun _ _ _ => trivial, fun _ _ _ _ _ _ _ _ => trivial, fun _ _ _ _ => trivial,
      fun _ _ _ _ _ => trivial⟩
  have hlayer : ∀ (w : Still) P Q, (Lockstep.diagonal False (fun _ => True) fun _ => True).place w P Q →
      (Lockstep.diagonal False (fun _ => True) fun _ => True).LayerWithin R w P Q := by
    rintro w P _ ⟨rfl, -⟩
    by_cases hshape : ∃ target value, P.tree.shape = .assign target value
    · obtain ⟨target, value, hshape⟩ := hshape
      refine .assign hshape hshape ⟨rfl, trivial⟩ ?_
      rintro _ _ m _ ⟨rfl, -⟩ _ v
      exact ⟨rfl, rfl, trivial⟩
    · exact .layer (hinvariant.layer (fun _ _ => trivial) fun _ _ _ _ _ _ => trivial)
        fun target value heq => hshape ⟨target, value, heq⟩
  have hengines : (Lockstep.diagonal False (fun _ => True) fun _ => True).Engines m.depths
      (engineWithin H R n) (engineWhile H .always n) :=
    Lockstep.within_engines (fun hboth => hboth) hlayer (fun _ _ _ => rfl)
      (fun _ _ _ _ _ _ _ => rfl) n m.depths
  obtain ⟨⟨r, m'⟩, hrun, _, -, hafter, hr⟩ := (hengines.eval ⟨⟩ ⟨I, s, e⟩ ⟨I, s, e⟩ ⟨rfl, trivial⟩ m m
    (hinvariant.similar trivial fun _ _ _ => trivial)).of_some h
  rw [show (engineWhile H .always n).eval = eval H n from
    congrArg Engine.eval (engineWhile_always H n)] at hrun
  obtain ⟨r₀, m₀⟩ := z
  obtain rfl : r₀ = r := hr.eq
  obtain rfl : m₀ = m' := hafter.eq
  exact hrun

/-! ## Variables that are spared -/

/-- Whether an activation by the interpreter `J` leaves room for so many more by `I`. -/
def Interp.HasRoom (I : Interp) (room : Nat) (J : Interp) (depths : Array Nat) : Prop :=
  J.id = I.id → depths.getD I.id 0 + room < J.limit

instance (I : Interp) (room : Nat) (J : Interp) (depths : Array Nat) :
    Decidable (I.HasRoom room J depths) :=
  inferInstanceAs (Decidable (_ → _))

/-- Whether a call of a callable leaves room for so many more activations. -/
def callsWithRoom (I : Interp) (room : Nat) (m : Machine σ) : FuncRef → Bool
  | .hosted _ => true
  | .closure i => m.closures[i]?.all fun c => decide (I.HasRoom room c.interp m.depths)

/-- The permission to call what leaves room for so many more activations. -/
def Permission.withRoom (I : Interp) (room : Nat) : Permission σ :=
  ⟨fun _ _ _ => true, callsWithRoom I room⟩

/-- Assigns to none of the variables as any of the scopes finds them, and calls what leaves room
for so many more activations. -/
def Restraint.sparing (I : Interp) (room : Nat) (scopes : List Scope) (ps : List Param) :
    Restraint σ where
  call := callsWithRoom I room
  assign m scope p := !(ps.any fun q => q.id == p.id) ||
    scopes.all fun t => m.store.owner? scope p.id != m.store.owner? t p.id

section Sparing

variable {I : Interp} {room : Nat} {m : Machine σ}

/-- An assignment that is not ruled out spares what binds the variables. -/
theorem Restraint.spares_of_assign {scopes : List Scope} {ps : List Param} {scope : Scope} {p : Param}
    (h : (Restraint.sparing I room scopes ps).assign m scope p) :
    (∀ q ∈ ps, q.id ≠ p.id) ∨ ∀ t ∈ scopes, m.store.owner? scope p.id ≠ m.store.owner? t p.id := by
  rcases Bool.or_eq_true_iff.mp h with hother | howners
  · refine .inl fun q hq hid => ?_
    have hany : ps.any (fun q => q.id == p.id) = true :=
      List.any_eq_true.mpr ⟨q, hq, beq_iff_eq.mpr hid⟩
    rw [hany] at hother
    cases hother
  · exact .inr fun t ht => bne_iff_ne.mp (List.all_eq_true.mp howners t ht)

/-- Machines in step let through the same calls. -/
theorem callsWithRoom_of_similar {W : Type} [Preorder W] {L : Lockstep W} {w : W} {d : Array Nat}
    {m₁ m₂ : Machine σ} (hm : L.Similar w d m₁ m₂) (ref : FuncRef)
    (h : callsWithRoom I room m₁ ref) : callsWithRoom I room m₂ ref := by
  cases ref with
  | hosted code => rfl
  | closure i =>
    have hclosure := hm.closures i
    revert h hclosure
    show (m₁.closures[i]?.all _ : Bool) → _ → (m₂.closures[i]?.all _ : Bool)
    generalize m₁.closures[i]? = o₁, m₂.closures[i]? = o₂
    intro h hclosure
    cases hclosure with
    | none => rfl
    | some hc =>
      rw [Option.all_some, hm.depths₁, hc.interp] at h
      rw [Option.all_some, hm.depths₂]
      exact h

end Sparing

end CodeTree
