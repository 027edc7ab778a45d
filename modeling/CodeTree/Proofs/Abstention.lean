import CodeTree.Proofs.Alone
import CodeTree.Proofs.Independence
import CodeTree.Proofs.Stock

/-!
# Nodes that an evaluation does not come to

An evaluation comes to the nodes of its tree and, where callables are called, to the bodies of the
machine's closures. A tree that is only held as a value is not evaluated. So if a node is neither
in the tree nor in the body of a closure, the evaluation does not come to it, and the closures it
makes do not have it in their bodies either.

Not to come to a node is said with a permission: the evaluation is the same when it would give no
answer at the node (`Permission.sparing`).

* `Lockstep.Invariant.permitted` — what the places of an evaluation keep, a permission may ask for;
* `Machine.Lacks.evaluateAlone`, `Machine.Lacks.play` — evaluation alone, and host code;
* `executedOnce_of_lacks` — a call that gives a value when it is evaluated alone is executed once.
-/

namespace CodeTree

variable {σ : Type}

/-! ## Invariants and permissions -/

/-- An evaluation whose places keep an invariant is the same under a permission that the invariant
grants. -/
theorem Lockstep.Invariant.permitted {keeps : Store → Prop} {spares : Place → Prop}
    (h : Lockstep.Invariant keeps spares) {permit : Permission σ}
    (hvisit : ∀ m P, spares P → permit.visit m P.scope P.tree)
    (hcall : ∀ m ref, permit.call m ref) (H : Host σ) : ∀ (n : Nat) (d : Array Nat),
    (diagonal True keeps spares).Engines d (engineWhile H permit n) (engine H n)
  | 0, d =>
    { rounds := Nat.le_refl 0
      rounds_eq := fun _ => rfl
      eval := fun w P Q _ m₁ m₂ _ => by
        show EndsLike _ _ ((evalWhile H permit 0 P.interp P.scope P.tree).run m₁)
          ((CodeTree.eval H 0 Q.interp Q.scope Q.tree).run m₂)
        rw [evalWhile, CodeTree.eval]
        exact .neither
      apply := fun w ref args m₁ m₂ _ => by
        show EndsLike _ _ (applyWhile H permit 0 ref args m₁) (CodeTree.apply H 0 ref args m₂)
        rw [applyWhile, CodeTree.apply]
        exact .neither }
  | n + 1, d =>
    have ih := Lockstep.Invariant.permitted h hvisit hcall H n
    { rounds := Nat.le_refl _
      rounds_eq := fun _ => rfl
      eval := fun w P Q hplace => by
        show (diagonal True keeps spares).Runs d w Eq
          (evalWhile H permit (n + 1) P.interp P.scope P.tree)
          (CodeTree.eval H (n + 1) Q.interp Q.scope Q.tree)
        rw [evalWhile, CodeTree.eval]
        intro m₁ m₂ hm
        show EndsLike _ _ (if permit.visit m₁ P.scope P.tree then _ else none) _
        rw [if_pos (hvisit m₁ P hplace.2)]
        rcases h.lawful H w P Q hplace with ⟨C, hlayer⟩ | hdirect
        · exact Lockstep.Runs.evalNode (ih d) H hlayer m₁ m₂ hm
        · exact hdirect d _ _ (ih d) m₁ m₂ hm
      apply := fun w ref args => by
        show (diagonal True keeps spares).Steps d w Eq (applyWhile H permit (n + 1) ref args)
          (CodeTree.apply H (n + 1) ref args)
        rw [applyWhile, CodeTree.apply]
        intro m₁ m₂ hm
        dsimp only
        rw [if_pos (hcall m₁ ref)]
        exact Lockstep.Steps.applyRef H (ih d).apply
          (fun w c₁ c₂ hc => Lockstep.Runs.callClosure (ih _) hc args) m₁ m₂ hm }

/-! ## Trees and machines without a node -/

/-- No node of the tree has the identity. -/
def Expr.Lacks (id : Nat) (e : Expr) : Prop := ∀ n ∈ e.nodes, n.id ≠ id

instance (id : Nat) (e : Expr) : Decidable (e.Lacks id) :=
  inferInstanceAs (Decidable (∀ n ∈ e.nodes, n.id ≠ id))

theorem Expr.lacks_iff {id : Nat} {e : Expr} :
    e.Lacks id ↔ e.id ≠ id ∧ ∀ a ∈ e.children, a.Lacks id := by
  constructor
  · intro h
    exact ⟨h e e.mem_nodes_self, fun a ha n hn => h n (mem_nodes_of_child ha hn)⟩
  · intro h n hn
    rcases Expr.mem_nodes.mp hn with rfl | ⟨a, ha, hn⟩
    · exact h.1
    · exact h.2 a ha n hn

/-- No closure of the machine has a node with the identity in its body. -/
def Machine.Lacks (id : Nat) (m : Machine σ) : Prop :=
  ∀ (i : Nat) c, m.closures[i]? = some c → c.body.Lacks id

/-- Everything is permitted but to come to the nodes with the identity. -/
def Permission.sparing (id : Nat) : Permission σ := ⟨fun _ _ e => e.id != id, fun _ _ => true⟩

/-- The same evaluation on both sides, all trees of which lack the node. -/
abbrev lacking (id : Nat) : Lockstep Still :=
  Lockstep.diagonal True (fun _ => True) fun P => P.tree.Lacks id

theorem lacking_invariant (id : Nat) :
    Lockstep.Invariant (fun _ => True) fun P : Place => P.tree.Lacks id :=
  ⟨fun _ _ _ => trivial, fun _ _ _ _ _ _ _ _ => trivial,
    fun _ a h ha => (Expr.lacks_iff.mp h).2 a ha, fun _ h _ _ _ => h⟩

/-- Engines with and without the permission, for trees that lack the node. -/
theorem sparing_engines (H : Host σ) (id n : Nat) (d : Array Nat) :
    (lacking id).Engines d (engineWhile H (.sparing id) n) (engine H n) :=
  (lacking_invariant id).permitted (fun _ P h => bne_iff_ne.mpr (h P.tree P.tree.mem_nodes_self))
    (fun _ _ => rfl) H n d

/-! ## Evaluation alone -/

/-- Evaluates a tree alone, by any engine. -/
def evaluateAloneBy (H : Host σ) (E : Engine σ) (e : Expr) : Step σ (Except EvalError Value) := do
  let I ← Step.newInterp Interp.defaultLimit
  let scope ← Step.rootScope
  Use.finishBy H E.apply (E.eval I scope e)

theorem evaluateAloneBy_run (H : Host σ) (E : Engine σ) (e : Expr) (m : Machine σ) :
    evaluateAloneBy H E e m =
      Use.finishBy H E.apply (E.eval m.ownInterp m.ownScope e) m.readied :=
  rfl

theorem evaluateAloneBy_engine (H : Host σ) (fuel : Nat) {e : Expr} (hfree : e.freeParameters = []) :
    evaluateAloneBy H (engine H fuel) e = evaluateAlone H fuel e := by
  funext m
  rw [evaluateAlone_eq H fuel hfree, Use.finish_eq]
  rfl

/-- The operands of a call: its receiver, unless the method has none, and its arguments. -/
def evalOperands (ev : Expr → Run σ Value) (receiver : Option Expr) (method : Method)
    (args : List Expr) : Run σ (Option Value × List Value) := do
  let self ←
    match receiver with
    | some r => if method.isStatic then pure none else some <$> ev r
    | none => pure none
  let vs ← evalAll ev args
  pure (self, vs)

/-- A call is its operands, and then its method. -/
theorem evalNode_call (H : Host σ) (E : Engine σ) (I : Interp) (scope : Scope) {c : Expr}
    {receiver : Option Expr} {method : Method} {args : List Expr}
    (hshape : c.shape = .call receiver method args) :
    evalNode H E I scope c = evalOperands (E.eval I scope) receiver method args >>=
      fun operands => dispatch H E method operands.1 operands.2 := by
  simp only [evalNode, hshape, evalOperands]
  cases receiver with
  | none => simp only [bind_assoc, pure_bind]
  | some r =>
    by_cases hstatic : method.isStatic = true
    · simp only [hstatic, if_true, bind_assoc, pure_bind]
    · simp only [hstatic, if_false, bind_assoc, pure_bind, Bool.false_eq_true]

/-- A call is evaluated alone, with one execution of its method: its operands give values, the
method is called on them and gives the result, and neither comes back to the call. -/
def ExecutedOnce (H : Host σ) (fuel : Nat) (c : Expr) (m : Machine σ) (v : Value)
    (m' : Machine σ) : Prop :=
  ∃ n receiver method args operands m₁, fuel = n + 1 ∧ c.shape = .call receiver method args ∧
    (evalOperands (evalWhile H (.sparing c.id) n m.ownInterp m.ownScope) receiver method args).run
      m.readied = some (.ok operands, m₁) ∧
    (dispatch H (engineWhile H (.sparing c.id) n) method operands.1 operands.2).run m₁ =
      some (.ok v, m')

section Sparing

variable {id : Nat} {α : Type} {H : Host σ} {fuel : Nat} {e c : Expr} {m m' : Machine σ}

/-- On a machine that lacks the node, actions side by side do the same and go to a machine that
lacks it. -/
theorem Machine.Lacks.steps (hm : m.Lacks id) {x y : Step σ α}
    (h : ∀ d, (lacking id).Steps d ⟨⟩ Eq x y) :
    x m = y m ∧ ∀ a m', y m = some (a, m') → m'.Lacks id := by
  have hsimilar : (lacking id).Similar ⟨⟩ m.depths m m :=
    (lacking_invariant id).similar trivial hm
  have heq : x m = y m := (h m.depths).eq hsimilar
  refine ⟨heq, fun a m' hy => ?_⟩
  obtain ⟨_, _, _, _, hafter, -⟩ := (h m.depths m m hsimilar).of_some (heq.trans hy)
  exact fun i c hc => hafter.spared hc

theorem Machine.Lacks.readied (hm : m.Lacks id) : m.readied.Lacks id := hm

/-- The evaluation of a tree that lacks the node does not come to it. -/
theorem Machine.Lacks.eval (hm : m.Lacks id) (he : e.Lacks id) (H : Host σ) (n : Nat)
    (I : Interp) (scope : Scope) :
    (evalWhile H (.sparing id) n I scope e).run m = (CodeTree.eval H n I scope e).run m :=
  (hm.steps fun d => ((sparing_engines H id n d).eval ⟨⟩ ⟨I, scope, e⟩ ⟨I, scope, e⟩ ⟨rfl, he⟩).imp
    fun _ _ hr => hr.eq).1

/-- Host code does not come to the node, nor do the closures it calls. -/
theorem Machine.Lacks.play (hm : m.Lacks id) (H : Host σ) (n : Nat) (s : Script σ α) :
    Step.play (applyWhile H (.sparing id) n) s m = Step.play (CodeTree.apply H n) s m ∧
      ∀ a m', Step.play (CodeTree.apply H n) s m = some (a, m') → m'.Lacks id :=
  hm.steps fun d => Lockstep.Steps.play (sparing_engines H id n d).apply s ⟨⟩

/-- Evaluated alone, a tree that lacks the node does not come to it. -/
theorem Machine.Lacks.evaluateAlone (hm : m.Lacks id) (he : e.Lacks id)
    (hfree : e.freeParameters = []) (H : Host σ) (fuel : Nat) :
    evaluateAloneBy H (engineWhile H (.sparing id) fuel) e m = CodeTree.evaluateAlone H fuel e m ∧
      ∀ r m', CodeTree.evaluateAlone H fuel e m = some (r, m') → m'.Lacks id := by
  rw [← evaluateAloneBy_engine H fuel hfree, evaluateAloneBy_run, evaluateAloneBy_run]
  have hE := sparing_engines H id fuel
  exact hm.readied.steps fun d => Use.steps_finishBy (hE d).apply
    ((hE d).eval ⟨⟩ ⟨_, _, e⟩ ⟨_, _, e⟩ ⟨rfl, he⟩)

/-- Where the children lack the node, only the first step of an evaluation can come to it. -/
theorem sparing_evalNode (hc : ∀ a ∈ c.children, a.Lacks id) (H : Host σ) (n : Nat) (I : Interp)
    (scope : Scope) (d : Array Nat) :
    (lacking id).Runs d ⟨⟩ Eq (evalNode H (engineWhile H (.sparing id) n) I scope c)
      (evalNode H (engine H n) I scope c) :=
  Lockstep.Runs.evalNode (P := ⟨I, scope, c⟩) (Q := ⟨I, scope, c⟩) (sparing_engines H id n d) H
    ((lacking_invariant id).layer hc fun _ _ _ _ _ _ => trivial)

/-- Evaluated alone, such a tree leaves the machine without the node. -/
theorem Machine.Lacks.evaluateAlone_self (hm : m.Lacks id) (hc : ∀ a ∈ c.children, a.Lacks id)
    (hfree : c.freeParameters = []) {r : Except EvalError Value}
    (h : CodeTree.evaluateAlone H fuel c m = some (r, m')) : m'.Lacks id := by
  rw [← evaluateAloneBy_engine H fuel hfree, evaluateAloneBy_run] at h
  cases fuel with
  | zero => cases h
  | succ n =>
    have hsteps : ∀ d, (lacking id).Steps d ⟨⟩ Eq
        (Use.finishBy H (applyWhile H (.sparing id) (n + 1))
          (evalNode H (engineWhile H (.sparing id) n) m.ownInterp m.ownScope c))
        (Use.finishBy H (CodeTree.apply H (n + 1))
          (evalNode H (engine H n) m.ownInterp m.ownScope c)) := fun d =>
      Use.steps_finishBy (sparing_engines H id (n + 1) d).apply
        (sparing_evalNode hc H n m.ownInterp m.ownScope d)
    have hnode : (engine H (n + 1)).eval m.ownInterp m.ownScope c =
        evalNode H (engine H n) m.ownInterp m.ownScope c := by
      show CodeTree.eval H (n + 1) m.ownInterp m.ownScope c = _
      rw [CodeTree.eval, engine]
    rw [hnode] at h
    exact (hm.readied.steps hsteps).2 r m' h

/-- A call that gives a value when it is evaluated alone is executed once. -/
theorem executedOnce_of_lacks (hm : m.Lacks c.id) (hc : ∀ a ∈ c.children, a.Lacks c.id)
    {receiver : Option Expr} {method : Method} {args : List Expr}
    (hshape : c.shape = .call receiver method args) (hfree : c.freeParameters = []) {v : Value}
    (h : evaluateAlone H fuel c m = some (.ok v, m')) : ExecutedOnce H fuel c m v m' := by
  rw [evaluateAlone_eq H fuel hfree] at h
  have hrun := run_of_finish_ok h
  cases fuel with
  | zero => cases hrun
  | succ n =>
    have hnode := (hm.readied.steps fun d =>
      (sparing_evalNode hc H n m.ownInterp m.ownScope d).imp fun _ _ hr => hr.eq).1
    rw [eval] at hrun
    change (evalNode H (engine H n) _ _ c).run _ = _ at hrun
    rw [← hnode, evalNode_call H _ _ _ hshape] at hrun
    obtain ⟨operands, m₁, hoperands, hdispatch⟩ := ok_of_run_bind hrun
    exact ⟨n, receiver, method, args, operands, m₁, rfl, hshape, hoperands, hdispatch⟩

end Sparing

/-! ## Identities -/

/-- Evaluation only goes on in the supply of identities. -/
theorem next_le_of_evaluateAlone {H : Host σ} {fuel : Nat} {e : Expr} {m m' : Machine σ}
    {r : Except EvalError Value} (h : evaluateAlone H fuel e m = some (r, m')) :
    m.next ≤ m'.next := by
  have hrun : (Use.evaluate m.ownInterp e).run H fuel { m with depths := m.depths.push 0 } =
      some (.whole r, m') := by
    show (UseResult.whole <$> evaluateClosed H fuel m.ownInterp e) _ = _
    rw [map_eq_pure_bind]
    show (evaluateAlone H fuel e m).bind _ = _
    rw [h]
    rfl
  exact (Use.grown hrun).next

/-- So does host code. -/
theorem next_le_of_play {α : Type} {H : Host σ} {fuel : Nat} {s : Script σ α} {a : α} :
    ∀ {m m' : Machine σ}, Step.play (apply H fuel) s m = some (a, m') → m.next ≤ m'.next := by
  induction s with
  | done b =>
    intro m m' h
    cases h
    exact Nat.le_refl _
  | read next ih =>
    intro m m' h
    exact ih m.host h
  | write t next ih =>
    intro m m' h
    have hle := ih (m := { m with host := t }) h
    exact hle
  | fresh next ih =>
    intro m m' h
    exact Nat.le_trans (Nat.le_succ m.next) (ih m.next h)
  | call callee args next ih =>
    intro m m' h
    obtain ⟨⟨reply, m₁⟩, hcall, hrest⟩ := Option.bind_eq_some_iff.mp h
    have hrun : (Use.call callee args).run H fuel m = some (.reply reply, m₁) := by
      show (UseResult.reply <$> apply H fuel callee args) m = _
      rw [map_eq_pure_bind]
      show (apply H fuel callee args m).bind _ = _
      rw [hcall]
      rfl
    exact Nat.le_trans (Use.grown hrun).next (ih reply hrest)

end CodeTree
