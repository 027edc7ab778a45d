import CodeTree.Builder.Loop
import CodeTree.Proofs.Declaration
import CodeTree.Proofs.Interposition
import CodeTree.Proofs.JumpOrigin
import CodeTree.Proofs.Selection

/-!
# A while loop means while

`whileLoop` makes an endless loop around a block that starts with a conditional jump out of it.
What comes of this is `whileRounds`: open the frame of the block, evaluate the test in it, and as
long as it holds run the rest of the block, round after round (`WhileTree.eval_eq`).

* `Unrolls` — a run of the loop as a list of stages, tests and bodies, one constructor for each
  way in which a round may go on;
* `Unrolls.counts` — tests and bodies take turns, so their numbers differ by one at most;
* `Stage.Plain` — the frame is opened before the test, but the test cannot tell: it ends as it
  would in the scope of the loop, and the body finds its variables at their default values.

Main statement: `while_means_while`. What it leaves out is there: `loop_is_no_while`.
-/

namespace CodeTree

open Filter (atTop)

variable {σ τ : Type}

/-! ## The rounds -/

/-- The machine with the variables of a block in a new frame, at their default values. -/
def Machine.entering (m : Machine σ) (vars : List Param) : Machine σ :=
  { m with store := m.store.opened (vars.map fun p => (p, .default p.ty)) }

/-- How a loop goes on after its body. -/
def LoopControl.after (c : LoopControl) (again : Run σ Value) : Except Exit Value → Run σ Value
  | .ok _ => again
  | .error (.jump l v) =>
    if c.breakLabel == l then pure v
    else if c.continueLabel == l then again
    else throw (.jump l v)
  | .error exit => throw exit

/-- `while`, round by round. Each round has a frame of its own. -/
def whileRounds (scope : Scope) (vars : List Param) (test body : Scope → Run σ Value)
    (c : LoopControl) : Nat → Run σ Value
  | 0 => .step .outOfFuel
  | rounds + 1 => do
    let inner ← Run.step (Step.childScope scope)
    Run.step (Step.declareAll inner (vars.map fun p => (p, .default p.ty)))
    let t ← test inner
    if ← expectBool t then
      let o ← Run.step (body inner).run
      c.after (whileRounds scope vars test body c rounds) o
    else pure .void

/-- What is done in a round: on which machine, and what it ends with. -/
inductive Stage (σ : Type) where
  /-- The test, from before the frame of the round is opened. -/
  | test (start : Machine σ) (outcome : Except Exit Value) (stop : Machine σ)
  /-- The body, in the frame of its round. -/
  | body (frame : Nat) (start : Machine σ) (outcome : Except Exit Value) (stop : Machine σ)

/-- Whether another round follows a body that ended like this. -/
def LoopControl.GoesOn (c : LoopControl) : Except Exit Value → Prop :=
  GoesRound (some c.breakLabel) (some c.continueLabel)

/-- How a loop runs. -/
inductive Unrolls (c : LoopControl) :
    Machine σ → List (Stage σ) → Except Exit Value → Machine σ → Prop
  /-- The test is left early. -/
  | unwound {m exit m'} : Unrolls c m [.test m (.error exit) m'] (.error exit) m'
  /-- The test gives no `bool`. -/
  | untyped {m v m'} (h : v.asBool? = none) :
      Unrolls c m [.test m (.ok v) m'] (.error (.fault (.typeMismatch "bool" v.typeName))) m'
  /-- The test fails. -/
  | done {m m'} : Unrolls c m [.test m (.ok (.bool false)) m'] (.ok .void) m'
  /-- The body breaks out of the loop. -/
  | broken {m m₁ l v m'} (h : (c.breakLabel == l) = true) :
      Unrolls c m [.test m (.ok (.bool true)) m₁,
        .body m.store.frames.size m₁ (.error (.jump l v)) m'] (.ok v) m'
  /-- The body is left otherwise. -/
  | left {m m₁ exit m'} (hbreak : ∀ l v, exit = .jump l v → (c.breakLabel == l) = false)
      (hgoes : ¬c.GoesOn (.error exit)) :
      Unrolls c m [.test m (.ok (.bool true)) m₁,
        .body m.store.frames.size m₁ (.error exit) m'] (.error exit) m'
  /-- The body ends, or continues the loop. -/
  | again {m m₁ o m₂ stages r m'} (hgoes : c.GoesOn o) (later : Unrolls c m₂ stages r m') :
      Unrolls c m (.test m (.ok (.bool true)) m₁ ::
        .body m.store.frames.size m₁ o m₂ :: stages) r m'

namespace Stage

/-- What a stage asks for: the test, or the block of the loop. -/
def asked (test block : Expr) : Stage σ → Asked
  | .test .. => .part test
  | .body .. => .part block

def isTest : Stage σ → Bool
  | .test .. => true
  | .body .. => false

def isBody (x : Stage σ) : Bool := !x.isTest

/-- The test and the body do what the stage says. -/
def MadeBy (scope : Scope) (vars : List Param) (test body : Scope → Run σ Value) : Stage σ → Prop
  | .test start outcome stop =>
    (test (scope.extended start.store.frames.size none)).run (start.entering vars) =
      some (outcome, stop)
  | .body frame start outcome stop =>
    (body (scope.extended frame none)).run start = some (outcome, stop)

/-- A test and a body, on machines that carry a list, do what the stage says and put it on the
list. -/
def ListedBy (scope : Scope) (vars : List Param) (ask : Stage σ → Asked)
    (note : List Asked → Machine σ → Machine τ) (test body : Scope → Run τ Value) : Stage σ → Prop
  | .test start outcome stop => ∀ list,
    (test (scope.extended start.store.frames.size none)).run (note list (start.entering vars)) =
      some (outcome, note (list ++ [ask (.test start outcome stop)]) stop)
  | .body frame start outcome stop => ∀ list,
    (body (scope.extended frame none)).run (note list start) =
      some (outcome, note (list ++ [ask (.body frame start outcome stop)]) stop)

end Stage

/-! ## From a run to its stages, and back -/

section Rounds

variable {scope : Scope} {vars : List Param} {test body : Scope → Run σ Value} {c : LoopControl}
variable {m m₁ m₂ m' : Machine σ} {o r : Except Exit Value} {rounds : Nat}

theorem LoopControl.after_of_goesOn (h : c.GoesOn o) (again : Run σ Value) : c.after again o = again := by
  cases o with
  | ok v => rfl
  | error exit =>
    cases exit with
    | throw v => exact h.elim
    | fault f => exact h.elim
    | jump l v =>
      obtain ⟨hbreak, hcontinue⟩ := h
      have hbreak : (c.breakLabel == l) = false := hbreak
      have hcontinue : (c.continueLabel == l) = true := hcontinue
      rw [after, hbreak, hcontinue]
      rfl

theorem LoopControl.after_of_break {l : Label} {v : Value} (h : (c.breakLabel == l) = true)
    (again : Run σ Value) : c.after again (.error (.jump l v)) = pure v :=
  if_pos h

theorem LoopControl.after_of_left {exit : Exit}
    (hbreak : ∀ l v, exit = .jump l v → (c.breakLabel == l) = false)
    (hgoes : ¬c.GoesOn (.error exit)) (again : Run σ Value) :
    c.after again (.error exit) = throw exit := by
  cases exit with
  | throw v => rfl
  | fault f => rfl
  | jump l v =>
    have hcontinue : (c.continueLabel == l) = false :=
      Bool.eq_false_iff.mpr fun h => hgoes ⟨hbreak l v rfl, h⟩
    rw [after, hbreak l v rfl, hcontinue]
    rfl

/-- A body ends in one of three ways. -/
theorem LoopControl.after_cases (c : LoopControl) (o : Except Exit Value) :
    c.GoesOn o ∨ (∃ l v, o = .error (.jump l v) ∧ (c.breakLabel == l) = true) ∨
      ∃ exit, o = .error exit ∧ (∀ l v, exit = .jump l v → (c.breakLabel == l) = false) ∧
        ¬c.GoesOn (.error exit) := by
  by_cases hgoes : c.GoesOn o
  · exact .inl hgoes
  · cases o with
    | ok v => exact absurd trivial hgoes
    | error exit =>
      by_cases hbreak : ∃ l v, exit = .jump l v ∧ (c.breakLabel == l) = true
      · obtain ⟨l, v, rfl, hl⟩ := hbreak
        exact .inr (.inl ⟨l, v, rfl, hl⟩)
      · refine .inr (.inr ⟨exit, rfl, fun l v hexit => ?_, hgoes⟩)
        exact Bool.eq_false_iff.mpr fun hl => hbreak ⟨l, v, hexit, hl⟩

theorem LoopControl.after_run_congr (c : LoopControl) {again again' : Run σ Value}
    (h : ∀ k, again.run k = again'.run k) (o : Except Exit Value) (k : Machine σ) :
    (c.after again o).run k = (c.after again' o).run k := by
  rcases c.after_cases o with hgoes | ⟨l, v, rfl, hbreak⟩ | ⟨exit, rfl, hbreak, hgoes⟩
  · rw [c.after_of_goesOn hgoes, c.after_of_goesOn hgoes, h]
  · rw [c.after_of_break hbreak, c.after_of_break hbreak]
  · rw [c.after_of_left hbreak hgoes, c.after_of_left hbreak hgoes]

/-- A round evaluates the test in its frame. -/
theorem whileRounds_succ (rounds : Nat) :
    (whileRounds scope vars test body c (rounds + 1)).run m =
      (test (scope.extended m.store.frames.size none) >>= fun t => do
        if ← expectBool t then
          let o ← Run.step (body (scope.extended m.store.frames.size none)).run
          c.after (whileRounds scope vars test body c rounds) o
        else pure .void : Run σ Value).run (m.entering vars) :=
  Lockstep.opening_run scope none _ _ m

/-- After a test that holds, the body is run, and the loop goes on as the body ends. -/
theorem whileRounds_of_true
    (htest : (test (scope.extended m.store.frames.size none)).run (m.entering vars) =
      some (.ok (.bool true), m₁))
    (hbody : (body (scope.extended m.store.frames.size none)).run m₁ = some (o, m₂)) :
    (whileRounds scope vars test body c (rounds + 1)).run m =
      (c.after (whileRounds scope vars test body c rounds) o).run m₂ := by
  rw [whileRounds_succ, run_bind_of_ok htest]
  exact run_held_bind_of_some hbody _

theorem whileRounds_of_untyped {v : Value}
    (htest : (test (scope.extended m.store.frames.size none)).run (m.entering vars) =
      some (.ok v, m₁)) (hv : v.asBool? = none) :
    (whileRounds scope vars test body c (rounds + 1)).run m =
      some (.error (.fault (.typeMismatch "bool" v.typeName)), m₁) := by
  rw [whileRounds_succ, run_bind_of_ok htest, expectBool, hv]
  rfl

/-- Whatever a loop ends with, there are stages to it. -/
theorem unrolls_of_run :
    ∀ {rounds : Nat} {m : Machine σ}, (whileRounds scope vars test body c rounds).run m = some (r, m') →
      ∃ stages, Unrolls c m stages r m' ∧ ∀ x ∈ stages, x.MadeBy scope vars test body
  | 0, _, h => nomatch h
  | rounds + 1, m, h => by
    cases htest : (test (scope.extended m.store.frames.size none)).run (m.entering vars) with
    | none =>
      rw [whileRounds_succ, run_bind_of_none htest] at h
      cases h
    | some y =>
      obtain ⟨t, m₁⟩ := y
      cases t with
      | error exit =>
        rw [whileRounds_succ, run_bind_of_error htest] at h
        cases h
        exact ⟨_, .unwound, List.forall_mem_singleton.mpr htest⟩
      | ok v =>
        cases hv : v.asBool? with
        | none =>
          rw [whileRounds_of_untyped htest hv] at h
          cases h
          exact ⟨_, .untyped hv, List.forall_mem_singleton.mpr htest⟩
        | some b =>
          obtain rfl : v = .bool b := by
            cases v <;> cases hv
            rfl
          cases b with
          | false =>
            rw [whileRounds_succ, run_bind_of_ok htest] at h
            cases h
            exact ⟨_, .done, List.forall_mem_singleton.mpr htest⟩
          | true =>
            cases hbody : (body (scope.extended m.store.frames.size none)).run m₁ with
            | none =>
              rw [whileRounds_succ, run_bind_of_ok htest] at h
              have hnone : (Run.step (body (scope.extended m.store.frames.size none)).run >>=
                  c.after (whileRounds scope vars test body c rounds)).run m₁ = none := by
                rw [run_held_bind, hbody]
                rfl
              cases hnone.symm.trans h
            | some z =>
              obtain ⟨o, m₂⟩ := z
              rw [whileRounds_of_true htest hbody] at h
              have hround : ∀ x ∈ [Stage.test m (.ok (.bool true)) m₁,
                  .body m.store.frames.size m₁ o m₂], x.MadeBy scope vars test body :=
                List.forall_mem_cons.mpr ⟨htest, List.forall_mem_singleton.mpr hbody⟩
              rcases c.after_cases o with hgoes | ⟨l, v, rfl, hbreak⟩ | ⟨exit, rfl, hbreak, hgoes⟩
              · rw [c.after_of_goesOn hgoes] at h
                obtain ⟨stages, hlater, hmade⟩ := unrolls_of_run h
                exact ⟨_, .again hgoes hlater, List.forall_mem_append.mpr ⟨hround, hmade⟩⟩
              · rw [c.after_of_break hbreak] at h
                cases h
                exact ⟨_, .broken hbreak, hround⟩
              · rw [c.after_of_left hbreak hgoes] at h
                cases h
                exact ⟨_, .left hbreak hgoes, hround⟩

/-- A loop does what its stages say, given as many rounds. -/
theorem Unrolls.run {stages : List (Stage σ)} (h : Unrolls c m stages r m') {ask : Stage σ → Asked}
    {note : List Asked → Machine σ → Machine τ}
    (hsize : ∀ list k, (note list k).store.frames.size = k.store.frames.size)
    (hentering : ∀ list k, (note list k).entering vars = note list (k.entering vars))
    {test body : Scope → Run τ Value}
    (hlisted : ∀ x ∈ stages, x.ListedBy scope vars ask note test body) :
    ∀ {rounds : Nat}, stages.length ≤ rounds → ∀ list,
      (whileRounds scope vars test body c rounds).run (note list m) =
        some (r, note (list ++ stages.map ask) m') := by
  have htested : ∀ {m : Machine σ} {t : Except Exit Value} {m₁ : Machine σ},
      (Stage.test m t m₁).ListedBy scope vars ask note test body → ∀ list,
        (test (scope.extended (note list m).store.frames.size none)).run ((note list m).entering vars) =
          some (t, note (list ++ [ask (.test m t m₁)]) m₁) := by
    intro m t m₁ htest list
    rw [hsize, hentering]
    exact htest list
  have hran : ∀ {m : Machine σ} {m₁ : Machine σ} {o : Except Exit Value} {m₂ : Machine σ},
      (Stage.body m.store.frames.size m₁ o m₂).ListedBy scope vars ask note test body → ∀ list list',
        (body (scope.extended (note list m).store.frames.size none)).run (note list' m₁) =
          some (o, note (list' ++ [ask (.body m.store.frames.size m₁ o m₂)]) m₂) := by
    intro m m₁ o m₂ hbody list list'
    rw [hsize]
    exact hbody list'
  have hsucc : ∀ {rounds : Nat} {x : Stage σ} {xs : List (Stage σ)}, (x :: xs).length ≤ rounds →
      ∃ k, rounds = k + 1 ∧ xs.length ≤ k := fun hle =>
    ⟨_, (Nat.sub_add_cancel (Nat.le_trans (Nat.le_add_left 1 _) hle)).symm, Nat.le_sub_one_of_lt hle⟩
  induction h with
  | unwound =>
    intro rounds hrounds list
    obtain ⟨rounds, rfl, -⟩ := hsucc hrounds
    rw [whileRounds_succ]
    exact run_bind_of_error (htested (List.forall_mem_singleton.mp hlisted) list)
  | untyped hv =>
    intro rounds hrounds list
    obtain ⟨rounds, rfl, -⟩ := hsucc hrounds
    exact whileRounds_of_untyped (htested (List.forall_mem_singleton.mp hlisted) list) hv
  | done =>
    intro rounds hrounds list
    obtain ⟨rounds, rfl, -⟩ := hsucc hrounds
    rw [whileRounds_succ, run_bind_of_ok (htested (List.forall_mem_singleton.mp hlisted) list)]
    rfl
  | broken hbreak =>
    intro rounds hrounds list
    obtain ⟨rounds, rfl, -⟩ := hsucc hrounds
    rw [List.forall_mem_cons, List.forall_mem_singleton] at hlisted
    rw [whileRounds_of_true (htested hlisted.1 list) (hran hlisted.2 list _), c.after_of_break hbreak,
      List.append_assoc]
    rfl
  | left hbreak hgoes =>
    intro rounds hrounds list
    obtain ⟨rounds, rfl, -⟩ := hsucc hrounds
    rw [List.forall_mem_cons, List.forall_mem_singleton] at hlisted
    rw [whileRounds_of_true (htested hlisted.1 list) (hran hlisted.2 list _),
      c.after_of_left hbreak hgoes, List.append_assoc]
    rfl
  | again hgoes later ih =>
    intro rounds hrounds list
    obtain ⟨rounds, rfl, hle⟩ := hsucc hrounds
    rw [List.forall_mem_cons, List.forall_mem_cons] at hlisted
    obtain ⟨htest, hbody, hlater⟩ := hlisted
    rw [whileRounds_of_true (htested htest list) (hran hbody list _), c.after_of_goesOn hgoes,
      ih hlater (Nat.le_of_succ_le hle), List.append_assoc, List.append_assoc]
    rfl

/-- Tests and bodies take turns, so the numbers of the two say where the loop was left: in a test,
and then there is one test more, or in a body after which no round follows. -/
theorem Unrolls.counts {stages : List (Stage σ)} (h : Unrolls c m stages r m') :
    (∃ start o, stages.getLast? = some (.test start o m') ∧
      stages.countP Stage.isTest = stages.countP Stage.isBody + 1) ∨
    ∃ f start o, stages.getLast? = some (.body f start o m') ∧ ¬c.GoesOn o ∧
      stages.countP Stage.isTest = stages.countP Stage.isBody := by
  induction h with
  | unwound => exact .inl ⟨_, _, rfl, rfl⟩
  | untyped => exact .inl ⟨_, _, rfl, rfl⟩
  | done => exact .inl ⟨_, _, rfl, rfl⟩
  | broken hbreak =>
    exact .inr ⟨_, _, _, rfl, fun hgoes => Bool.eq_false_iff.mp hgoes.1 hbreak, rfl⟩
  | left _ hgoes => exact .inr ⟨_, _, _, rfl, hgoes, rfl⟩
  | again _ later ih =>
    rename_i stages _ _ _
    have hlast : ∀ (a b x : Stage σ), stages.getLast? = some x →
        (a :: b :: stages).getLast? = some x := fun a b x hx => by
      rw [List.getLast?_cons, List.getLast?_cons, hx]
      rfl
    have hround : ∀ (m : Machine σ) t m₁ f (m₂ : Machine σ) o m₃,
        (Stage.test m t m₁ :: .body f m₂ o m₃ :: stages).countP Stage.isTest =
          stages.countP Stage.isTest + 1 ∧
        (Stage.test m t m₁ :: .body f m₂ o m₃ :: stages).countP Stage.isBody =
          stages.countP Stage.isBody + 1 := fun m t m₁ f m₂ o m₃ =>
      ⟨by rw [List.countP_cons_of_pos rfl, List.countP_cons_of_neg Bool.false_ne_true],
        by rw [List.countP_cons_of_neg Bool.false_ne_true, List.countP_cons_of_pos rfl]⟩
    refine ih.imp (fun h => ?_) fun h => ?_
    · obtain ⟨start, o, hend, hcount⟩ := h
      exact ⟨start, o, hlast _ _ _ hend, by rw [(hround ..).1, (hround ..).2, hcount]⟩
    · obtain ⟨f, start, o, hend, hgoes, hcount⟩ := h
      exact ⟨f, start, o, hlast _ _ _ hend, hgoes, by rw [(hround ..).1, (hround ..).2, hcount]⟩

/-- A loop whose breaks carry nothing gives nothing. -/
theorem Unrolls.gives_void {stages : List (Stage σ)} (h : Unrolls c m stages r m')
    (hbare : ∀ f start l v stop, .body f start (.error (.jump l v)) stop ∈ stages →
      (c.breakLabel == l) = true → v = .void) {v : Value} (hr : r = .ok v) : v = .void := by
  induction h with
  | unwound => cases hr
  | untyped => cases hr
  | done =>
    cases hr
    rfl
  | broken hbreak =>
    cases hr
    exact hbare _ _ _ _ _ (List.mem_cons_of_mem _ (List.mem_singleton_self _)) hbreak
  | left => cases hr
  | again _ _ ih =>
    exact ih (fun f start l v stop hx => hbare f start l v stop
      (List.mem_cons_of_mem _ (List.mem_cons_of_mem _ hx))) hr

end Rounds

/-! ## The tree -/

/-- No node of the tree is a jump. -/
def Expr.JumpFree (e : Expr) : Prop := ∀ g ∈ e.nodes, ∀ kind l value, g.shape ≠ .jump kind l value

/-- The statements use the targets of a loop as the loop hands them out: no statement marks the
break target, and jumps to it carry no value. -/
structure LoopControl.Respected (c : LoopControl) (body : List Expr) : Prop where
  unmarked : body.any (·.marks c.breakLabel) = false
  bare : ∀ e ∈ body, ∀ g ∈ e.nodes, ∀ kind l value, g.shape = .jump kind l value →
    (c.breakLabel == l) = true → value = none

/-- The statement that jumps to a label unless the test holds. -/
inductive ExitUnless (test : Expr) (l : Label) : Expr → Prop
  | mk (whole negation jump other : Nat) :
      ExitUnless test l (.mk whole (.conditional (.mk negation (.unary .not test) .bool)
        (.mk jump (.jump .brk l none) .void) (.mk other .empty .void)) .void)

/-- A loop around a block with variables, whose statements are such an exit and a body. -/
inductive WhileTree (test : Expr) (c : LoopControl) (vars : List Param) (body : List Expr) :
    Expr → Expr → Prop
  | mk (loop block : Nat) (ty : Ty) {exit : Expr} (hexit : ExitUnless test c.breakLabel exit) :
      WhileTree test c vars body (.mk block (.block vars (exit :: body)) ty)
        (.mk loop (.loop (.mk block (.block vars (exit :: body)) ty) (some c.breakLabel)
          (some c.continueLabel)) .void)

section Trees

variable {H : Host σ} {I : Interp} {scope : Scope} {test exit block tree : Expr} {c : LoopControl}
variable {vars : List Param} {body : List Expr} {m : Machine σ}

/-- What the exit makes of the end of the test. -/
def exitOutcome (l : Label) : Except Exit Value → Except Exit Value
  | .ok (.bool true) => .ok .void
  | .ok (.bool false) => .error (.jump l .void)
  | .ok v => .error (.fault (.typeMismatch "bool" v.typeName))
  | .error exit => .error exit

theorem ExitUnless.eval_eq {l : Label} (h : ExitUnless test l exit) (q : Nat) :
    (eval H (q + 2) I scope exit).run m =
      ((eval H q I scope test).run m).map fun y => (exitOutcome l y.1, y.2) := by
  obtain ⟨whole, negation, jump, other⟩ := h
  have hjump : ∀ k : Machine σ, (eval H (q + 1) I scope (.mk jump (.jump .brk l none) .void)).run k =
      some (.error (.jump l .void), k) := fun k => by rw [eval]; rfl
  have hother : ∀ k : Machine σ, (eval H (q + 1) I scope (.mk other .empty .void)).run k =
      some (.ok .void, k) := fun k => by rw [eval]; rfl
  have hsettled : ∀ (a : Expr) (k : Machine σ) o, (eval H (q + 1) I scope a).run k = some (o, k) →
      (eval H (q + 1) I scope a >>= fun v => pure (settle .void v)).run k =
        some (o.map (settle .void), k) := fun a k o ha => by
    rw [run_bind, ha]
    cases o <;> rfl
  rw [eval]
  show (eval H (q + 1) I scope (.mk negation (.unary .not test) .bool) >>= _).run m = _
  have hnegation : eval H (q + 1) I scope (.mk negation (.unary .not test) .bool) =
      eval H q I scope test >>= fun v => Setting.computed (UnaryOp.not.apply v) := by
    rw [eval]
    rfl
  rw [hnegation, bind_assoc, run_bind, Option.map_eq_bind]
  refine congrArg (Option.bind _) (funext fun y => ?_)
  obtain ⟨o, k⟩ := y
  cases o with
  | error exit => rfl
  | ok v =>
    cases v with
    | bool b =>
      cases b with
      | true => exact hsettled _ k _ (hother k)
      | false => exact hsettled _ k _ (hjump k)
    | _ => rfl

theorem Expr.JumpFree.not_jump (h : test.JumpFree) {n : Nat} {l : Label} {v : Value} {m' : Machine σ} :
    (eval H n I scope test).run m ≠ some (.error (.jump l v), m') := by
  intro hrun
  obtain ⟨g, hg, kind, value, hshape, -⟩ := jump_has_origin ⟨n, hrun⟩
  exact h g hg kind l value hshape

theorem runBody_cons_run {ev : Expr → Run σ Value} (e : Expr) (rest : List Expr) (last : Value)
    (rounds : Nat) : (runBody ev body (rounds + 1) (e :: rest) last).run m =
      ((ev e).run m).bind fun y => (goOn ev body rounds rest y.1).run y.2 := by
  rw [runBody, runStatements, run_held_bind]
  refine congrArg (Option.bind _) (funext fun y => ?_)
  obtain ⟨r, k⟩ := y
  cases r with
  | ok v => rfl
  | error exit => cases exit <;> rfl

/-- A statement that marks no label is never looked up. -/
theorem runBody_unmarked {ev : Expr → Run σ Value} {e : Expr} (he : e.label? = none) :
    ∀ (rounds : Nat) (rest : List Expr) (last : Value),
      runBody ev (e :: body) rounds rest last = runBody ev body rounds rest last
  | 0, _, _ => rfl
  | rounds + 1, rest, last => by
    have hafter : ∀ l, afterLabel? l (e :: body) = afterLabel? l body := by
      intro l
      rw [Setting.afterLabel?_cons, he]
      rfl
    rw [runBody, runBody]
    congr 1
    funext l v
    rw [hafter]
    split
    · exact runBody_unmarked he rounds _ v
    · rfl

/-- The block of a loop: after the exit, the body. -/
theorem ExitUnless.block_run (hexit : ExitUnless test c.breakLabel exit) (htest : test.JumpFree)
    (hc : body.any (·.marks c.breakLabel) = false) (q id : Nat) (ty : Ty) :
    (eval H (q + 3) I scope (.mk id (.block vars (exit :: body)) ty)).run m =
      (eval H q I (scope.extended m.store.frames.size none) test >>= fun t => do
        if ← expectBool t then
          let v ← runBody (eval H (q + 2) I (scope.extended m.store.frames.size none)) body (q + 2)
            body .void
          pure (settle ty v)
        else throw (.jump c.breakLabel .void) : Run σ Value).run (m.entering vars) := by
  have hlabel : exit.label? = none := by
    cases hexit
    rfl
  have hnone : afterLabel? c.breakLabel (exit :: body) = none := by
    refine afterLabel?_eq_none ?_
    rw [List.any_cons, hc, Expr.marks, hlabel]
    rfl
  rw [eval]
  refine (Lockstep.opening_run scope none _ _ m).trans ?_
  show (runBody (eval H (q + 2) I (scope.extended m.store.frames.size none)) (exit :: body) (q + 2)
    (exit :: body) .void >>= fun v => pure (settle ty v)).run (m.entering vars) = _
  rw [run_bind, runBody_cons_run, hexit.eval_eq]
  cases hrun : (eval H q I (scope.extended m.store.frames.size none) test).run (m.entering vars) with
  | none => exact (run_bind_of_none hrun).symm
  | some y =>
    obtain ⟨o, k⟩ := y
    cases o with
    | error e =>
      rw [run_bind_of_error hrun]
      cases e with
      | throw v => rfl
      | fault f => rfl
      | jump l v => exact absurd hrun htest.not_jump
    | ok v =>
      rw [run_bind_of_ok hrun]
      cases v with
      | bool b =>
        cases b with
        | true =>
          show ((runBody _ (exit :: body) (q + 2) body .void).run k).bind _ = _
          rw [runBody_unmarked hlabel, ← run_bind]
          rfl
        | false =>
          show ((goOn _ (exit :: body) (q + 1) body (.error (.jump c.breakLabel .void))).run k).bind _ = _
          simp only [goOn, hnone]
          rfl
      | _ => rfl

/-- The loop is `while`. -/
theorem WhileTree.eval_eq (h : WhileTree test c vars body block tree) (htest : test.JumpFree)
    (hc : body.any (·.marks c.breakLabel) = false) (q : Nat) :
    (eval H (q + 4) I scope tree).run m =
      (whileRounds scope vars (fun inner => eval H q I inner test)
        (fun inner => runBody (eval H (q + 2) I inner) body (q + 2) body .void) c (q + 3)).run m := by
  obtain @⟨loop, id, ty, exit, hexit⟩ := h
  have hiterate : ∀ (x : Run σ Value) rounds,
      iterate x (some c.breakLabel) (some c.continueLabel) (rounds + 1) =
        Run.step x.run >>= c.after (iterate x (some c.breakLabel) (some c.continueLabel) rounds) := by
    intro x rounds
    rw [iterate]
    refine congrArg (Run.step x.run >>= ·) (funext fun o => ?_)
    cases o with
    | ok v => rfl
    | error exit => cases exit <;> rfl
  have hbody : ∀ {again again' x : Run σ Value} (k : Machine σ),
      (∀ k, again.run k = again'.run k) →
      ((x >>= fun v => pure (settle ty v) : Run σ Value).run k).bind
        (fun y => (c.after again y.1).run y.2) =
      (Run.step x.run >>= c.after again').run k := by
    intro again again' x k hagain
    rw [run_bind, run_held_bind, Option.bind_assoc]
    refine congrArg (Option.bind _) (funext fun y => ?_)
    obtain ⟨o, k'⟩ := y
    refine Eq.trans ?_ (c.after_run_congr hagain o k')
    cases o <;> rfl
  have hrounds : ∀ rounds (m : Machine σ),
      (iterate (eval H (q + 3) I scope (.mk id (.block vars (exit :: body)) ty)) (some c.breakLabel)
        (some c.continueLabel) rounds).run m =
      (whileRounds scope vars (fun inner => eval H q I inner test)
        (fun inner => runBody (eval H (q + 2) I inner) body (q + 2) body .void) c rounds).run m := by
    intro rounds
    induction rounds with
    | zero => exact fun _ => rfl
    | succ rounds ih =>
      intro m
      rw [hiterate, run_held_bind, hexit.block_run htest hc, whileRounds_succ]
      cases hrun : (eval H q I (scope.extended m.store.frames.size none) test).run
          (m.entering vars) with
      | none =>
        rw [run_bind_of_none hrun, run_bind_of_none hrun]
        rfl
      | some y =>
        obtain ⟨o, k⟩ := y
        cases o with
        | error e =>
          rw [run_bind_of_error hrun, run_bind_of_error hrun]
          cases e with
          | throw v => rfl
          | fault f => rfl
          | jump l v => exact absurd hrun htest.not_jump
        | ok v =>
          rw [run_bind_of_ok hrun, run_bind_of_ok hrun]
          cases v with
          | bool b =>
            cases b with
            | true => exact hbody k ih
            | false =>
              show (c.after _ (.error (.jump c.breakLabel .void))).run k = _
              rw [c.after_of_break (l := c.breakLabel) (beq_self_eq_true c.breakLabel.id)]
              rfl
          | _ => rfl
  rw [eval]
  exact hrounds (q + 3) m

end Trees

/-! ## Stages that happen -/

section Happening

variable (H : Host σ) (I : Interp) (scope : Scope) (vars : List Param) (test : Expr) (body : List Expr)

/-- The stage happens, given enough fuel. -/
def Stage.Happens : Stage σ → Prop
  | .test start outcome stop =>
    Evaluates H I (scope.extended start.store.frames.size none) test (start.entering vars)
      (outcome, stop)
  | .body frame start outcome stop =>
    BodyEnds H I (scope.extended frame none) body body .void start (outcome, stop)

/-- The frame of a round makes no difference to the test, which ends as it does in the scope of the
loop, on the machine without the frame. The body finds the variables of the block at their default
values. -/
def Stage.Plain : Stage σ → Prop
  | .test start outcome stop => ∃ below stop', Evaluates H I scope test start (outcome, stop') ∧
    (Interposition.opening start.store (vars.map fun p => (p, .default p.ty)) scope False
      below).EndsBeside (outcome, stop') (outcome, stop)
  | .body frame start _ _ =>
    ∀ p ∈ vars, start.store.lookup (scope.extended frame none) p.id = some (.default p.ty)

variable {H I scope vars test body} {c : LoopControl} {block tree : Expr}

theorem Stage.Happens.eventually {x : Stage σ} (h : x.Happens H I scope vars test body) :
    ∀ᶠ q in atTop, x.MadeBy scope vars (fun inner => eval H q I inner test)
      fun inner => runBody (eval H (q + 2) I inner) body (q + 2) body .void := by
  cases x with
  | test start outcome stop => exact Evaluates.eventually h
  | body frame start outcome stop =>
    obtain ⟨n, k, hrun⟩ := h
    filter_upwards [Filter.eventually_ge_atTop n, Filter.eventually_ge_atTop k] with q hn hk
    exact runBody_mono H I _ (Nat.le_add_right_of_le hn) (Nat.le_add_right_of_le hk) hrun

theorem Stage.MadeBy.happens {q : Nat} {x : Stage σ}
    (h : x.MadeBy scope vars (fun inner => eval H q I inner test)
      fun inner => runBody (eval H (q + 2) I inner) body (q + 2) body .void) :
    x.Happens H I scope vars test body := by
  cases x with
  | test start outcome stop => exact ⟨q, h⟩
  | body frame start outcome stop => exact ⟨q + 2, q + 2, h⟩

theorem eventually_all_staged {stages : List (Stage σ)}
    (h : ∀ x ∈ stages, x.Happens H I scope vars test body) :
    ∀ᶠ q in atTop, ∀ x ∈ stages, x.MadeBy scope vars (fun inner => eval H q I inner test)
      fun inner => runBody (eval H (q + 2) I inner) body (q + 2) body .void :=
  (Filter.eventually_all_finite stages.finite_toSet).mpr fun x hx => (h x hx).eventually

/-- The tree ends as its stages say. -/
theorem WhileTree.evaluates_iff (h : WhileTree test c vars body block tree) (htest : test.JumpFree)
    (hc : body.any (·.marks c.breakLabel) = false) {m m' : Machine σ} {r : Except Exit Value} :
    Evaluates H I scope tree m (r, m') ↔ ∃ stages, Unrolls c m stages r m' ∧
      ∀ x ∈ stages, x.Happens H I scope vars test body := by
  constructor
  · intro hev
    obtain ⟨n, hn, hle⟩ := (hev.eventually.and (Filter.eventually_ge_atTop 4)).exists
    obtain ⟨q, rfl⟩ := Nat.exists_eq_add_of_le' hle
    rw [h.eval_eq htest hc] at hn
    obtain ⟨stages, hunrolls, hmade⟩ := unrolls_of_run hn
    exact ⟨stages, hunrolls, fun x hx => (hmade x hx).happens⟩
  · rintro ⟨stages, hunrolls, hstages⟩
    obtain ⟨q, hmade, hle⟩ :=
      ((eventually_all_staged hstages).and (Filter.eventually_ge_atTop stages.length)).exists
    refine ⟨q + 4, ?_⟩
    show (eval H (q + 4) I scope tree).run m = _
    rw [h.eval_eq htest hc]
    have hself : ∀ x ∈ stages, x.ListedBy scope vars (Stage.asked test block)
        (fun (_ : List Asked) (k : Machine σ) => k) (fun inner => eval H q I inner test)
        fun inner => runBody (eval H (q + 2) I inner) body (q + 2) body .void := by
      intro x hx
      have hx := hmade x hx
      cases x with
      | test start outcome stop => exact fun _ => hx
      | body frame start outcome stop => exact fun _ => hx
    exact hunrolls.run (fun _ _ => rfl) (fun _ _ => rfl) hself (Nat.le_add_right_of_le hle) []

/-- A test and a body that list what they are asked for list the stages. -/
theorem Stage.MadeBy.listed {test' body' : Scope → Run σ Value} {x : Stage σ}
    (h : x.MadeBy scope vars test' body') :
    x.ListedBy scope vars (Stage.asked test block) Machine.listing
      (fun inner => listed (.part test) (test' inner))
      (fun inner => listed (.part block) (body' inner)) := by
  cases x with
  | test start outcome stop => exact listed_run (.part test) h
  | body frame start outcome stop => exact listed_run (.part block) h

/-- A round keeps scopes that exist. -/
theorem round_scopesExist {m m₁ m₂ : Machine σ} {o : Except Exit Value} {t : Except Exit Value}
    (hm : m.ScopesExist) (hs : ∀ link ∈ scope.links, link.frame < m.store.frames.size)
    (htest : (Stage.test m t m₁).Happens H I scope vars test body)
    (hbody : (Stage.body m.store.frames.size m₁ o m₂).Happens H I scope vars test body) :
    m₂.ScopesExist ∧ m.store.frames.size ≤ m₂.store.frames.size := by
  obtain ⟨n, hn⟩ := htest
  have hsize : (m.entering vars).store.frames.size = m.store.frames.size + 1 := Store.size_opened _ _
  have hentering : (m.entering vars).ScopesExist := fun i c hc link hlink => by
    rw [hsize]
    exact Nat.lt_succ_of_lt (hm i c hc link hlink)
  have hinner : ∀ link ∈ (scope.extended m.store.frames.size none).links,
      link.frame < (m.entering vars).store.frames.size := by
    rw [hsize]
    exact List.forall_mem_cons.mpr ⟨Nat.lt_succ_self _, fun link hlink =>
      Nat.lt_succ_of_lt (hs link hlink)⟩
  have hafter := hentering.eval hinner hn
  have hended := BodyEnds.scopesExist hafter.1
    (fun link hlink => Nat.lt_of_lt_of_le (hinner link hlink) hafter.2) hbody
  have hle := Nat.le_trans hafter.2 hended.2
  rw [hsize] at hle
  exact ⟨hended.1, Nat.le_of_succ_le hle⟩

/-- In a run from a machine whose scopes exist, the frames of the rounds make no difference. -/
theorem Unrolls.plain (hvars : ∀ p ∈ vars, ∀ q ∈ vars, p.id = q.id → p = q)
    (hfree : ∀ p ∈ vars, ¬test.Touches p.id) {m m' : Machine σ} {stages : List (Stage σ)}
    {r : Except Exit Value} (h : Unrolls c m stages r m') (hm : m.ScopesExist)
    (hs : ∀ link ∈ scope.links, link.frame < m.store.frames.size)
    (hstages : ∀ x ∈ stages, x.Happens H I scope vars test body) :
    ∀ x ∈ stages, x.Plain H I scope vars test := by
  have hbindings : ∀ b ∈ vars.map fun p => (p, Value.default p.ty), ¬test.Touches b.1.id := by
    intro b hb
    obtain ⟨p, hp, rfl⟩ := List.mem_map.mp hb
    exact hfree p hp
  have htest : ∀ {m m₁ : Machine σ} {o : Except Exit Value}, m.ScopesExist →
      (∀ link ∈ scope.links, link.frame < m.store.frames.size) →
      (Stage.test m o m₁).Happens H I scope vars test body →
      (Stage.test m o m₁).Plain H I scope vars test := by
    intro m m₁ o hm hs hhappens
    obtain ⟨m₀, hwithout, hbeside⟩ := Evaluates.without_frame hm hs hbindings hhappens
    exact ⟨hs, m₀, hwithout, hbeside⟩
  have hbody : ∀ {m m₁ m₂ : Machine σ} {o o' : Except Exit Value},
      (Stage.test m o m₁).Plain H I scope vars test →
      (Stage.body m.store.frames.size m₁ o' m₂).Plain H I scope vars test := by
    rintro m m₁ m₂ o o' ⟨below, m₀, -, hbeside⟩ p hp
    have hframe : m₁.store.frame m.store.frames.size = defaults vars := hbeside.store.extra
    have hdefault : (defaults vars).get? p.id = some (.default p.ty) := by
      refine Frame.get?_setAll_of_agree (fun b hb hid => ?_) (.inr ⟨_, List.mem_map_of_mem hp, rfl⟩)
      obtain ⟨q, hq, rfl⟩ := List.mem_map.mp hb
      rw [hvars q hq p hp hid]
    show List.findSome? _ (⟨m.store.frames.size, none⟩ :: scope.links) = _
    rw [List.findSome?_cons, hframe, hdefault]
  induction h with
  | unwound | untyped | done =>
    exact List.forall_mem_singleton.mpr (htest hm hs (List.forall_mem_singleton.mp hstages))
  | broken | left =>
    rw [List.forall_mem_cons] at hstages
    have hplain := htest hm hs hstages.1
    exact List.forall_mem_cons.mpr ⟨hplain, List.forall_mem_singleton.mpr (hbody hplain)⟩
  | again _ _ ih =>
    rw [List.forall_mem_cons, List.forall_mem_cons] at hstages
    obtain ⟨hfirst, hsecond, hlater⟩ := hstages
    have hplain := htest hm hs hfirst
    -- the scopes of the next round exist again
    have hnext := round_scopesExist hm hs hfirst hsecond
    exact List.forall_mem_cons.mpr ⟨hplain, List.forall_mem_cons.mpr ⟨hbody hplain,
      ih hnext.1 (fun link hlink => Nat.lt_of_lt_of_le (hs link hlink) hnext.2) hlater⟩⟩

end Happening

/-! ## The construction -/

/-- A builder that has been given more calls. -/
def BlockBuilder.Extends (b b' : BlockBuilder) : Prop :=
  ∃ calls : List (At BlockCall), b' = calls.foldl BlockBuilder.take b

theorem acceptedFrom_extends {K : Contract BlockCall BlockEntry} {calls : List (At BlockCall)}
    {kept kept' : List BlockEntry} (h : K.acceptedFrom kept calls = .ok kept') :
    ∃ more, kept' = kept ++ more := by
  induction calls generalizing kept with
  | nil =>
    cases h
    exact ⟨[], (List.append_nil _).symm⟩
  | cons a calls ih =>
    cases hjudge : K.judge kept a with
    | error error => cases (Contract.acceptedFrom_cons_of_error hjudge).symm.trans h
    | ok more =>
      obtain ⟨more', rfl⟩ := ih ((Contract.acceptedFrom_cons_of_ok hjudge).symm.trans h)
      exact ⟨more ++ more', List.append_assoc ..⟩

/-- Without repetition, an identity belongs to one variable. -/
theorem eraseDups_identified {p q : Param} : ∀ {ps : List Param}, p ∈ ps.eraseDups →
    q ∈ ps.eraseDups → p.id = q.id → p = q
  | [], hp, _, _ => nomatch hp
  | a :: ps, hp, hq, hid => by
    have hrest : ∀ {b : Param}, b ∈ (ps.filter fun b => !b == a).eraseDups → b.id ≠ a.id := by
      intro b hb hba
      have htest := (List.mem_filter.mp (mem_of_mem_eraseDups hb)).2
      rw [Param.beq_iff.mpr hba] at htest
      cases htest
    rw [List.eraseDups_cons, List.mem_cons] at hp hq
    rcases hp with rfl | hp <;> rcases hq with rfl | hq
    · rfl
    · exact absurd hid.symm (hrest hq)
    · exact absurd hid (hrest hp)
    · exact eraseDups_identified hp hq hid
termination_by ps => ps.length
decreasing_by exact Nat.lt_succ_of_le (List.length_filter_le ..)

/-- A block that is built from a builder with a statement starts with that statement. -/
theorem BlockBuilder.Extends.build_run {first : Expr} {b : BlockBuilder}
    (h : (({} : BlockBuilder).line first).Extends b) {n n' : Nat} {block : Expr}
    (hbuild : b.build.run n = (.ok block, n')) :
    (∃ id ty body, b.lines = first :: body ∧ block = .mk id (.block b.locals (first :: body)) ty) ∧
      ∀ p ∈ b.locals, ∀ q ∈ b.locals, p.id = q.id → p = q := by
  obtain ⟨calls, rfl⟩ := h
  let all : List (At BlockCall) := ⟨n, .line first⟩ :: calls
  have hafter : calls.foldl BlockBuilder.take (({} : BlockBuilder).line first) =
      (blocks none).after all := rfl
  rw [hafter] at hbuild ⊢
  rcases (blockContract none).accepted_or_rejected all [] with
    ⟨kept, hkept⟩ | ⟨before, c, after, kept, error, hall, hkept, hjudge⟩
  · obtain ⟨more, rfl⟩ : ∃ more, kept = [.stated first] ++ more :=
      acceptedFrom_extends ((Contract.acceptedFrom_cons_of_ok rfl).symm.trans hkept)
    obtain ⟨id, next, hrun⟩ := finish_run none ([.stated first] ++ more) n
    have hfinish : ((blocks none).after all).build = _ :=
      (Fluent.honors (blockLedger none)).all all _ hkept
    rw [hfinish, hrun] at hbuild
    cases hbuild
    rw [(blockLedger none).after_eq hkept]
    exact ⟨⟨_, _, more.filterMap BlockEntry.stated?, rfl, rfl⟩, fun p hp q hq => eraseDups_identified hp hq⟩
  · have hreport : ((blocks none).after (before ++ c :: after)).build = throw error :=
      (Fluent.honors (blockLedger none)).first before kept c error after hkept hjudge
    rw [hall, hreport] at hbuild
    cases hbuild

theorem construction_build_bind {α : Type} (act : Build Expr) (g : Expr → Construction τ α)
    (k : Machine τ) : ((liftM act : Construction τ Expr) >>= g).run k =
      match act.run k.next with
      | (.ok e, n) => (g e).run { k with next := n }
      | (.error error, n) => some (.error error, { k with next := n }) := by
  cases hact : act.run k.next with
  | mk r n =>
    have hmade : Step.make act.run k = some (r, { k with next := n }) := by rw [Step.make, hact]
    refine Eq.trans (b := (Step.make act.run k).bind fun y => ExceptT.bindCont g y.1 y.2) rfl ?_
    rw [hmade]
    cases r <;> rfl

/-- What `whileLoop` makes of a test and of what the callback makes of the block that starts with
the exit. -/
theorem whileLoop_run {test : Expr} {f : LoopControl → BlockBuilder → Construction τ BlockBuilder}
    {k k' : Machine τ} {tree : Expr} (h : (whileLoop test f).run k = some (.ok tree, k')) :
    let c := (LoopControl.make k.next).1
    let exit := (exitUnless test c (k.next + 2)).1
    ∃ b k₂ n n' block loop,
      (f c (({} : BlockBuilder).line exit)).run { k with next := k.next + 6 } = some (.ok b, k₂) ∧
      b.build.run n = (.ok block, n') ∧
      tree = .mk loop (.loop block (some c.breakLabel) (some c.continueLabel)) .void := by
  intro c exit
  have hrun : (whileLoop test f).run k =
      (f c (({} : BlockBuilder).line exit) >>= fun b =>
        (liftM b.build : Construction τ Expr) >>= fun block =>
          liftM (Expr.loop block (some c.breakLabel) (some c.continueLabel)) :
        Construction τ Expr).run { k with next := k.next + 6 } := rfl
  rw [hrun] at h
  obtain ⟨⟨r, k₂⟩, hcallback, hrest⟩ := Option.bind_eq_some_iff.mp h
  cases r with
  | error error => cases hrest
  | ok b =>
    have hrest : ((liftM b.build : Construction τ Expr) >>= fun block =>
        (liftM (Expr.loop block (some c.breakLabel) (some c.continueLabel)) : Construction τ Expr)).run
          k₂ = some (.ok tree, k') := hrest
    rw [construction_build_bind] at hrest
    cases hbuilt : b.build.run k₂.next with
    | mk r' n' =>
      rw [hbuilt] at hrest
      cases r' with
      | error error => cases hrest
      | ok block =>
        cases hrest
        exact ⟨b, k₂, k₂.next, n', block, n', hcallback, hbuilt, rfl⟩

theorem exitUnless_shape (test : Expr) (c : LoopControl) (n : Nat) :
    ExitUnless test c.breakLabel (exitUnless test c n).1 :=
  .mk (n + 3) n (n + 1) (n + 2)

/-- The tree does what `while` does in this scope: with the test, and with a body that declares the
variables. -/
structure MeansWhile (H : Host σ) (I : Interp) (s : Scope) (c : LoopControl) (vars : List Param)
    (test : Expr) (body : List Expr) (block tree : Expr) : Prop where
  /-- It is `while`, round by round. -/
  rounds : ∀ q m, (eval H (q + 4) I s tree).run m =
    (whileRounds s vars (fun inner => eval H q I inner test)
      (fun inner => runBody (eval H (q + 2) I inner) body (q + 2) body .void) c (q + 3)).run m
  /-- It ends exactly as its stages say. -/
  ends_iff : ∀ m r m', Evaluates H I s tree m (r, m') ↔
    ∃ stages, Unrolls c m stages r m' ∧ ∀ x ∈ stages, x.Happens H I s vars test body
  /-- It gives `void`, if it gives a value. -/
  gives_void : ∀ m v m', Evaluates H I s tree m (.ok v, m') → v = .void
  /-- A test that ends in the scope of the loop ends so in the round. -/
  test_ends : ∀ m o m', m.ScopesExist → (∀ link ∈ s.links, link.frame < m.store.frames.size) →
    Evaluates H I s test m (o, m') → ∃ m₁, (Stage.test m o m₁).Happens H I s vars test body
  /-- A test ends as it does in the scope of the loop, and a body starts with its variables at their
  default values. -/
  plain : ∀ m stages r m', Unrolls c m stages r m' →
    (∀ x ∈ stages, x.Happens H I s vars test body) → m.ScopesExist →
    (∀ link ∈ s.links, link.frame < m.store.frames.size) → ∀ x ∈ stages, x.Plain H I s vars test
  /-- Left in a test, it has evaluated one test more than it has entered bodies; left in a body
  after which no round follows, as many. -/
  counts : ∀ (m : Machine σ) stages r m', Unrolls c m stages r m' →
    (∃ start o, stages.getLast? = some (.test start o m') ∧
      stages.countP Stage.isTest = stages.countP Stage.isBody + 1) ∨
    ∃ frame start o, stages.getLast? = some (.body frame start o m') ∧ ¬c.GoesOn o ∧
      stages.countP Stage.isTest = stages.countP Stage.isBody
  /-- A test and a body that list what they are asked for list the stages. -/
  lists : ∀ m stages r m', Unrolls c m stages r m' →
    (∀ x ∈ stages, x.Happens H I s vars test body) →
    ∀ᶠ q in atTop, (whileRounds s vars (fun inner => listed (.part test) (eval H q I inner test))
        (fun inner => listed (.part block)
          (runBody (eval H (q + 2) I inner) body (q + 2) body .void)) c (q + 3)).run (m.listing []) =
      some (r, m'.listing (stages.map (Stage.asked test block)))

theorem WhileTree.means {H : Host σ} {I : Interp} {s : Scope} {c : LoopControl} {vars : List Param}
    {test : Expr} {body : List Expr} {block tree : Expr} (h : WhileTree test c vars body block tree)
    (htest : test.JumpFree) (hc : c.Respected body)
    (hvars : ∀ p ∈ vars, ∀ q ∈ vars, p.id = q.id → p = q) (hfree : ∀ p ∈ vars, ¬test.Touches p.id) :
    MeansWhile H I s c vars test body block tree where
  rounds q m := h.eval_eq htest hc.unmarked q
  ends_iff m r m' := h.evaluates_iff htest hc.unmarked
  gives_void m v m' hends := by
    obtain ⟨stages, hunrolls, hstages⟩ := (h.evaluates_iff htest hc.unmarked).mp hends
    refine hunrolls.gives_void (fun frame start l v stop hx hl => ?_) rfl
    -- a break comes from a jump that carries nothing
    have hbody : BodyEnds H I (s.extended frame none) body body .void start _ := hstages _ hx
    obtain ⟨e, he, g, hg, kind, value, hshape, hnone⟩ := hbody.jump_has_origin fun _ ha => ha
    exact hnone (hc.bare e he g hg kind l value hshape hl)
  test_ends m o m' hm hs hends := by
    have hbindings : ∀ b ∈ vars.map fun p => (p, Value.default p.ty), ¬test.Touches b.1.id := by
      intro b hb
      obtain ⟨p, hp, rfl⟩ := List.mem_map.mp hb
      exact hfree p hp
    obtain ⟨m₁, hinner, -⟩ := hends.with_frame hm hs hbindings
    exact ⟨m₁, hinner⟩
  plain m stages r m' hunrolls hstages hm hs := hunrolls.plain hvars hfree hm hs hstages
  counts m stages r m' hunrolls := hunrolls.counts
  lists m stages r m' hunrolls hstages := by
    filter_upwards [eventually_all_staged hstages, Filter.eventually_ge_atTop stages.length]
      with q hmade hle
    have hlisted : ∀ x ∈ stages, x.ListedBy s vars (Stage.asked test block) Machine.listing _ _ :=
      fun x hx => (hmade x hx).listed
    have hsize : ∀ list (k : Machine σ),
        (Machine.listing list k).store.frames.size = k.store.frames.size := fun _ _ => rfl
    have hentering : ∀ list (k : Machine σ),
        (Machine.listing list k).entering vars = Machine.listing list (k.entering vars) :=
      fun _ _ => rfl
    exact hunrolls.run hsize hentering hlisted (Nat.le_add_right_of_le hle) []

/-- `whileLoop` means `while`. Let the test have no jump in it, and let the callback only extend
the builder that it is given, declare no variable that the test touches, and use the targets of
the loop as it gets them. Then the tree that is made, in every scope and on every machine, runs
the test and the statements that the callback has added in turn, up to a test that is left early,
gives no `bool` or fails, or to a body that breaks out of the loop or is left otherwise. -/
theorem while_means_while {test : Expr}
    {f : LoopControl → BlockBuilder → Construction τ BlockBuilder} {k k' : Machine τ} {tree : Expr}
    (hbuilt : (whileLoop test f).run k = some (.ok tree, k')) (htest : test.JumpFree) :
    let c := (LoopControl.make k.next).1
    let exit := (exitUnless test c (k.next + 2)).1
    ∃ b k₂, (f c (({} : BlockBuilder).line exit)).run { k with next := k.next + 6 } =
        some (.ok b, k₂) ∧
      ((({} : BlockBuilder).line exit).Extends b → (∀ p ∈ b.locals, ¬test.Touches p.id) →
        ∃ body block, b.lines = exit :: body ∧ (c.Respected body →
          ∀ {σ : Type} (H : Host σ) (I : Interp) (s : Scope),
            MeansWhile H I s c b.locals test body block tree)) := by
  intro c exit
  obtain ⟨b, k₂, n, n', block, loop, hcallback, hblock, rfl⟩ := whileLoop_run hbuilt
  refine ⟨b, k₂, hcallback, fun hextends hfree => ?_⟩
  obtain ⟨⟨id, ty, body, hlines, rfl⟩, hvars⟩ := hextends.build_run hblock
  refine ⟨body, .mk id (.block b.locals (exit :: body)) ty, hlines, fun hc σ H I s => ?_⟩
  have htree : WhileTree test c b.locals body (.mk id (.block b.locals (exit :: body)) ty) _ :=
    .mk loop id ty (exitUnless_shape test c (k.next + 2))
  exact htree.means htest hc hvars hfree

namespace Sample

/-- A host whose code holds as often as its state says. -/
def countdown : Host Nat where
  run _ _ _ := .read fun n => match n with
    | 0 => .done (.ok (.bool false))
    | n + 1 => .write n (.done (.ok (.bool true)))
  get _ _ _ := .done (.ok .null)
  invoke _ _ _ _ := .done (.ok .null)

/-- Asks the host. -/
def goOnTest : Expr := .mk 1 (.call none (.static "more" .object [] .bool 0) []) .bool

/-- Continues the loop at once. -/
def continuing (c : LoopControl) (b : BlockBuilder) : Construction Nat BlockBuilder := do
  let next ← (liftM (liftM c.next : Build Expr) : Construction Nat Expr)
  pure (b.line next)

def breakTarget : Label := ⟨2, some "break", .void⟩

def continueTarget : Label := ⟨3, some "continue", .void⟩

/-- The loop that comes of it. -/
def continuingLoop : Expr :=
  .mk 10 (.loop (.mk 9 (.block [] [.mk 7 (.conditional (.mk 4 (.unary .not goOnTest) .bool)
      (.mk 5 (.jump .brk breakTarget none) .void) (.mk 6 .empty .void)) .void,
    .mk 8 (.jump .next continueTarget none) .void]) .void) (some breakTarget) (some continueTarget)) .void

/-- A machine after some rounds. -/
def afterRounds (rounds left : Nat) : Machine Nat := ⟨11, ⟨Array.replicate rounds []⟩, #[], #[], left⟩

/-- The test holds once, and the body continues the loop. -/
def oneRound : List (Stage Nat) :=
  [.test (afterRounds 0 1) (.ok (.bool true)) (afterRounds 1 0),
    .body 0 (afterRounds 1 0) (.error (.jump continueTarget .void)) (afterRounds 1 0),
    .test (afterRounds 1 0) (.ok (.bool false)) (afterRounds 2 0)]

end Sample

open Sample in
theorem countdown_continues_once :
    (whileLoop goOnTest continuing).run (⟨2, .empty, #[], #[], 0⟩ : Machine Nat) =
        some (.ok continuingLoop, afterRounds 0 0) ∧
      Evaluates countdown ⟨0, 8⟩ ⟨[]⟩ continuingLoop (afterRounds 0 1) (.ok .void, afterRounds 2 0) ∧
      oneRound.countP Stage.isTest = oneRound.countP Stage.isBody + 1 := by
  have hbuilt : (whileLoop goOnTest continuing).run (⟨2, .empty, #[], #[], 0⟩ : Machine Nat) =
      some (.ok continuingLoop, afterRounds 0 0) := rfl
  have htest : goOnTest.JumpFree := by
    intro g hg kind l value
    obtain rfl : g = goOnTest := List.mem_singleton.mp hg
    exact nofun
  obtain ⟨b, k₂, hcallback, hmeans⟩ := while_means_while hbuilt htest
  cases hcallback
  obtain ⟨body, block, hlines, hmeans⟩ := hmeans ⟨[⟨9, .line _⟩], rfl⟩ (List.forall_mem_nil _)
  cases hlines
  have hmeans := hmeans ⟨rfl, ?_⟩ countdown ⟨0, 8⟩ ⟨[]⟩
  · have hunrolls : Unrolls ⟨breakTarget, continueTarget⟩ (afterRounds 0 1) oneRound (.ok .void)
        (afterRounds 2 0) := .again ⟨rfl, rfl⟩ .done
    refine ⟨hbuilt, (hmeans.ends_iff _ _ _).mpr ⟨oneRound, hunrolls, ?_⟩, ?_⟩
    · simp only [oneRound, List.forall_mem_cons]
      exact ⟨⟨3, rfl⟩, ⟨3, 3, rfl⟩, ⟨3, rfl⟩, List.forall_mem_nil _⟩
    · exact rfl
  · intro e he g hg kind l value hshape _
    obtain rfl := List.mem_singleton.mp he
    obtain rfl := List.mem_singleton.mp hg
    cases hshape
    rfl

namespace Sample

/-- A machine on which ten identities have been handed out. -/
def beforeLoop : Machine Nat := ⟨10, .empty, #[], #[0], 0⟩

/-- A test that always has one outcome. -/
def constantTest (holds : Bool) : Expr := .mk 0 (.constant (.bool holds)) .bool

/-- Marks the break target in the body, and throws after it. -/
def markingBreak (c : LoopControl) (b : BlockBuilder) : Construction Nat BlockBuilder :=
  pure ((b.line (.mk 1 (.label c.breakLabel none) .void)).line
    (.mk 3 (.throw (some (.mk 2 (.constant (.int 7)) .int))) .void))

/-- Breaks out of the loop with a value. -/
def carryingBreak (c : LoopControl) (b : BlockBuilder) : Construction Nat BlockBuilder :=
  pure (b.line (.mk 2 (.jump .brk c.breakLabel (some (.mk 1 (.constant (.int 5)) .int))) .void))

/-- Calls a lambda that breaks. -/
def enclosedBreak (c : LoopControl) (b : BlockBuilder) : Construction Nat BlockBuilder :=
  pure (b.line (.mk 3 (.invoke (.mk 2 (.lambda [] (.mk 1 (.jump .brk c.breakLabel none) .void))
    (.func [] .void)) []) .void))

end Sample

open Sample in
/-- A loop whose body marks the break target does not end when the test fails: it goes on at the mark.
One whose body breaks with a value gives the value, and one that calls a lambda which breaks ends
with the fault that the call ends with. -/
theorem loop_is_no_while :
    (∃ tree k m, (whileLoop (constantTest false) markingBreak).run beforeLoop = some (.ok tree, k) ∧
      Evaluates countdown ⟨0, 4⟩ ⟨[]⟩ tree beforeLoop (.error (.throw (.int 7)), m)) ∧
    (∃ tree k m, (whileLoop (constantTest true) carryingBreak).run beforeLoop = some (.ok tree, k) ∧
      Evaluates countdown ⟨0, 4⟩ ⟨[]⟩ tree beforeLoop (.ok (.int 5), m)) ∧
    ∃ tree k m, (whileLoop (constantTest true) enclosedBreak).run beforeLoop = some (.ok tree, k) ∧
      Evaluates countdown ⟨0, 4⟩ ⟨[]⟩ tree beforeLoop
        (.error (.fault (.unresolvedLabel "break#10")), m) :=
  ⟨⟨_, _, _, rfl, 8, rfl⟩, ⟨_, _, _, rfl, 8, rfl⟩, ⟨_, _, _, rfl, 8, rfl⟩⟩

end CodeTree
