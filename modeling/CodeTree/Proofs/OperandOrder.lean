import CodeTree.Proofs.Dispatch
import CodeTree.Proofs.Strictness

/-!
# Operands in their order

The evaluation of a strict node is told by the visits of its children. `Values` lists the visits of
trees that give values one after another; a node's `Turns` are the visits of all its children,
followed by its effect, or those of the first ones up to one that leaves early.

* `values_of_run`, `stopped_of_run` — how operands go, whatever evaluates them;
* `turns_iff_run` — operands and what follows them go as some turns say;
* `Turns.listed` — an engine that keeps a list of what it evaluates has listed the children, each
  once and in their order, when the effect begins, or those up to the one that left early.

Main statement: `operands_in_order`.
-/

namespace CodeTree

open Filter (atTop)

variable {σ : Type}

/-! ## Visits one after another -/

/-- Trees are visited one after another, and give values. -/
inductive Values (scope : Scope) :
    List Expr → Machine σ → List (Visit σ) → List Value → Machine σ → Prop
  | nil (m : Machine σ) : Values scope [] m [] [] m
  | cons {e es m v m₁ visits vs m'} (rest : Values scope es m₁ visits vs m') :
      Values scope (e :: es) m (⟨scope, e, m, .ok v, m₁⟩ :: visits) (v :: vs) m'

/-- How a node goes that has these children and whose effect on their values is given. -/
inductive Turns (scope : Scope) (children : List Expr)
    (effect : List Value → Machine σ → Except Exit Value × Machine σ → Prop) :
    Machine σ → List (Visit σ) → Except Exit Value → Machine σ → Prop
  /-- All children give values, and the effect comes after that. -/
  | completed {m visits vs m₁ r m'} (hall : Values scope children m visits vs m₁)
      (heffect : effect vs m₁ (r, m')) : Turns scope children effect m visits r m'
  /-- A child leaves early. No later one is visited, and nothing else happens. -/
  | stopped {before c after m visits vs m₁ exit m'} (hsplit : children = before ++ c :: after)
      (hbefore : Values scope before m visits vs m₁) :
      Turns scope children effect m (visits ++ [⟨scope, c, m₁, .error exit, m'⟩]) (.error exit) m'

section Runs

variable {scope : Scope} {ev : Scope → Expr → Run σ Value} {es : List Expr}
variable {m m' : Machine σ} {visits : List (Visit σ)} {vs : List Value}

theorem values_of_run (hrun : (evalAll (ev scope) es).run m = some (.ok vs, m')) :
    ∃ visits, Values scope es m visits vs m' ∧ ∀ x ∈ visits, x.MadeBy ev := by
  induction es generalizing m vs with
  | nil =>
    cases hrun
    exact ⟨[], .nil _, List.forall_mem_nil _⟩
  | cons e es ih =>
    rw [evalAll] at hrun
    obtain ⟨v, m₁, hfirst, hrun⟩ := ok_of_run_bind hrun
    obtain ⟨vs', m₂, hrest, hpure⟩ := ok_of_run_bind hrun
    cases hpure
    obtain ⟨visits, hvalues, hmade⟩ := ih hrest
    exact ⟨_, .cons hvalues, List.forall_mem_cons.mpr ⟨hfirst, hmade⟩⟩

/-- Operands that have left early have done so at one of them, after the values of those before. -/
theorem stopped_of_run {exit : Exit}
    (hrun : (evalAll (ev scope) es).run m = some (.error exit, m')) :
    ∃ before c after visits vs m₁, es = before ++ c :: after ∧ Values scope before m visits vs m₁ ∧
      ∀ x ∈ visits ++ [⟨scope, c, m₁, .error exit, m'⟩], x.MadeBy ev := by
  induction es generalizing m with
  | nil => cases hrun
  | cons e es ih =>
    rw [evalAll, run_bind] at hrun
    obtain ⟨⟨o, m₁⟩, hfirst, hrun⟩ := Option.bind_eq_some_iff.mp hrun
    cases o with
    | error exit' =>
      cases hrun
      exact ⟨[], e, es, [], [], m, rfl, .nil m, List.forall_mem_singleton.mpr hfirst⟩
    | ok v =>
      have hrest : (evalAll (ev scope) es).run m₁ = some (.error exit, m') := by
        change (evalAll (ev scope) es >>= fun vs => pure (v :: vs)).run m₁ = _ at hrun
        rw [run_bind] at hrun
        obtain ⟨⟨o, m₂⟩, hrest, hrun⟩ := Option.bind_eq_some_iff.mp hrun
        cases o with
        | error exit' =>
          cases hrun
          exact hrest
        | ok vs => cases hrun
      obtain ⟨before, c, after, visits, vs, m₂, rfl, hvalues, hmade⟩ := ih hrest
      exact ⟨e :: before, c, after, _, v :: vs, m₂, rfl, .cons hvalues,
        List.forall_mem_cons.mpr ⟨hfirst, hmade⟩⟩

theorem Values.run (hvalues : Values scope es m visits vs m') (hmade : ∀ x ∈ visits, x.MadeBy ev) :
    (evalAll (ev scope) es).run m = some (.ok vs, m') := by
  induction hvalues with
  | nil m => rfl
  | @cons e es m v m₁ visits vs m' _ ih =>
    rw [List.forall_mem_cons] at hmade
    have hfirst : (ev scope e).run m = some (.ok v, m₁) := hmade.1
    rw [evalAll, run_bind_of_ok hfirst, run_bind_of_ok (ih hmade.2)]
    rfl

theorem evalAll_append (ev : Expr → Run σ Value) (es after : List Expr) :
    evalAll ev (es ++ after) =
      evalAll ev es >>= fun vs => evalAll ev after >>= fun ws => pure (vs ++ ws) := by
  induction es with
  | nil => simp [evalAll]
  | cons e es ih => simp [evalAll, ih]

/-- Operands and what follows them go as some turns say, which the evaluator takes. -/
theorem turns_iff_run {k : List Value → Run σ Value} {r : Except Exit Value} :
    (evalAll (ev scope) es >>= k).run m = some (r, m') ↔
      ∃ visits, Turns scope es (fun vs m₁ y => (k vs).run m₁ = some y) m visits r m' ∧
        ∀ x ∈ visits, x.MadeBy ev := by
  constructor
  · intro hrun
    rw [run_bind] at hrun
    obtain ⟨⟨o, m₁⟩, hall, hrun⟩ := Option.bind_eq_some_iff.mp hrun
    cases o with
    | ok vs =>
      obtain ⟨visits, hvalues, hmade⟩ := values_of_run hall
      exact ⟨visits, .completed hvalues hrun, hmade⟩
    | error exit =>
      cases hrun
      obtain ⟨before, c, after, visits, vs, m₁, hsplit, hvalues, hmade⟩ := stopped_of_run hall
      exact ⟨_, .stopped hsplit hvalues, hmade⟩
  · rintro ⟨visits, hturns, hmade⟩
    cases hturns with
    | completed hvalues heffect => exact (run_bind_of_ok (hvalues.run hmade)).trans heffect
    | stopped hsplit hvalues =>
      rw [List.forall_mem_append, List.forall_mem_singleton] at hmade
      rw [hsplit, evalAll_append]
      refine run_bind_of_error ((run_bind_of_ok (hvalues.run hmade.1)).trans ?_)
      exact run_bind_of_error (run_bind_of_error hmade.2)

end Runs

/-! ## Lists of what is evaluated -/

/-- An engine keeps a list of what it is asked to evaluate in this scope. -/
def Engine.Lists (E : Engine σ) (I : Interp) (scope : Scope) (list : Machine σ → List Expr) :
    Prop :=
  ∀ e m r m', (E.eval I scope e).run m = some (r, m') → list m' = list m ++ [e]

section Lists

variable {E : Engine σ} {I : Interp} {scope : Scope} {list : Machine σ → List Expr}
variable {es : List Expr} {m m' : Machine σ} {visits : List (Visit σ)} {vs : List Value}

theorem Values.listed (hlists : E.Lists I scope list) (hvalues : Values scope es m visits vs m')
    (hmade : ∀ x ∈ visits, x.MadeBy (E.eval I)) : list m' = list m ++ es := by
  induction hvalues with
  | nil m => exact (List.append_nil _).symm
  | @cons e es m v m₁ visits vs m' _ ih =>
    rw [List.forall_mem_cons] at hmade
    rw [ih hmade.2, hlists e m _ m₁ hmade.1, List.append_assoc, List.singleton_append]

/-- When the effect begins, all children are on the list; an exit of a child is the outcome, and
only the children before it are on the list with it. -/
theorem Turns.listed {effect : List Value → Machine σ → Except Exit Value × Machine σ → Prop}
    {r : Except Exit Value} (hlists : E.Lists I scope list)
    (hturns : Turns scope es effect m visits r m') (hmade : ∀ x ∈ visits, x.MadeBy (E.eval I)) :
    (∃ vs m₁, list m₁ = list m ++ es ∧ effect vs m₁ (r, m')) ∨
      ∃ before c after exit, es = before ++ c :: after ∧ r = .error exit ∧
        list m' = list m ++ (before ++ [c]) := by
  cases hturns with
  | completed hvalues heffect => exact .inl ⟨_, _, hvalues.listed hlists hmade, heffect⟩
  | @stopped before c after m visits vs m₁ exit m' hsplit hvalues =>
    rw [List.forall_mem_append, List.forall_mem_singleton] at hmade
    refine .inr ⟨before, c, after, exit, hsplit, rfl, ?_⟩
    rw [hlists c m₁ _ m' hmade.2, hvalues.listed hlists hmade.1, List.append_assoc]

end Lists

/-! ## Strict nodes -/

/-- How the operands of a strict node go. It ends exactly as some turns of its children say whose
visits happen: the children are visited one after another, in the order in which they are listed,
each once, and on the machine that the one before has left; if all give values, its effect on these
values ends it, and if one leaves early, the node does so with the same exit, no later child is
visited, and the effect does not come about.

Nothing else is evaluated. The effect is told without the children, and has an engine that evaluates
nothing. And whatever engine evaluates the children, the node goes by such turns; so an engine that
keeps a list of what it evaluates has put the children on it when the effect begins, or those up to
the one that leaves early. -/
theorem operands_in_order (H : Host σ) (I : Interp) (scope : Scope) (e : Expr)
    (hstrict : e.shape.isStrict = true) (m : Machine σ) (r : Except Exit Value) (m' : Machine σ) :
    (Evaluates H I scope e m (r, m') ↔
      ∃ visits, Turns scope e.children (TakesEffect H scope e) m visits r m' ∧
        ∀ x ∈ visits, x.Happens H I) ∧
    ∀ E : Engine σ,
      ((evalNode H E I scope e).run m = some (r, m') ↔
        ∃ visits, Turns scope e.children
            (fun vs m₁ y => (takeEffect H E.muted scope e.ty e.bare vs).run m₁ = some y)
            m visits r m' ∧
          ∀ x ∈ visits, x.MadeBy (E.eval I)) ∧
      ∀ list, E.Lists I scope list → (evalNode H E I scope e).run m = some (r, m') →
        (∃ vs m₁, list m₁ = list m ++ e.children ∧
          (takeEffect H E.muted scope e.ty e.bare vs).run m₁ = some (r, m')) ∨
        ∃ before c after exit, e.children = before ++ c :: after ∧ r = .error exit ∧
          list m' = list m ++ (before ++ [c]) := by
  have hturns : ∀ E : Engine σ, (evalNode H E I scope e).run m = some (r, m') ↔
      ∃ visits, Turns scope e.children
          (fun vs m₁ y => (takeEffect H E.muted scope e.ty e.bare vs).run m₁ = some y)
          m visits r m' ∧
        ∀ x ∈ visits, x.MadeBy (E.eval I) := by
    intro E
    rw [evalNode_of_isStrict H E I scope hstrict]
    exact turns_iff_run
  refine ⟨⟨fun h => ?_, fun h => ?_⟩, fun E => ⟨hturns E, fun list hlists hrun => ?_⟩⟩
  · obtain ⟨n, hn⟩ := evaluates_iff.mp h
    obtain ⟨visits, hn, hmade⟩ := (hturns _).mp hn
    refine ⟨visits, ?_, fun x hx => ⟨n, hmade x hx⟩⟩
    cases hn with
    | completed hvalues heffect => exact .completed hvalues ⟨n, heffect⟩
    | stopped hsplit hvalues => exact .stopped hsplit hvalues
  · obtain ⟨visits, hvisits, hhappens⟩ := h
    refine evaluates_iff.mpr ?_
    cases hvisits with
    | completed hvalues heffect =>
      have heffect := Ends.eventually (grows_takeEffect H scope e.ty e.bare _) heffect
      obtain ⟨n, hmade, heffect⟩ := ((eventually_made hhappens).and heffect).exists
      exact ⟨n, (hturns _).mpr ⟨visits, .completed hvalues heffect, hmade⟩⟩
    | stopped hsplit hvalues =>
      obtain ⟨n, hmade⟩ := (eventually_made hhappens).exists
      exact ⟨n, (hturns _).mpr ⟨_, .stopped hsplit hvalues, hmade⟩⟩
  · obtain ⟨visits, hvisits, hmade⟩ := (hturns E).mp hrun
    exact hvisits.listed hlists hmade

namespace Sample

/-- A variable. -/
def score : Param := ⟨4, some "score", .int⟩

/-- Sets the variable to 5. -/
def setScore : Expr := .mk 61 (.assign score (.mk 60 (.constant (.int 5)) .int)) .int

def readScore : Expr := .mk 62 (.parameter score) .int

/-- Its second operand reads what the first one has assigned. -/
def scoreSum : Expr := .mk 63 (.binary .add setScore readScore) .int

/-- The second of three items throws. -/
def haltedItems : Expr :=
  .mk 66 (.newArray .object [note 64 1, throwsOops, note 65 2]) (.array .object)

/-- A machine on which the variable has a value. -/
def scored (n : Int64) : Machine (List CodeId) := ⟨70, ⟨#[[(4, .int n)]]⟩, #[], #[1], []⟩

end Sample

open Sample in
/-- The sum is that of the new value with itself; of the items after the one that throws, none is
evaluated, and no array is made. -/
theorem operands_of_samples :
    scoreSum.shape.isStrict = true ∧ haltedItems.shape.isStrict = true ∧
      Evaluates noting ⟨0, 8⟩ ⟨[⟨0, none⟩]⟩ scoreSum (scored 1) (.ok (.int 10), scored 5) ∧
      Evaluates noting ⟨0, 8⟩ ⟨[]⟩ haltedItems (framesOpened 0 [])
        (.error (.throw oops), framesOpened 0 [1]) := by
  have hsum := operands_in_order noting ⟨0, 8⟩ ⟨[⟨0, none⟩]⟩ scoreSum rfl (scored 1)
    (.ok (.int 10)) (scored 5)
  have hitems := operands_in_order noting ⟨0, 8⟩ ⟨[]⟩ haltedItems rfl (framesOpened 0 [])
    (.error (.throw oops)) (framesOpened 0 [1])
  refine ⟨rfl, rfl, hsum.1.mpr ?_, hitems.1.mpr ?_⟩
  · have hvalues : Values ⟨[⟨0, none⟩]⟩ scoreSum.children (scored 1)
        [⟨⟨[⟨0, none⟩]⟩, setScore, scored 1, .ok (.int 5), scored 5⟩,
          ⟨⟨[⟨0, none⟩]⟩, readScore, scored 5, .ok (.int 5), scored 5⟩]
        [.int 5, .int 5] (scored 5) := .cons (.cons (.nil _))
    refine ⟨_, .completed hvalues ⟨0, rfl⟩, ?_⟩
    simp only [List.forall_mem_cons]
    exact ⟨⟨3, rfl⟩, ⟨3, rfl⟩, List.forall_mem_nil _⟩
  · have hbefore : Values ⟨[]⟩ [note 64 1] (framesOpened 0 [])
        [⟨⟨[]⟩, note 64 1, framesOpened 0 [], .ok .void, framesOpened 0 [1]⟩] [.void]
        (framesOpened 0 [1]) := .cons (.nil _)
    have hsplit : haltedItems.children = [note 64 1] ++ throwsOops :: [note 65 2] := rfl
    refine ⟨_, .stopped hsplit hbefore, ?_⟩
    simp only [List.forall_mem_append, List.forall_mem_singleton]
    exact ⟨⟨3, rfl⟩, ⟨3, rfl⟩⟩

end CodeTree
