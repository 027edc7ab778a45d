import CodeTree.Proofs.Unwinding
import Mathlib.Order.Filter.Finite

/-!
# What a guarded region evaluates

The evaluation of a part is a `Visit`: the scope and the machine it starts with, and what it ends
with. A guarded region is told by the list of its visits, in their order.

* `Passed` — catch clauses that let an exception go by. A clause for another type is not visited; the
  filter of any other is visited once and refuses (`Refuses`);
* `Handled` — the first clause that does not let it go by takes it, and no clause after that is
  visited; a fault in a filter ends the search;
* `Guards` — the body, and the clauses if it throws; `Course` — the last part after all of that.

A course says what was visited and not only what came out of it: an evaluator that takes down
what it is asked for (`logged`) takes down the visits of the course, each once.

Main statement: `guarded_dispatches`.
-/

namespace CodeTree

open Filter (atTop)

variable {σ : Type}

/-! ## Visits -/

/-- The evaluation of a part: in which scope, on which machine, and what it ends with. -/
structure Visit (σ : Type) where
  scope : Scope
  tree : Expr
  start : Machine σ
  outcome : Except Exit Value
  stop : Machine σ

namespace Visit

/-- What a visit asks for. -/
def part (x : Visit σ) : Scope × Expr := (x.scope, x.tree)

/-- The evaluator does what the visit says. -/
def MadeBy (ev : Scope → Expr → Run σ Value) (x : Visit σ) : Prop :=
  (ev x.scope x.tree).run x.start = some (x.outcome, x.stop)

end Visit

/-- What counts as `false` when a filter ends with it: a thrown value, a jump, and every value but
`true`. -/
def Refuses : Except Exit Value → Prop
  | .ok (.bool b) => b = false
  | .error (.fault _) => False
  | _ => True

section Courses

variable (scope : Scope) (exception : Value) (thrownTy : Ty)

/-- Clauses that let an exception of type `thrownTy` go by, one after another. -/
inductive Passed : List (Handler Expr) → Machine σ → List (Visit σ) → Machine σ → Prop
  | nil (m : Machine σ) : Passed [] m [] m
  | other {h hs m visits m'} (hty : h.exceptionTy.isAssignableFrom thrownTy = false)
      (rest : Passed hs m visits m') : Passed (h :: hs) m visits m'
  | refused {h hs m filter r m₁ visits m'} (hty : h.exceptionTy.isAssignableFrom thrownTy = true)
      (hfilter : h.filter = some filter) (hr : Refuses r) (rest : Passed hs m₁ visits m') :
      Passed (h :: hs) m
        (⟨m.catching scope exception, filter, m.caught h exception, r, m₁⟩ :: visits) m'

/-- A clause has no filter, or its filter gives `true`. -/
inductive Accepted (h : Handler Expr) : Machine σ → List (Visit σ) → Machine σ → Prop
  | unfiltered {m} (hfilter : h.filter = none) : Accepted h m [] (m.caught h exception)
  | filtered {m filter m'} (hfilter : h.filter = some filter) :
      Accepted h m
        [⟨m.catching scope exception, filter, m.caught h exception, .ok (.bool true), m'⟩] m'

/-- What clauses make of an exception. -/
inductive Handled (handlers : List (Handler Expr)) :
    Machine σ → List (Visit σ) → Except Exit Value → Machine σ → Prop
  /-- The first clause that accepts it takes it. What its body ends with stands, also when it is
  another exception. -/
  | taken {before h after m visits m₁ visits' m₂ r m'} (hsplit : handlers = before ++ h :: after)
      (hbefore : Passed scope exception thrownTy before m visits m₁)
      (hty : h.exceptionTy.isAssignableFrom thrownTy = true)
      (haccepted : Accepted scope exception h m₁ visits' m₂) :
      Handled handlers m
        (visits ++ visits' ++ [⟨m₁.catching scope exception, h.body, m₂, r, m'⟩]) r m'
  /-- A filter ends in a fault. -/
  | faulted {before h after m visits m₁ filter f m'} (hsplit : handlers = before ++ h :: after)
      (hbefore : Passed scope exception thrownTy before m visits m₁)
      (hty : h.exceptionTy.isAssignableFrom thrownTy = true) (hfilter : h.filter = some filter) :
      Handled handlers m
        (visits ++ [⟨m₁.catching scope exception, filter, m₁.caught h exception,
          .error (.fault f), m'⟩])
        (.error (.fault f)) m'
  | uncaught {m visits m'} (h : Passed scope exception thrownTy handlers m visits m') :
      Handled handlers m visits (.error (.throw exception)) m'

end Courses

section Courses

variable (scope : Scope) (body : Expr) (handlers : List (Handler Expr))

/-- A region without its last part. The clauses are offered what the body throws, unless that is
`null`, and nothing else. -/
inductive Guards : Machine σ → List (Visit σ) → Except Exit Value → Machine σ → Prop
  | unoffered {m r m'} (hr : ∀ v, r = .error (.throw v) → v.runtimeTy? = none) :
      Guards m [⟨scope, body, m, r, m'⟩] r m'
  | offered {m v thrownTy m₁ visits r m'} (hty : v.runtimeTy? = some thrownTy)
      (h : Handled scope v thrownTy handlers m₁ visits r m') :
      Guards m (⟨scope, body, m, .error (.throw v), m₁⟩ :: visits) r m'

/-- A region of type `ty`. Its last part is visited after all the rest, whatever that came to; unless
it leaves early itself, what the rest came to stands. -/
inductive Course (ty : Ty) :
    Option Expr → Machine σ → List (Visit σ) → Except Exit Value → Machine σ → Prop
  | bare {m visits r m'} (h : Guards scope body handlers m visits r m') :
      Course ty none m visits (r.map (settle ty)) m'
  | kept {last m visits r m₁ v m'} (h : Guards scope body handlers m visits r m₁) :
      Course ty (some last) m (visits ++ [⟨scope, last, m₁, .ok v, m'⟩]) (r.map (settle ty)) m'
  | replaced {last m visits r m₁ exit m'} (h : Guards scope body handlers m visits r m₁) :
      Course ty (some last) m (visits ++ [⟨scope, last, m₁, .error exit, m'⟩]) (.error exit) m'

end Courses

/-! ## Clauses one by one -/

section Clauses

variable {scope : Scope} {exception : Value} {thrownTy : Ty} {h : Handler Expr}
variable {hs : List (Handler Expr)} {m : Machine σ}

namespace Handled

variable {visits : List (Visit σ)} {r : Except Exit Value} {m' : Machine σ}

/-- A clause for another type in front changes nothing. -/
theorem other (hty : h.exceptionTy.isAssignableFrom thrownTy = false)
    (later : Handled scope exception thrownTy hs m visits r m') :
    Handled scope exception thrownTy (h :: hs) m visits r m' := by
  rcases later with ⟨rfl, hbefore, htaken, haccepted⟩ | ⟨rfl, hbefore, htaken, hfilter⟩ | hall
  · exact .taken rfl (.other hty hbefore) htaken haccepted
  · exact .faulted rfl (.other hty hbefore) htaken hfilter
  · exact .uncaught (.other hty hall)

/-- A clause in front whose filter refuses is visited first. -/
theorem refused {filter : Expr} {r₁ : Except Exit Value} {m₁ : Machine σ}
    (hty : h.exceptionTy.isAssignableFrom thrownTy = true) (hfilter : h.filter = some filter)
    (hr : Refuses r₁) (later : Handled scope exception thrownTy hs m₁ visits r m') :
    Handled scope exception thrownTy (h :: hs) m
      (⟨m.catching scope exception, filter, m.caught h exception, r₁, m₁⟩ :: visits) r m' := by
  rcases later with ⟨rfl, hbefore, htaken, haccepted⟩ | ⟨rfl, hbefore, htaken, hfault⟩ | hall
  · exact .taken rfl (.refused hty hfilter hr hbefore) htaken haccepted
  · exact .faulted rfl (.refused hty hfilter hr hbefore) htaken hfault
  · exact .uncaught (.refused hty hfilter hr hall)

end Handled

/-- A clause of the right type first asks its filter, in a scope of its own. -/
theorem runHandlers_of_matches (ev : Scope → Expr → Run σ Value)
    (hty : h.exceptionTy.isAssignableFrom thrownTy = true) :
    (runHandlers ev scope exception thrownTy (h :: hs)).run m =
      (filterAccepts (ev (m.catching scope exception)) h.filter >>= fun accepted =>
        if accepted then ev (m.catching scope exception) h.body
        else runHandlers ev scope exception thrownTy hs).run (m.caught h exception) := by
  rw [runHandlers, if_pos hty]
  exact Lockstep.opening_run scope (some exception) _ _ m

theorem runHandlers_of_other (ev : Scope → Expr → Run σ Value)
    (hty : h.exceptionTy.isAssignableFrom thrownTy = false) :
    runHandlers ev scope exception thrownTy (h :: hs) =
      runHandlers ev scope exception thrownTy hs := by
  rw [runHandlers, hty]
  rfl

/-- What a filter makes of what it ends with. -/
def judged : Except Exit Value → Except Exit Bool
  | .ok (.bool b) => .ok b
  | .error (.fault f) => .error (.fault f)
  | _ => .ok false

theorem judged_of_refuses {r : Except Exit Value} (hr : Refuses r) : judged r = .ok false := by
  unfold Refuses at hr
  unfold judged
  split at hr
  · rw [hr]
  · exact absurd hr id
  · rfl

/-- A filter gives `true`, ends in a fault, or refuses. -/
theorem judged_cases (r : Except Exit Value) :
    r = .ok (.bool true) ∨ (∃ f, r = .error (.fault f)) ∨ Refuses r := by
  rcases r with exit | v
  · cases exit with
    | fault f => exact .inr (.inl ⟨f, rfl⟩)
    | throw v => exact .inr (.inr trivial)
    | jump l v => exact .inr (.inr trivial)
  · cases v with
    | bool b =>
      cases b with
      | true => exact .inl rfl
      | false => exact .inr (.inr rfl)
    | _ => exact .inr (.inr trivial)

theorem filterAccepts_run (ev : Expr → Run σ Value) (filter : Expr) (m : Machine σ) :
    (filterAccepts ev (some filter)).run m =
      ((ev filter).run m).map fun y => (judged y.1, y.2) := by
  rw [filterAccepts, run_held_bind, Option.map_eq_bind]
  congr 1
  funext y
  obtain ⟨r, k⟩ := y
  rcases r with exit | v
  · cases exit <;> rfl
  · cases v <;> rfl

/-- What clauses make of an exception is told by visits that the evaluator makes. -/
theorem handled_of_run {ev : Scope → Expr → Run σ Value} {r : Except Exit Value} {m' : Machine σ}
    (hrun : (runHandlers ev scope exception thrownTy hs).run m = some (r, m')) :
    ∃ visits, Handled scope exception thrownTy hs m visits r m' ∧ ∀ x ∈ visits, x.MadeBy ev := by
  induction hs generalizing m with
  | nil =>
    cases hrun
    exact ⟨[], .uncaught (.nil _), List.forall_mem_nil _⟩
  | cons h hs ih =>
    by_cases hty : h.exceptionTy.isAssignableFrom thrownTy = true
    · rw [runHandlers_of_matches ev hty] at hrun
      have hfirst : h :: hs = [] ++ h :: hs := rfl
      cases hfilter : h.filter with
      | none =>
        rw [hfilter] at hrun
        exact ⟨_, .taken hfirst (.nil m) hty (.unfiltered hfilter),
          List.forall_mem_singleton.mpr hrun⟩
      | some filter =>
        rw [hfilter, run_bind, filterAccepts_run] at hrun
        obtain ⟨⟨o, m₁⟩, hasked, hrun⟩ := Option.bind_eq_some_iff.mp hrun
        obtain ⟨⟨r₁, m₂⟩, hvisit, heq⟩ := Option.map_eq_some_iff.mp hasked
        cases heq
        rcases judged_cases r₁ with rfl | ⟨f, rfl⟩ | hr
        · have haccepted : Accepted scope exception h m [⟨m.catching scope exception, filter,
              m.caught h exception, .ok (.bool true), m₂⟩] m₂ := .filtered hfilter
          refine ⟨_, .taken hfirst (.nil m) hty haccepted, ?_⟩
          exact List.forall_mem_cons.mpr ⟨hvisit, List.forall_mem_singleton.mpr hrun⟩
        · cases hrun
          exact ⟨_, .faulted hfirst (.nil m) hty hfilter, List.forall_mem_singleton.mpr hvisit⟩
        · rw [judged_of_refuses hr] at hrun
          obtain ⟨visits, hlater, hmade⟩ := ih hrun
          exact ⟨_, hlater.refused hty hfilter hr, List.forall_mem_cons.mpr ⟨hvisit, hmade⟩⟩
    · have hty := Bool.eq_false_iff.mpr hty
      rw [runHandlers_of_other ev hty] at hrun
      obtain ⟨visits, hlater, hmade⟩ := ih hrun
      exact ⟨visits, hlater.other hty, hmade⟩

end Clauses

/-! ## Whole regions -/

section Regions

variable {scope : Scope} {body : Expr} {handlers : List (Handler Expr)} {ty : Ty}
variable {cleanup : Option Expr} {m m' : Machine σ} {r : Except Exit Value}

theorem guards_of_run {ev : Scope → Expr → Run σ Value}
    (hrun : (regionOutcome ev scope body handlers).run m = some (.ok r, m')) :
    ∃ visits, Guards scope body handlers m visits r m' ∧ ∀ x ∈ visits, x.MadeBy ev := by
  unfold regionOutcome at hrun
  rw [run_held_bind] at hrun
  obtain ⟨⟨r₁, m₁⟩, hbody, hrun⟩ := Option.bind_eq_some_iff.mp hrun
  -- what is offered to no clause stands
  have hunoffered : (∀ v, r₁ = .error (.throw v) → v.runtimeTy? = none) →
      some ((Except.ok r₁ : Except Exit _), m₁) = some (Except.ok r, m') →
      ∃ visits, Guards scope body handlers m visits r m' ∧ ∀ x ∈ visits, x.MadeBy ev := by
    intro hr heq
    cases heq
    exact ⟨_, .unoffered hr, List.forall_mem_singleton.mpr hbody⟩
  rcases r₁ with exit | v
  · cases exit with
    | throw v =>
      dsimp only at hrun
      cases hty : v.runtimeTy? with
      | none =>
        rw [hty] at hrun
        exact hunoffered (fun w hw => by cases hw; exact hty) hrun
      | some thrownTy =>
        rw [hty] at hrun
        dsimp only at hrun
        obtain ⟨⟨r₂, m₂⟩, hclauses, heq⟩ := Option.bind_eq_some_iff.mp hrun
        cases heq
        obtain ⟨visits, hhandled, hmade⟩ := handled_of_run hclauses
        exact ⟨_, .offered hty hhandled, List.forall_mem_cons.mpr ⟨hbody, hmade⟩⟩
    | jump l v => exact hunoffered (fun w hw => by cases hw) hrun
    | fault f => exact hunoffered (fun w hw => by cases hw) hrun
  · exact hunoffered (fun w hw => by cases hw) hrun

/-- Whatever a region ends with, there is a course to it that the evaluator takes. -/
theorem course_of_run {ev : Scope → Expr → Run σ Value}
    (hrun : (evalGuarded ev scope ty body handlers cleanup).run m = some (r, m')) :
    ∃ visits, Course scope body handlers ty cleanup m visits r m' ∧
      ∀ x ∈ visits, x.MadeBy ev := by
  rw [evalGuarded_eq, run_bind] at hrun
  obtain ⟨⟨o, m₁⟩, hregion, hrun⟩ := Option.bind_eq_some_iff.mp hrun
  obtain ⟨r₁, rfl⟩ := regionOutcome_ok hregion
  obtain ⟨visits, hguards, hmade⟩ := guards_of_run hregion
  cases cleanup with
  | none =>
    have heq : (r, m') = (r₁.map (settle ty), m₁) := by
      cases r₁ <;> exact (Option.some.inj hrun).symm
    cases heq
    exact ⟨visits, .bare hguards, hmade⟩
  | some last =>
    replace hrun : (ev scope last >>= fun _ => Run.resume r₁ >>= fun v =>
      pure (settle ty v)).run m₁ = some (r, m') := hrun
    rw [run_bind] at hrun
    obtain ⟨⟨o, m₂⟩, hlast, hrun⟩ := Option.bind_eq_some_iff.mp hrun
    have hall : ∀ x ∈ visits ++ [⟨scope, last, m₁, o, m₂⟩], x.MadeBy ev :=
      List.forall_mem_append.mpr ⟨hmade, List.forall_mem_singleton.mpr hlast⟩
    cases o with
    | error exit =>
      cases hrun
      exact ⟨_, .replaced hguards, hall⟩
    | ok v =>
      have heq : (r, m') = (r₁.map (settle ty), m₂) := by
        cases r₁ <;> exact (Option.some.inj hrun).symm
      cases heq
      exact ⟨_, .kept hguards, hall⟩

end Regions

/-! ## From a course back to its evaluation -/

section Logs

variable {τ : Type}

/-- A machine that also carries a list of what has been asked for, on which nothing else depends. -/
structure Transparent (note : List (Scope × Expr) → Machine σ → Machine τ) : Prop where
  catching : ∀ log m scope v, (note log m).catching scope v = m.catching scope v
  caught : ∀ log m h v, (note log m).caught h v = note log (m.caught h v)

/-- An evaluator on such machines does what a visit says and puts it on the list. -/
def Visit.LoggedBy (note : List (Scope × Expr) → Machine σ → Machine τ)
    (ev : Scope → Expr → Run τ Value) (x : Visit σ) : Prop :=
  ∀ log, (ev x.scope x.tree).run (note log x.start) =
    some (x.outcome, note (log ++ [x.part]) x.stop)

variable {note : List (Scope × Expr) → Machine σ → Machine τ} {ev : Scope → Expr → Run τ Value}
variable {scope : Scope} {exception : Value} {thrownTy : Ty} {h : Handler Expr}
variable {m m' : Machine σ} {visits : List (Visit σ)} {r : Except Exit Value}

/-- Clauses that let an exception go by leave it to those after them. -/
theorem Passed.run (hnote : Transparent note) {before after : List (Handler Expr)}
    (hpassed : Passed scope exception thrownTy before m visits m')
    (hlogged : ∀ x ∈ visits, x.LoggedBy note ev) (log : List (Scope × Expr)) :
    (runHandlers ev scope exception thrownTy (before ++ after)).run (note log m) =
      (runHandlers ev scope exception thrownTy after).run
        (note (log ++ visits.map Visit.part) m') := by
  induction hpassed generalizing log with
  | nil m => rw [List.map_nil, List.append_nil, List.nil_append]
  | other hty _ ih =>
    rw [List.cons_append, runHandlers_of_other ev hty]
    exact ih hlogged log
  | @refused h hs m filter r₁ m₁ visits m' hty hfilter hr _ ih =>
    rw [List.forall_mem_cons] at hlogged
    have hfirst : (ev (m.catching scope exception) filter).run (note log (m.caught h exception)) =
        some (r₁, note (log ++ [(m.catching scope exception, filter)]) m₁) := hlogged.1 log
    rw [List.cons_append, runHandlers_of_matches ev hty, hnote.catching, hnote.caught, hfilter,
      run_bind, filterAccepts_run, hfirst, Option.map_some, Option.bind_some, judged_of_refuses hr]
    have hlater := ih hlogged.2 (log ++ [(m.catching scope exception, filter)])
    rw [List.append_assoc] at hlater
    exact hlater

/-- A clause that accepts goes on with its body. -/
theorem Accepted.run (hnote : Transparent note) (hty : h.exceptionTy.isAssignableFrom thrownTy = true)
    (haccepted : Accepted scope exception h m visits m')
    (hlogged : ∀ x ∈ visits, x.LoggedBy note ev) (after : List (Handler Expr))
    (log : List (Scope × Expr)) :
    (runHandlers ev scope exception thrownTy (h :: after)).run (note log m) =
      (ev (m.catching scope exception) h.body).run (note (log ++ visits.map Visit.part) m') := by
  rw [runHandlers_of_matches ev hty, hnote.catching, hnote.caught]
  rcases haccepted with hfilter | hfilter
  · rw [hfilter, List.map_nil, List.append_nil]
    rfl
  · have hasked := List.forall_mem_singleton.mp hlogged log
    rw [hfilter, run_bind, filterAccepts_run]
    rw [show (ev (m.catching scope exception) _).run (note log (m.caught h exception)) = _ from hasked]
    rfl

/-- Clauses do what is told of them. -/
theorem Handled.run (hnote : Transparent note) {handlers : List (Handler Expr)}
    (hhandled : Handled scope exception thrownTy handlers m visits r m')
    (hlogged : ∀ x ∈ visits, x.LoggedBy note ev) (log : List (Scope × Expr)) :
    (runHandlers ev scope exception thrownTy handlers).run (note log m) =
      some (r, note (log ++ visits.map Visit.part) m') := by
  rcases hhandled with ⟨rfl, hbefore, hty, haccepted⟩ | ⟨rfl, hbefore, hty, hfilter⟩ | hall
  · rw [List.forall_mem_append, List.forall_mem_append, List.forall_mem_singleton] at hlogged
    obtain ⟨⟨hpassed, hfilter⟩, hbody⟩ := hlogged
    rw [hbefore.run hnote hpassed, haccepted.run hnote hty hfilter]
    refine (hbody _).trans ?_
    simp only [List.map_append, List.append_assoc]
    rfl
  · rw [List.forall_mem_append, List.forall_mem_singleton] at hlogged
    obtain ⟨hpassed, hfault⟩ := hlogged
    rw [hbefore.run hnote hpassed, runHandlers_of_matches ev hty, hnote.catching, hnote.caught,
      hfilter, run_bind, filterAccepts_run]
    refine (congrArg (fun y => (Option.map _ y).bind _) (hfault _)).trans ?_
    simp only [List.map_append, ← List.append_assoc]
    rfl
  · rw [← List.append_nil handlers, hall.run hnote hlogged]
    rfl

theorem Guards.run (hnote : Transparent note) {body : Expr} {handlers : List (Handler Expr)}
    (hguards : Guards scope body handlers m visits r m')
    (hlogged : ∀ x ∈ visits, x.LoggedBy note ev) (log : List (Scope × Expr)) :
    (regionOutcome ev scope body handlers).run (note log m) =
      some (.ok r, note (log ++ visits.map Visit.part) m') := by
  unfold regionOutcome
  cases hguards with
  | unoffered hr =>
    rw [run_held_bind_of_some (List.forall_mem_singleton.mp hlogged log)]
    rcases r with exit | v
    · cases exit with
      | throw v =>
        dsimp only
        rw [hr v rfl]
        rfl
      | jump l v => rfl
      | fault f => rfl
    · rfl
  | offered hty hhandled =>
    rw [List.forall_mem_cons] at hlogged
    rw [run_held_bind_of_some (hlogged.1 log)]
    dsimp only
    rw [hty]
    refine run_held_of_some ((hhandled.run hnote hlogged.2 _).trans ?_)
    rw [List.append_assoc]
    rfl

/-- A region does what its course says. -/
theorem Course.run (hnote : Transparent note) {body : Expr} {handlers : List (Handler Expr)}
    {ty : Ty} {cleanup : Option Expr} (hcourse : Course scope body handlers ty cleanup m visits r m')
    (hlogged : ∀ x ∈ visits, x.LoggedBy note ev) (log : List (Scope × Expr)) :
    (evalGuarded ev scope ty body handlers cleanup).run (note log m) =
      some (r, note (log ++ visits.map Visit.part) m') := by
  rw [evalGuarded_eq]
  cases hcourse with
  | @bare _ _ r₁ _ hguards =>
    rw [run_bind_of_ok (hguards.run hnote hlogged log)]
    cases r₁ <;> rfl
  | @kept last _ visits r₁ m₁ v _ hguards =>
    rw [List.forall_mem_append, List.forall_mem_singleton] at hlogged
    have hlast := hlogged.2 (log ++ visits.map Visit.part)
    rw [run_bind_of_ok (hguards.run hnote hlogged.1 log), List.map_append, ← List.append_assoc]
    refine (run_bind_of_ok hlast).trans ?_
    cases r₁ <;> rfl
  | @replaced last _ visits r₁ m₁ exit _ hguards =>
    rw [List.forall_mem_append, List.forall_mem_singleton] at hlogged
    have hlast := hlogged.2 (log ++ visits.map Visit.part)
    rw [run_bind_of_ok (hguards.run hnote hlogged.1 log), List.map_append, ← List.append_assoc]
    exact run_bind_of_error hlast

/-- A machine with a list beside the state of its host. -/
def Machine.withLog (log : List (Scope × Expr)) (m : Machine σ) :
    Machine (σ × List (Scope × Expr)) :=
  ⟨m.next, m.store, m.closures, m.depths, (m.host, log)⟩

/-- An evaluator that also lists what it is asked for. -/
def logged (ev : Scope → Expr → Run σ Value) (scope : Scope) (e : Expr) :
    Run (σ × List (Scope × Expr)) Value :=
  ExceptT.mk fun ⟨next, store, closures, depths, host, log⟩ =>
    ((ev scope e).run ⟨next, store, closures, depths, host⟩).map fun y =>
      (y.1, y.2.withLog (log ++ [(scope, e)]))

theorem transparent_withLog : Transparent (σ := σ) Machine.withLog :=
  ⟨fun _ _ _ _ => rfl, fun _ _ _ _ => rfl⟩

theorem Visit.MadeBy.logged {ev : Scope → Expr → Run σ Value} {x : Visit σ} (h : x.MadeBy ev) :
    x.LoggedBy Machine.withLog (logged ev) := by
  intro log
  show ((ev x.scope x.tree).run x.start).map _ = _
  rw [h]
  rfl

end Logs

/-! ## Where parts stand -/

section Places

variable {H : Host σ} {I : Interp} {scope inner : Scope} {e c : Expr} {m m' : Machine σ}

/-- The scope of a child in this position: blocks and calls of closures have a frame of their own,
and so have catch clauses, with the exception. -/
def Position.Leads : Position → Scope → Scope → Prop
  | .plain, s, s' => s' = s
  | .under _, s, s' => ∃ frame, s' = s.extended frame none
  | .catching _, s, s' => ∃ frame exception, s' = s.extended frame (some exception)

theorem Shape.mem_positions_of_operands {ν α : Type} {s : Shape ν α} {a : α}
    (ha : a ∈ s.operands) : (.plain, a) ∈ s.positions := by
  cases s with
  | call receiver method args =>
    rw [operands, List.mem_append] at ha
    refine List.mem_map_of_mem (List.mem_append.mpr (ha.imp_left fun ha => ?_))
    split at ha
    · cases ha
    · exact ha
  | binary op a b => cases op <;> simp_all [operands, positions, children]
  | conditional test a b => simp_all [operands, positions, children]
  | switch value arms default comparer => simp_all [operands, positions, children]
  | block | lambda | guarded | empty | constant | parameter | loop => cases ha
  | _ => exact List.mem_map_of_mem ha

theorem mem_of_afterLabel? {l : Label} {body after : List Expr}
    (h : afterLabel? l body = some after) : ∀ a ∈ after, a ∈ body := by
  induction body with
  | nil => cases h
  | cons e body ih =>
    intro a ha
    rw [Setting.afterLabel?_cons] at h
    split at h
    · cases h
      exact List.mem_cons_of_mem e ha
    · exact List.mem_cons_of_mem e (ih h a ha)

/-- What a block comes to is part of its body. -/
theorem BodyComes.mem {body rest rest' : List Expr}
    (h : BodyComes H I scope body rest m rest' m') (hrest : ∀ a ∈ rest, a ∈ body) :
    ∀ a ∈ rest', a ∈ body := by
  induction h with
  | here => exact hrest
  | next _ _ ih => exact ih fun a ha => hrest a (List.mem_cons_of_mem _ ha)
  | resumed _ hafter _ ih => exact ih (mem_of_afterLabel? hafter)

/-- The body that a switch chooses is that of an arm. -/
theorem mem_of_selectCase {ev : Expr → Run σ Value} {accept : Value → Run σ Bool}
    {arms : List (Case Expr)} (h : (selectCase ev accept arms).run m = some (.ok (some c), m')) :
    ∃ arm ∈ arms, arm.body = c := by
  induction arms generalizing m with
  | nil => cases h
  | cons arm arms ih =>
    obtain ⟨b, m₁, -, h⟩ := ok_of_run_bind h
    cases b with
    | true =>
      cases h
      exact ⟨arm, List.mem_cons_self, rfl⟩
    | false =>
      obtain ⟨arm', harm', hbody⟩ := ih h
      exact ⟨arm', List.mem_cons_of_mem arm harm', hbody⟩

/-- What a switch goes on with is among its children. -/
theorem ArmsEnd.mem {comparer : Option Method} {scrutinee : Value} {arms : List (Case Expr)}
    {default chosen : Option Expr} (harms : ArmsEnd H I scope comparer scrutinee arms m (.ok chosen, m'))
    (hbody : (chosen <|> default) = some c) : c ∈ arms.flatMap Case.children ++ default.toList := by
  rw [List.mem_append]
  cases chosen with
  | none => exact .inr (Option.mem_toList.mpr hbody)
  | some b =>
    obtain ⟨n, hn⟩ := harms
    obtain ⟨arm, harm, rfl⟩ := mem_of_selectCase hn
    cases hbody
    refine .inl (List.mem_flatMap.mpr ⟨arm, harm, ?_⟩)
    exact List.mem_append_right _ List.mem_cons_self

/-- The clause that takes an exception is one of the clauses, and its body stands in it. -/
theorem Takes.position {exception : Value} {thrownTy : Ty} {hs : List (Handler Expr)}
    {h : Handler Expr} (htakes : Takes H I scope exception thrownTy hs m h inner m') :
    ∃ q, (q, h.body) ∈ hs.flatMap Handler.positions ∧ q.Leads scope inner := by
  induction htakes with
  | @here h _ m =>
    refine ⟨.catching h.binder, List.mem_flatMap.mpr ⟨h, List.mem_cons_self, ?_⟩, _, _, rfl⟩
    exact List.mem_map_of_mem (List.mem_append_right _ List.mem_cons_self)
  | other _ _ ih | declined _ _ _ ih =>
    obtain ⟨q, hq, hleads⟩ := ih
    exact ⟨q, List.mem_append_right _ hq, hleads⟩

/-- Evaluation comes to children, each in the scope of its position. -/
theorem Enters.position {last : Option Expr} (h : Enters H I scope e m last inner c m') :
    ∃ q, (q, c) ∈ e.shape.positions ∧ q.Leads scope inner := by
  cases h with
  | operand hshape _ =>
    refine ⟨.plain, Shape.mem_positions_of_operands ?_, rfl⟩
    rw [hshape]
    exact List.mem_append_right _ List.mem_cons_self
  | branch hshape _ _ =>
    refine ⟨.plain, ?_, rfl⟩
    rw [hshape]
    split <;> simp [Shape.positions, Shape.children]
  | second hshape _ _ =>
    refine ⟨.plain, ?_, rfl⟩
    rw [hshape]
    simp [Shape.positions, Shape.children]
  | test hshape _ _ htests _ =>
    refine ⟨.plain, ?_, rfl⟩
    rw [hshape]
    simp [Shape.positions, Shape.children, Case.children, htests]
  | arm hshape _ harms hbody =>
    refine ⟨.plain, ?_, rfl⟩
    rw [hshape]
    exact List.mem_map_of_mem (List.mem_cons_of_mem _ (harms.mem hbody))
  | statement hshape hcomes =>
    rename_i locals _ _
    refine ⟨.under locals, ?_, _, rfl⟩
    rw [hshape]
    exact List.mem_map_of_mem (hcomes.mem (fun _ ha => ha) _ List.mem_cons_self)
  | round hshape _ =>
    refine ⟨.plain, ?_, rfl⟩
    rw [hshape]
    exact List.mem_cons_self
  | guarded hshape =>
    refine ⟨.plain, ?_, rfl⟩
    rw [hshape]
    exact List.mem_cons_self
  | clause hshape _ _ htakes =>
    obtain ⟨q, hq, hleads⟩ := htakes.position
    refine ⟨q, ?_, hleads⟩
    rw [hshape]
    exact List.mem_cons_of_mem _ (List.mem_append_left _ hq)
  | last he _ =>
    subst he
    refine ⟨.plain, ?_, rfl⟩
    simp [Expr.shape, Shape.positions]

/-- A node of the body of a catch clause that stands outside nested catch clauses, with a scope in
which it is evaluated. -/
inductive Inside (start : Scope) (body : Expr) : Scope → Expr → Prop
  | body : Inside start body start body
  | child {s g q s' a} (h : Inside start body s g) (ha : (q, a) ∈ g.shape.positions)
      (hs : q.Leads s s') (hq : ∀ binder, q ≠ .catching binder) : Inside start body s' a

/-- The exception of the clause is the one to be thrown once more. -/
theorem Inside.currentException? {start s : Scope} {body g : Expr} (h : Inside start body s g) :
    s.currentException? = start.currentException? := by
  induction h with
  | body => rfl
  | @child _ _ q _ _ _ _ hs hq ih =>
    cases q with
    | plain =>
      obtain rfl := hs
      exact ih
    | under params =>
      obtain ⟨frame, rfl⟩ := hs
      exact ih
    | catching binder => exact absurd rfl (hq binder)

theorem evaluates_rethrow {v : Value} (hshape : e.shape = .throw none)
    (hcurrent : scope.currentException? = some v) (hv : v.isNull = false) :
    Evaluates H I scope e m (.error (.throw v), m) := by
  refine evaluates_iff.mpr ⟨0, ?_⟩
  unfold evalNode
  rw [hshape]
  dsimp only
  rw [hcurrent]
  dsimp only
  rw [throwValue, hv]
  rfl

/-- What rethrows in the body of a catch clause do that handles `exception`. -/
structure Rethrows (H : Host σ) (exception : Value) (start : Scope) (body : Expr) : Prop where
  /-- Evaluation stays inside unless it goes into another catch clause. -/
  enters : ∀ {I s g m last s' c m'}, Inside start body s g → Enters H I s g m last s' c m' →
    Inside start body s' c ∨ ∃ binder, (.catching binder, c) ∈ g.shape.positions
  /-- So do calls of the closures that are made inside. -/
  starts : ∀ {I s g params c ret args s'} {m m' : Machine σ}, Inside start body s g →
    g.shape = .lambda params c → Closure.Starts ⟨params, c, ret, s, I⟩ args m s' m' →
    Inside start body s' c
  /-- A rethrow inside throws the exception itself, wherever it is evaluated, and does nothing
  else. -/
  throws : ∀ {I s g m}, Inside start body s g → g.shape = .throw none →
    Evaluates H I s g m (.error (.throw exception), m)

theorem rethrows_of_catching {exception : Value} (hnull : exception.isNull = false) (body : Expr)
    (m : Machine σ) : Rethrows H exception (m.catching scope exception) body where
  enters h henters := by
    obtain ⟨q, hq, hleads⟩ := henters.position
    by_cases hcatching : ∃ binder, q = .catching binder
    · obtain ⟨binder, rfl⟩ := hcatching
      exact .inr ⟨binder, hq⟩
    · exact .inl (.child h hq hleads fun binder heq => hcatching ⟨binder, heq⟩)
  starts {_ _ _ params _ _ _ _ _ _} h hshape hstarts := by
    refine .child (q := .under params) h ?_ ⟨_, hstarts.scope⟩ fun _ heq => by cases heq
    rw [hshape]
    exact List.mem_singleton_self _
  throws h hshape := evaluates_rethrow hshape h.currentException? hnull

end Places

/-! ## Regions as they are evaluated -/

/-- The evaluator does what a visit says, given enough fuel. -/
def Visit.Happens (H : Host σ) (I : Interp) (x : Visit σ) : Prop :=
  Evaluates H I x.scope x.tree x.start (x.outcome, x.stop)

theorem eventually_made {H : Host σ} {I : Interp} {visits : List (Visit σ)}
    (h : ∀ x ∈ visits, x.Happens H I) : ∀ᶠ n in atTop, ∀ x ∈ visits, x.MadeBy (eval H n I) :=
  (Filter.eventually_all_finite visits.finite_toSet).mpr fun x hx => (h x hx).eventually

/-- How a guarded region dispatches. It ends exactly as one of its courses says whose visits happen:

* the body comes first. Unless it throws something other than `null`, no filter and no clause is
  visited;
* if it does, the filters of the clauses for its type are visited in turn, each once, as long as they
  refuse. The first clause that accepts it has its body visited, once, and what that ends with stands;
  a fault in a filter ends the search; and if all clauses let the exception go by, it is thrown on;
* the last part is visited after that, once. It replaces the outcome if it leaves early itself.

Nothing else is evaluated: an evaluator that lists what it is asked for lists the visits of the course.
And a rethrow in the body of a clause, outside nested catch clauses, throws what the clause handles. -/
theorem guarded_dispatches (H : Host σ) (I : Interp) (scope : Scope) (id : Nat) (body : Expr)
    (handlers : List (Handler Expr)) (cleanup : Option Expr) (ty : Ty) (m : Machine σ) :
    (∀ r m', Evaluates H I scope (.mk id (.guarded body handlers cleanup) ty) m (r, m') ↔
      ∃ visits, Course scope body handlers ty cleanup m visits r m' ∧
        ∀ x ∈ visits, x.Happens H I) ∧
    (∀ visits r m', Course scope body handlers ty cleanup m visits r m' →
      (∀ x ∈ visits, x.Happens H I) →
      ∀ᶠ n in atTop, (evalGuarded (logged (eval H n I)) scope ty body handlers cleanup).run
        (m.withLog []) = some (r, m'.withLog (visits.map Visit.part))) ∧
    ∀ h ∈ handlers, ∀ (k : Machine σ) exception, exception.isNull = false →
      Rethrows H exception (k.catching scope exception) h.body := by
  refine ⟨fun r m' => ⟨fun h => ?_, fun h => ?_⟩, fun visits r m' hcourse hvisits => ?_,
    fun h _ k exception hnull => rethrows_of_catching hnull h.body k⟩
  · obtain ⟨n, hn⟩ := evaluates_iff.mp h
    change (evalGuarded (eval H n I) scope ty body handlers cleanup).run m = _ at hn
    obtain ⟨visits, hcourse, hmade⟩ := course_of_run hn
    exact ⟨visits, hcourse, fun x hx => ⟨n, hmade x hx⟩⟩
  · obtain ⟨visits, hcourse, hvisits⟩ := h
    obtain ⟨n, hmade⟩ := (eventually_made hvisits).exists
    have hself : Transparent fun (_ : List (Scope × Expr)) (k : Machine σ) => k :=
      ⟨fun _ _ _ _ => rfl, fun _ _ _ _ => rfl⟩
    exact evaluates_iff.mpr ⟨n, hcourse.run hself (fun x hx _ => hmade x hx) []⟩
  · filter_upwards [eventually_made hvisits] with n hmade
    exact hcourse.run transparent_withLog (fun x hx => (hmade x hx).logged) []

namespace Sample

/-- What the body throws. -/
def oops : Value := .exception 20 .argument "no"

/-- Throws it. -/
def throwsOops : Expr := .mk 31 (.throw (some (.mk 30 (.constant oops) .argument))) .void

/-- A filter that throws something else. -/
def throwingFilter : Expr := .mk 33 (.throw (some (.mk 32 (.constant (.int 1)) .int))) .bool

def trueFilter : Expr := .mk 34 (.constant (.bool true)) .bool

/-- A body that calls host code and then rethrows. -/
def rethrower : Expr := .mk 36 (.block [] [note 35 3, .mk 29 (.throw none) .void]) .void

/-- The first clause is for another type, the filter of the second throws, the third rethrows what
it takes, and the fourth would take it too. -/
def clauses : List (Handler Expr) :=
  [⟨.invalidCast, none, some trueFilter, note 37 1⟩, ⟨.exception, none, some throwingFilter, note 38 2⟩,
    ⟨.exception, none, some trueFilter, rethrower⟩, ⟨.exception, none, none, note 39 4⟩]

/-- A machine with so many empty frames, on which host code has run as listed. -/
def framesOpened (frames : Nat) (log : List CodeId) : Machine (List CodeId) :=
  ⟨40, ⟨Array.replicate frames []⟩, #[], #[1], log⟩

/-- The scope of a clause that handles what the body throws. -/
def handlingOops (frame : Nat) : Scope := ⟨[⟨frame, some oops⟩]⟩

/-- What is evaluated of a region with these clauses whose last part calls code 5. -/
def visitsMade : List (Visit (List CodeId)) :=
  [⟨⟨[]⟩, throwsOops, framesOpened 0 [], .error (.throw oops), framesOpened 0 []⟩,
    ⟨handlingOops 0, throwingFilter, framesOpened 1 [], .error (.throw (.int 1)), framesOpened 1 []⟩,
    ⟨handlingOops 1, trueFilter, framesOpened 2 [], .ok (.bool true), framesOpened 2 []⟩,
    ⟨handlingOops 1, rethrower, framesOpened 2 [], .error (.throw oops), framesOpened 3 [3]⟩,
    ⟨⟨[]⟩, note 40 5, framesOpened 3 [3], .ok .void, framesOpened 3 [3, 5]⟩]

end Sample

open Sample in
/-- Two filters are asked, the body of the third clause runs, and the exception goes on after the last
part has run: host code 3 and then 5, and no other, has been called. -/
theorem third_clause_rethrows :
    Evaluates noting ⟨0, 8⟩ ⟨[]⟩ (.mk 41 (.guarded throwsOops clauses (some (note 40 5))) .void)
        (framesOpened 0 []) (.error (.throw oops), framesOpened 3 [3, 5]) ∧
      (∀ᶠ n in atTop, (evalGuarded (logged (eval noting n ⟨0, 8⟩)) ⟨[]⟩ .void throwsOops clauses
          (some (note 40 5))).run ((framesOpened 0 []).withLog []) =
        some (.error (.throw oops), (framesOpened 3 [3, 5]).withLog
          [(⟨[]⟩, throwsOops), (handlingOops 0, throwingFilter), (handlingOops 1, trueFilter),
            (handlingOops 1, rethrower), (⟨[]⟩, note 40 5)])) ∧
      Rethrows noting oops (handlingOops 1) rethrower := by
  have hpassed : Passed ⟨[]⟩ oops .argument (clauses.take 2) (framesOpened 0 [])
      [⟨handlingOops 0, throwingFilter, framesOpened 1 [], .error (.throw (.int 1)), framesOpened 1 []⟩]
      (framesOpened 1 []) :=
    .other rfl (.refused rfl rfl trivial (.nil _))
  have haccepted : Accepted ⟨[]⟩ oops ⟨.exception, none, some trueFilter, rethrower⟩ (framesOpened 1 [])
      [⟨handlingOops 1, trueFilter, framesOpened 2 [], .ok (.bool true), framesOpened 2 []⟩]
      (framesOpened 2 []) := .filtered rfl
  have hguards : Guards ⟨[]⟩ throwsOops clauses (framesOpened 0 []) (visitsMade.take 4)
      (.error (.throw oops)) (framesOpened 3 [3]) :=
    .offered rfl (.taken rfl hpassed rfl haccepted)
  have hcourse : Course ⟨[]⟩ throwsOops clauses .void (some (note 40 5)) (framesOpened 0 []) visitsMade
      (.error (.throw oops)) (framesOpened 3 [3, 5]) := .kept (v := .void) hguards
  have hvisits : ∀ x ∈ visitsMade, x.Happens noting ⟨0, 8⟩ := by
    simp only [visitsMade, List.forall_mem_cons]
    exact ⟨⟨3, rfl⟩, ⟨3, rfl⟩, ⟨3, rfl⟩, ⟨4, rfl⟩, ⟨3, rfl⟩, List.forall_mem_nil _⟩
  obtain ⟨hiff, hlogged, hrethrows⟩ := guarded_dispatches noting ⟨0, 8⟩ ⟨[]⟩ 41 throwsOops clauses
    (some (note 40 5)) .void (framesOpened 0 [])
  have hthird : ⟨.exception, none, some trueFilter, rethrower⟩ ∈ clauses := .tail _ (.tail _ (.head _))
  exact ⟨(hiff _ _).mpr ⟨_, hcourse, hvisits⟩, hlogged _ _ _ hcourse hvisits,
    hrethrows _ hthird (framesOpened 1 []) oops rfl⟩

end CodeTree
