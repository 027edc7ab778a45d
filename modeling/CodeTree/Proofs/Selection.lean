import CodeTree.Proofs.Dispatch

/-!
# What a switch evaluates

A switch evaluates parts and compares values; each of these is a `Move`. The tests of all cases stand
in one list, each with the body that it leads to (`armsOf`), and a switch is told by the list of its
moves, in their order.

* `Missed` — tests that do not match, each evaluated and compared once;
* `Search` — the first test that matches, or the first that is left early, itself or in its comparison;
  nothing after it is evaluated;
* `Selects` — the value that is switched on, the search, and the one body that the search leads to.

As with guarded regions, moves say what was asked for and not only what came out of it: an evaluator
and a comparison that list what they are asked for (`listed`) list the moves, each once.

Main statement: `switch_selects`.
-/

namespace CodeTree

open Filter (atTop)

variable {σ τ : Type}

/-! ## Switches as lists of tests -/

/-- The tests of all cases in their order, each with the body of its case. -/
def armsOf (cases : List (Case Expr)) : List (Expr × Expr) :=
  cases.flatMap fun c => c.tests.map fun test => (test, c.body)

/-- The body after the first test that matches; later tests are not evaluated. -/
def selectArm (ev : Expr → Run σ Value) (accept : Value → Run σ Bool) :
    List (Expr × Expr) → Run σ (Option Expr)
  | [] => pure none
  | (test, body) :: arms => do
    let candidate ← ev test
    if ← accept candidate then pure (some body) else selectArm ev accept arms

/-- What a switch of type `ty` does with the body that it comes to, if there is one. -/
def evalChosen (ev : Expr → Run σ Value) (ty : Ty) : Option Expr → Run σ Value
  | some body => do
    let v ← ev body
    pure (settle ty v)
  | none => pure .void

/-- A switch of type `ty`, with the comparison as a parameter. -/
def evalSwitch (ev : Expr → Run σ Value) (compare : Value → Value → Run σ Bool) (ty : Ty)
    (value : Expr) (cases : List (Case Expr)) (default : Option Expr) : Run σ Value := do
  let scrutinee ← ev value
  let found ← selectCase ev (compare scrutinee) cases
  evalChosen ev ty (found <|> default)

theorem evalNode_switch (H : Host σ) (E : Engine σ) (I : Interp) (scope : Scope) (id : Nat)
    (value : Expr) (cases : List (Case Expr)) (default : Option Expr) (comparer : Option Method)
    (ty : Ty) : evalNode H E I scope (.mk id (.switch value cases default comparer) ty) =
      evalSwitch (E.eval I scope) (accepts H E comparer) ty value cases default := rfl

theorem evalChosen_run (ev : Expr → Run σ Value) (ty : Ty) (body : Expr) (m : Machine σ) :
    (evalChosen ev ty (some body)).run m =
      ((ev body).run m).map fun y => (y.1.map (settle ty), y.2) := by
  rw [evalChosen, run_bind, Option.map_eq_bind]
  congr 1
  funext y
  obtain ⟨r, k⟩ := y
  cases r <;> rfl

section Arms

variable (ev : Expr → Run σ Value) (accept : Value → Run σ Bool)

theorem selectArm_append (tests : List Expr) (body : Expr) (arms : List (Expr × Expr)) :
    selectArm ev accept (tests.map (fun test => (test, body)) ++ arms) =
      matchesSome ev accept tests >>= fun matched =>
        if matched then pure (some body) else selectArm ev accept arms := by
  induction tests with
  | nil => rw [matchesSome, pure_bind]; rfl
  | cons test tests ih =>
    rw [List.map_cons, List.cons_append, selectArm, matchesSome, bind_assoc]
    congr 1
    funext candidate
    rw [bind_assoc]
    congr 1
    funext matched
    cases matched with
    | true => exact (pure_bind _ _).symm
    | false => exact ih

/-- Going through the cases is going through their tests. -/
theorem selectCase_eq (cases : List (Case Expr)) :
    selectCase ev accept cases = selectArm ev accept (armsOf cases) := by
  induction cases with
  | nil => rfl
  | cons c cases ih =>
    rw [armsOf, List.flatMap_cons, selectArm_append, selectCase, ih]
    rfl

end Arms

/-! ## Moves -/

/-- What a switch asks for. -/
inductive Asked where
  /-- The value of a part. -/
  | part (tree : Expr)
  /-- Whether a candidate matches. -/
  | comparison (scrutinee candidate : Value)

/-- What a switch does: on which machine, and what it ends with. -/
inductive Move (σ : Type) where
  | evaluate (tree : Expr) (start : Machine σ) (outcome : Except Exit Value) (stop : Machine σ)
  | compare (scrutinee candidate : Value) (start : Machine σ) (outcome : Except Exit Bool)
      (stop : Machine σ)

namespace Move

/-- What a move asks for. -/
def asked : Move σ → Asked
  | .evaluate tree _ _ _ => .part tree
  | .compare scrutinee candidate _ _ _ => .comparison scrutinee candidate

/-- The evaluator or the comparison does what the move says. -/
def MadeBy (ev : Expr → Run σ Value) (compare : Value → Value → Run σ Bool) : Move σ → Prop
  | .evaluate tree start outcome stop => (ev tree).run start = some (outcome, stop)
  | .compare scrutinee candidate start outcome stop =>
    (compare scrutinee candidate).run start = some (outcome, stop)

end Move

section Courses

variable (scrutinee : Value)

/-- Tests that do not match, one after another. -/
inductive Missed : List (Expr × Expr) → Machine σ → List (Move σ) → Machine σ → Prop
  | nil (m : Machine σ) : Missed [] m [] m
  | cons {test body arms m candidate m₁ m₂ moves m'} (rest : Missed arms m₂ moves m') :
      Missed ((test, body) :: arms) m
        (.evaluate test m (.ok candidate) m₁ :: .compare scrutinee candidate m₁ (.ok false) m₂ :: moves)
        m'

/-- A search for the first test that matches. -/
inductive Search (arms : List (Expr × Expr)) :
    Machine σ → List (Move σ) → Except Exit (Option Expr) → Machine σ → Prop
  | found {before test body after m moves m₁ candidate m₂ m'}
      (hsplit : arms = before ++ (test, body) :: after) (hbefore : Missed scrutinee before m moves m₁) :
      Search arms m
        (moves ++ [.evaluate test m₁ (.ok candidate) m₂, .compare scrutinee candidate m₂ (.ok true) m'])
        (.ok (some body)) m'
  /-- A test is left early. -/
  | untested {before test body after m moves m₁ exit m'}
      (hsplit : arms = before ++ (test, body) :: after) (hbefore : Missed scrutinee before m moves m₁) :
      Search arms m (moves ++ [.evaluate test m₁ (.error exit) m']) (.error exit) m'
  /-- A comparison is left early. -/
  | uncompared {before test body after m moves m₁ candidate m₂ exit m'}
      (hsplit : arms = before ++ (test, body) :: after) (hbefore : Missed scrutinee before m moves m₁) :
      Search arms m
        (moves ++
          [.evaluate test m₁ (.ok candidate) m₂, .compare scrutinee candidate m₂ (.error exit) m'])
        (.error exit) m'
  | exhausted {m moves m'} (h : Missed scrutinee arms m moves m') : Search arms m moves (.ok none) m'

end Courses

/-- A switch of type `ty` on a value. -/
inductive Selects (ty : Ty) (value : Expr) (arms : List (Expr × Expr)) (default : Option Expr) :
    Machine σ → List (Move σ) → Except Exit Value → Machine σ → Prop
  /-- The value itself is left early. -/
  | unvalued {m exit m'} : Selects ty value arms default m [.evaluate value m (.error exit) m']
      (.error exit) m'
  /-- The search is left early; no body is evaluated. -/
  | unsearched {m scrutinee m₁ moves exit m'} (h : Search scrutinee arms m₁ moves (.error exit) m') :
      Selects ty value arms default m (.evaluate value m (.ok scrutinee) m₁ :: moves) (.error exit) m'
  /-- The body of the case is evaluated, or the default if no test matches. -/
  | chosen {m scrutinee m₁ moves found m₂ body r m'}
      (h : Search scrutinee arms m₁ moves (.ok found) m₂) (hbody : (found <|> default) = some body) :
      Selects ty value arms default m
        (.evaluate value m (.ok scrutinee) m₁ :: (moves ++ [.evaluate body m₂ r m']))
        (r.map (settle ty)) m'
  /-- No test matches, and there is no default. -/
  | nothing {m scrutinee m₁ moves m'} (h : Search scrutinee arms m₁ moves (.ok none) m')
      (hdefault : default = none) :
      Selects ty value arms default m (.evaluate value m (.ok scrutinee) m₁ :: moves) (.ok .void) m'

/-! ## From a run to its moves -/

section Runs

variable {scrutinee candidate : Value} {test body : Expr} {arms : List (Expr × Expr)}
variable {m m₁ m₂ m' : Machine σ} {moves : List (Move σ)} {found : Except Exit (Option Expr)}

/-- A test in front that does not match is evaluated and compared first. -/
theorem Search.missed (later : Search scrutinee arms m₂ moves found m') :
    Search scrutinee ((test, body) :: arms) m
      (.evaluate test m (.ok candidate) m₁ :: .compare scrutinee candidate m₁ (.ok false) m₂ :: moves)
      found m' := by
  rcases later with ⟨rfl, hbefore⟩ | ⟨rfl, hbefore⟩ | ⟨rfl, hbefore⟩ | hall
  · exact .found rfl (.cons hbefore)
  · exact .untested rfl (.cons hbefore)
  · exact .uncompared rfl (.cons hbefore)
  · exact .exhausted (.cons hall)

variable {ev : Expr → Run σ Value} {compare : Value → Value → Run σ Bool}

theorem search_of_run (hrun : (selectArm ev (compare scrutinee) arms).run m = some (found, m')) :
    ∃ moves, Search scrutinee arms m moves found m' ∧ ∀ x ∈ moves, x.MadeBy ev compare := by
  induction arms generalizing m with
  | nil =>
    cases hrun
    exact ⟨[], .exhausted (.nil _), List.forall_mem_nil _⟩
  | cons arm arms ih =>
    obtain ⟨test, body⟩ := arm
    have hfirst : (test, body) :: arms = [] ++ (test, body) :: arms := rfl
    rw [selectArm, run_bind] at hrun
    obtain ⟨⟨r, m₁⟩, htest, hrun⟩ := Option.bind_eq_some_iff.mp hrun
    cases r with
    | error exit =>
      cases hrun
      exact ⟨_, .untested hfirst (.nil m), List.forall_mem_singleton.mpr htest⟩
    | ok candidate =>
      replace hrun : (compare scrutinee candidate >>= fun matched =>
        if matched then pure (some body) else selectArm ev (compare scrutinee) arms).run m₁ =
          some (found, m') := hrun
      rw [run_bind] at hrun
      obtain ⟨⟨b, m₂⟩, hcompare, hrun⟩ := Option.bind_eq_some_iff.mp hrun
      have hboth : ∀ x ∈ [Move.evaluate test m (.ok candidate) m₁,
          .compare scrutinee candidate m₁ b m₂], x.MadeBy ev compare :=
        List.forall_mem_cons.mpr ⟨htest, List.forall_mem_singleton.mpr hcompare⟩
      cases b with
      | error exit =>
        cases hrun
        exact ⟨_, .uncompared hfirst (.nil m), hboth⟩
      | ok matched =>
        cases matched with
        | true =>
          cases hrun
          exact ⟨_, .found hfirst (.nil m), hboth⟩
        | false =>
          obtain ⟨moves, hlater, hmade⟩ := ih hrun
          exact ⟨_, hlater.missed, List.forall_mem_append.mpr ⟨hboth, hmade⟩⟩

/-- Whatever a switch ends with, there are moves to it. -/
theorem selects_of_run {ty : Ty} {value : Expr} {cases : List (Case Expr)} {default : Option Expr}
    {r : Except Exit Value}
    (hrun : (evalSwitch ev compare ty value cases default).run m = some (r, m')) :
    ∃ moves, Selects ty value (armsOf cases) default m moves r m' ∧
      ∀ x ∈ moves, x.MadeBy ev compare := by
  rw [evalSwitch, run_bind] at hrun
  obtain ⟨⟨o, m₁⟩, hvalue, hrun⟩ := Option.bind_eq_some_iff.mp hrun
  cases o with
  | error exit =>
    cases hrun
    exact ⟨_, .unvalued, List.forall_mem_singleton.mpr hvalue⟩
  | ok scrutinee =>
    replace hrun : (selectCase ev (compare scrutinee) cases >>= fun found =>
      evalChosen ev ty (found <|> default)).run m₁ = some (r, m') := hrun
    rw [selectCase_eq, run_bind] at hrun
    obtain ⟨⟨found, m₂⟩, hsearch, hrun⟩ := Option.bind_eq_some_iff.mp hrun
    obtain ⟨moves, hmoves, hmade⟩ := search_of_run hsearch
    have hfirst : ∀ x ∈ Move.evaluate value m (.ok scrutinee) m₁ :: moves, x.MadeBy ev compare :=
      List.forall_mem_cons.mpr ⟨hvalue, hmade⟩
    cases found with
    | error exit =>
      cases hrun
      exact ⟨_, .unsearched hmoves, hfirst⟩
    | ok found =>
      replace hrun : (evalChosen ev ty (found <|> default)).run m₂ = some (r, m') := hrun
      cases hbody : found <|> default with
      | none =>
        obtain ⟨rfl, rfl⟩ := (Option.orElse_eq_none _ _).mp hbody
        cases hrun
        exact ⟨_, .nothing hmoves rfl, hfirst⟩
      | some body =>
        rw [hbody, evalChosen_run] at hrun
        obtain ⟨⟨o, m₃⟩, hlast, heq⟩ := Option.map_eq_some_iff.mp hrun
        cases heq
        have hend : ∀ x ∈ [Move.evaluate body m₂ o m₃], x.MadeBy ev compare :=
          List.forall_mem_singleton.mpr hlast
        exact ⟨_, .chosen hmoves hbody, List.forall_mem_append.mpr ⟨hfirst, hend⟩⟩

end Runs

/-! ## From moves back to their run -/

section Lists

/-- An evaluator and a comparison, on machines that carry a list, do what the move says and put it on
the list. -/
def Move.ListedBy (note : List Asked → Machine σ → Machine τ) (ev : Expr → Run τ Value)
    (compare : Value → Value → Run τ Bool) : Move σ → Prop
  | .evaluate tree start outcome stop => ∀ list, (ev tree).run (note list start) =
      some (outcome, note (list ++ [.part tree]) stop)
  | .compare scrutinee candidate start outcome stop => ∀ list,
      (compare scrutinee candidate).run (note list start) =
        some (outcome, note (list ++ [.comparison scrutinee candidate]) stop)

variable {note : List Asked → Machine σ → Machine τ} {ev : Expr → Run τ Value}
variable {compare : Value → Value → Run τ Bool} {scrutinee candidate : Value} {test body : Expr}
variable {m m₁ m₂ m' : Machine σ} {moves : List (Move σ)}

/-- A test that is evaluated and compared. -/
theorem selectArm_run {b : Bool}
    (htest : (Move.evaluate test m (.ok candidate) m₁).ListedBy note ev compare)
    (hcompare : (Move.compare scrutinee candidate m₁ (.ok b) m₂).ListedBy note ev compare)
    (arms : List (Expr × Expr)) (list : List Asked) :
    (selectArm ev (compare scrutinee) ((test, body) :: arms)).run (note list m) =
      (if b then pure (some body) else selectArm ev (compare scrutinee) arms).run
        (note (list ++ [.part test, .comparison scrutinee candidate]) m₂) := by
  rw [selectArm, run_bind_of_ok (htest list), run_bind_of_ok (hcompare _), List.append_assoc]
  rfl

/-- Tests that do not match leave it to those after them. -/
theorem Missed.run {before after : List (Expr × Expr)} (hmissed : Missed scrutinee before m moves m')
    (hlisted : ∀ x ∈ moves, x.ListedBy note ev compare) (list : List Asked) :
    (selectArm ev (compare scrutinee) (before ++ after)).run (note list m) =
      (selectArm ev (compare scrutinee) after).run (note (list ++ moves.map Move.asked) m') := by
  induction hmissed generalizing list with
  | nil m => rw [List.map_nil, List.append_nil, List.nil_append]
  | cons _ ih =>
    rw [List.forall_mem_cons, List.forall_mem_cons] at hlisted
    obtain ⟨htest, hcompare, hrest⟩ := hlisted
    rw [List.cons_append, selectArm_run htest hcompare, if_neg Bool.false_ne_true, ih hrest,
      List.append_assoc]
    rfl

theorem Search.run {arms : List (Expr × Expr)} {found : Except Exit (Option Expr)}
    (hsearch : Search scrutinee arms m moves found m')
    (hlisted : ∀ x ∈ moves, x.ListedBy note ev compare) (list : List Asked) :
    (selectArm ev (compare scrutinee) arms).run (note list m) =
      some (found, note (list ++ moves.map Move.asked) m') := by
  rcases hsearch with ⟨rfl, hbefore⟩ | ⟨rfl, hbefore⟩ | ⟨rfl, hbefore⟩ | hall
  · rw [List.forall_mem_append, List.forall_mem_cons, List.forall_mem_singleton] at hlisted
    obtain ⟨hmissed, htest, hcompare⟩ := hlisted
    rw [hbefore.run hmissed, selectArm_run htest hcompare, List.map_append, List.append_assoc]
    rfl
  · rw [List.forall_mem_append, List.forall_mem_singleton] at hlisted
    obtain ⟨hmissed, htest⟩ := hlisted
    rw [hbefore.run hmissed, selectArm, run_bind_of_error (htest _), List.map_append,
      List.append_assoc]
    rfl
  · rw [List.forall_mem_append, List.forall_mem_cons, List.forall_mem_singleton] at hlisted
    obtain ⟨hmissed, htest, hcompare⟩ := hlisted
    rw [hbefore.run hmissed, selectArm, run_bind_of_ok (htest _), run_bind_of_error (hcompare _),
      List.map_append, List.append_assoc, List.append_assoc]
    rfl
  · rw [← List.append_nil arms, hall.run hlisted]
    rfl

/-- A switch does what is told of it. -/
theorem Selects.run {ty : Ty} {value : Expr} {cases : List (Case Expr)} {default : Option Expr}
    {r : Except Exit Value} (hselects : Selects ty value (armsOf cases) default m moves r m')
    (hlisted : ∀ x ∈ moves, x.ListedBy note ev compare) (list : List Asked) :
    (evalSwitch ev compare ty value cases default).run (note list m) =
      some (r, note (list ++ moves.map Move.asked) m') := by
  unfold evalSwitch
  simp only [selectCase_eq]
  cases hselects with
  | unvalued =>
    exact run_bind_of_error (List.forall_mem_singleton.mp hlisted list)
  | unsearched hsearch =>
    rw [List.forall_mem_cons] at hlisted
    rw [run_bind_of_ok (hlisted.1 list), run_bind_of_error (hsearch.run hlisted.2 _), List.append_assoc]
    rfl
  | chosen hsearch hbody =>
    rw [List.forall_mem_cons, List.forall_mem_append, List.forall_mem_singleton] at hlisted
    obtain ⟨hvalue, hmoves, hlast⟩ := hlisted
    rw [run_bind_of_ok (hvalue list), run_bind_of_ok (hsearch.run hmoves _), hbody, evalChosen_run,
      hlast, List.map_cons, List.map_append]
    simp only [List.append_assoc]
    rfl
  | nothing hsearch hdefault =>
    rw [List.forall_mem_cons] at hlisted
    rw [run_bind_of_ok (hlisted.1 list), run_bind_of_ok (hsearch.run hlisted.2 _), hdefault,
      List.append_assoc]
    rfl

/-- A machine with a list beside the state of its host. -/
def Machine.listing (list : List Asked) (m : Machine σ) : Machine (σ × List Asked) :=
  ⟨m.next, m.store, m.closures, m.depths, (m.host, list)⟩

/-- An action that also lists what it is there for. -/
def listed {α : Type} (asked : Asked) (x : Run σ α) : Run (σ × List Asked) α :=
  ExceptT.mk fun ⟨next, store, closures, depths, host, list⟩ =>
    (x.run ⟨next, store, closures, depths, host⟩).map fun y =>
      (y.1, y.2.listing (list ++ [asked]))

theorem listed_run {α : Type} (asked : Asked) {x : Run σ α} {r : Except Exit α}
    (h : x.run m = some (r, m')) (list : List Asked) :
    (listed asked x).run (m.listing list) = some (r, m'.listing (list ++ [asked])) := by
  show (x.run m).map _ = _
  rw [h]
  rfl

theorem Move.MadeBy.listed {ev : Expr → Run σ Value} {compare : Value → Value → Run σ Bool}
    {x : Move σ} (h : x.MadeBy ev compare) :
    x.ListedBy Machine.listing (fun e => listed (.part e) (ev e))
      (fun v w => listed (.comparison v w) (compare v w)) := by
  cases x with
  | evaluate tree start outcome stop => exact listed_run (.part tree) h
  | compare v w start outcome stop => exact listed_run (.comparison v w) h

end Lists

/-! ## Switches as they are evaluated -/

section Happening

variable {H : Host σ} {I : Interp} {scope : Scope} {comparer : Option Method}

/-- What a call of a method on evaluated operands ends with. -/
def Dispatches (H : Host σ) (method : Method) (receiver : Option Value) (args : List Value)
    (m : Machine σ) (y : Except Exit Value × Machine σ) : Prop :=
  Ends (fun n => (dispatch H (engine H n) method receiver args).run) m y

/-- What a comparison makes of what a method gives. -/
def verdict : Except Exit Value → Except Exit Bool
  | .ok (.bool b) => .ok b
  | .ok v => .error (.fault (.typeMismatch "bool" v.typeName))
  | .error exit => .error exit

/-- What a comparison ends with: values are equal or not, unless a method decides. -/
def Compares (H : Host σ) (comparer : Option Method) (scrutinee candidate : Value) (m : Machine σ)
    (y : Except Exit Bool × Machine σ) : Prop :=
  match comparer with
  | none => y = (.ok (scrutinee.equals candidate), m)
  | some method => ∃ r, Dispatches H method none [scrutinee, candidate] m (r, y.2) ∧ y.1 = verdict r

/-- The move happens, given enough fuel. -/
def Move.Happens (H : Host σ) (I : Interp) (scope : Scope) (comparer : Option Method) : Move σ → Prop
  | .evaluate tree start outcome stop => Evaluates H I scope tree start (outcome, stop)
  | .compare scrutinee candidate start outcome stop =>
    Compares H comparer scrutinee candidate start (outcome, stop)

theorem accepts_run (E : Engine σ) (method : Method) (scrutinee candidate : Value) (m : Machine σ) :
    (accepts H E (some method) scrutinee candidate).run m =
      ((dispatch H E method none [scrutinee, candidate]).run m).map fun y => (verdict y.1, y.2) := by
  rw [accepts, run_bind, Option.map_eq_bind]
  congr 1
  funext y
  obtain ⟨r, k⟩ := y
  rcases r with exit | v
  · rfl
  · cases v <;> rfl

theorem grows_accepts (H : Host σ) (comparer : Option Method) (scrutinee candidate : Value) :
    Grows fun n => (accepts H (engine H n) comparer scrutinee candidate).run :=
  fun _ _ hn _ _ => eq_some_of_runs fun d =>
    Lockstep.Runs.accepts (exact_engines H hn d) H comparer scrutinee candidate

/-- A comparison is what a switch asks for, with enough fuel. -/
theorem compares_iff {scrutinee candidate : Value} {m : Machine σ} {y : Except Exit Bool × Machine σ} :
    Compares H comparer scrutinee candidate m y ↔
      Ends (fun n => (accepts H (engine H n) comparer scrutinee candidate).run) m y := by
  cases comparer with
  | none =>
    constructor
    · rintro rfl
      exact ⟨0, rfl⟩
    · rintro ⟨n, hn⟩
      exact (Option.some.inj hn).symm
  | some method =>
    simp only [Compares, Dispatches, Ends, accepts_run, Option.map_eq_some_iff]
    constructor
    · rintro ⟨r, ⟨n, hn⟩, hr⟩
      exact ⟨n, _, hn, Prod.ext hr.symm rfl⟩
    · rintro ⟨n, z, hn, rfl⟩
      exact ⟨z.1, ⟨n, hn⟩, rfl⟩

theorem Move.Happens.eventually {x : Move σ} (h : x.Happens H I scope comparer) :
    ∀ᶠ n in atTop, x.MadeBy (eval H n I scope) (accepts H (engine H n) comparer) := by
  cases x with
  | evaluate tree start outcome stop => exact Evaluates.eventually h
  | compare scrutinee candidate start outcome stop =>
    exact (compares_iff.mp h).eventually (grows_accepts H comparer scrutinee candidate)

theorem Move.MadeBy.happens {n : Nat} {x : Move σ}
    (h : x.MadeBy (eval H n I scope) (accepts H (engine H n) comparer)) :
    x.Happens H I scope comparer := by
  cases x with
  | evaluate tree start outcome stop => exact ⟨n, h⟩
  | compare scrutinee candidate start outcome stop => exact compares_iff.mpr ⟨n, h⟩

theorem eventually_all_made {moves : List (Move σ)} (h : ∀ x ∈ moves, x.Happens H I scope comparer) :
    ∀ᶠ n in atTop, ∀ x ∈ moves, x.MadeBy (eval H n I scope) (accepts H (engine H n) comparer) :=
  (Filter.eventually_all_finite moves.finite_toSet).mpr fun x hx => (h x hx).eventually

end Happening

/-- How a switch selects. It ends exactly as its moves say:

* the value that is switched on is evaluated first;
* the tests of the cases are evaluated in turn, and each is compared with it before the next one is
  evaluated, up to the first that matches;
* then the body of that case is evaluated, or the default if no test matches, or nothing;
* what leaves early in a test or a comparison is the outcome, and no body is evaluated. Without a
  comparer values match that are equal; with one it is called with the two values, and must give a
  `bool`.

Nothing else is evaluated, and nothing twice: an evaluator and a comparison that list what they are
asked for list the moves. -/
theorem switch_selects (H : Host σ) (I : Interp) (scope : Scope) (id : Nat) (value : Expr)
    (cases : List (Case Expr)) (default : Option Expr) (comparer : Option Method) (ty : Ty)
    (m : Machine σ) :
    (∀ r m', Evaluates H I scope (.mk id (.switch value cases default comparer) ty) m (r, m') ↔
      ∃ moves, Selects ty value (armsOf cases) default m moves r m' ∧
        ∀ x ∈ moves, x.Happens H I scope comparer) ∧
    ∀ moves r m', Selects ty value (armsOf cases) default m moves r m' →
      (∀ x ∈ moves, x.Happens H I scope comparer) →
      ∀ᶠ n in atTop, (evalSwitch (fun e => listed (.part e) (eval H n I scope e))
          (fun v w => listed (.comparison v w) (accepts H (engine H n) comparer v w))
          ty value cases default).run (m.listing []) =
        some (r, m'.listing (moves.map Move.asked)) := by
  refine ⟨fun r m' => ⟨fun h => ?_, fun h => ?_⟩, fun moves r m' hselects hmoves => ?_⟩
  · obtain ⟨n, hn⟩ := evaluates_iff.mp h
    rw [evalNode_switch] at hn
    obtain ⟨moves, hselects, hmade⟩ := selects_of_run hn
    exact ⟨moves, hselects, fun x hx => (hmade x hx).happens⟩
  · obtain ⟨moves, hselects, hmoves⟩ := h
    obtain ⟨n, hmade⟩ := (eventually_all_made hmoves).exists
    refine evaluates_iff.mpr ⟨n, ?_⟩
    rw [evalNode_switch]
    have hself : ∀ x ∈ moves, x.ListedBy (fun (_ : List Asked) (k : Machine σ) => k)
        (eval H n I scope) (accepts H (engine H n) comparer) := by
      intro x hx
      have hx := hmade x hx
      cases x with
      | evaluate tree start outcome stop => exact fun _ => hx
      | compare v w start outcome stop => exact fun _ => hx
    exact hselects.run hself []
  · filter_upwards [eventually_all_made hmoves] with n hmade
    exact hselects.run (fun x hx => (hmade x hx).listed) []

namespace Sample

/-- A host that writes down which code it ran. Code 0 compares two truth values, and gives nothing for
anything else; code 1 is false and code 2 true. -/
def judging : Host (List CodeId) where
  run code _ args := .read fun log => .write (log ++ [code]) (.done (.ok (
    match code, args with
    | 0, [.bool a, .bool b] => .bool (a == b)
    | 1, _ => .bool false
    | 2, _ => .bool true
    | _, _ => .void)))
  get _ _ _ := .done (.ok .null)
  invoke _ _ _ _ := .done (.ok .null)

/-- A call of code 0. -/
def comparison : Method := .static "same" .object [.object, .object] .bool 0

def truth : Expr := .mk 50 (.constant (.bool true)) .bool

/-- A test whose value is that of the code. -/
def ask (id : Nat) (code : CodeId) : Expr :=
  .mk id (.call none (.static "ask" .object [] .bool code) []) .bool

/-- The first test gives `false`, and the others `true`. -/
def choices : List (Case Expr) :=
  [⟨[ask 51 1], note 52 5⟩, ⟨[ask 53 2, ask 54 2], note 55 3⟩]

/-- The moves of a switch on `true` with these cases. -/
def movesMade : List (Move (List CodeId)) :=
  [.evaluate truth (framesOpened 0 []) (.ok (.bool true)) (framesOpened 0 []),
    .evaluate (ask 51 1) (framesOpened 0 []) (.ok (.bool false)) (framesOpened 0 [1]),
    .compare (.bool true) (.bool false) (framesOpened 0 [1]) (.ok false) (framesOpened 0 [1, 0]),
    .evaluate (ask 53 2) (framesOpened 0 [1, 0]) (.ok (.bool true)) (framesOpened 0 [1, 0, 2]),
    .compare (.bool true) (.bool true) (framesOpened 0 [1, 0, 2]) (.ok true)
      (framesOpened 0 [1, 0, 2, 0]),
    .evaluate (note 55 3) (framesOpened 0 [1, 0, 2, 0]) (.ok .void) (framesOpened 0 [1, 0, 2, 0, 3])]

end Sample

open Sample in
/-- The second case is selected by its first test; its second test and the default are not evaluated. -/
theorem second_case_selected :
    Evaluates judging ⟨0, 8⟩ ⟨[]⟩
        (.mk 56 (.switch truth choices (some (note 57 4)) (some comparison)) .void) (framesOpened 0 [])
        (.ok .void, framesOpened 0 [1, 0, 2, 0, 3]) ∧
      ∀ᶠ n in atTop, (evalSwitch (fun e => listed (.part e) (eval judging n ⟨0, 8⟩ ⟨[]⟩ e))
          (fun v w => listed (.comparison v w) (accepts judging (engine judging n) (some comparison) v w))
          .void truth choices (some (note 57 4))).run ((framesOpened 0 []).listing []) =
        some (.ok .void, (framesOpened 0 [1, 0, 2, 0, 3]).listing
          [.part truth, .part (ask 51 1), .comparison (.bool true) (.bool false), .part (ask 53 2),
            .comparison (.bool true) (.bool true), .part (note 55 3)]) := by
  have hmissed : Missed (.bool true) [(ask 51 1, note 52 5)] (framesOpened 0 [])
      [.evaluate (ask 51 1) (framesOpened 0 []) (.ok (.bool false)) (framesOpened 0 [1]),
        .compare (.bool true) (.bool false) (framesOpened 0 [1]) (.ok false) (framesOpened 0 [1, 0])]
      (framesOpened 0 [1, 0]) := .cons (.nil _)
  have hsearch : Search (.bool true) (armsOf choices) (framesOpened 0 []) (movesMade.tail.take 4)
      (.ok (some (note 55 3))) (framesOpened 0 [1, 0, 2, 0]) := .found rfl hmissed
  have hselects : Selects .void truth (armsOf choices) (some (note 57 4)) (framesOpened 0 []) movesMade
      (.ok .void) (framesOpened 0 [1, 0, 2, 0, 3]) := .chosen (r := .ok .void) hsearch rfl
  have hmoves : ∀ x ∈ movesMade, x.Happens judging ⟨0, 8⟩ ⟨[]⟩ (some comparison) := by
    simp only [movesMade, List.forall_mem_cons]
    exact ⟨⟨3, rfl⟩, ⟨3, rfl⟩, ⟨.ok (.bool false), ⟨3, rfl⟩, rfl⟩, ⟨3, rfl⟩,
      ⟨.ok (.bool true), ⟨3, rfl⟩, rfl⟩, ⟨3, rfl⟩, List.forall_mem_nil _⟩
  obtain ⟨hiff, hlisted⟩ := switch_selects judging ⟨0, 8⟩ ⟨[]⟩ 56 truth choices (some (note 57 4))
    (some comparison) .void (framesOpened 0 [])
  exact ⟨(hiff _ _).mpr ⟨_, hselects, hmoves⟩, hlisted _ _ _ hselects hmoves⟩

end CodeTree
