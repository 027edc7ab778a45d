import CodeTree.Proofs.Fuel
import CodeTree.Proofs.Stock

/-!
# Where jumps come from

An evaluation that is left by a jump evaluated a jump node in its own tree. Nothing else makes
jumps: host code cannot, and a call ends all jumps of the lambda that it calls. So a tree without a
jump node is never left by a jump, and a jump that carries a value comes from a node that has one.

* `Run.JumpsBy` — the jumps by which an action may be left, with one rule for sequences and one
  lemma for each construct;
* `evalNode_jumpsBy` — a node that is no jump is left by the jumps of its children only.

Main statement: `jump_has_origin`.
-/

namespace CodeTree

variable {σ α β : Type}

/-- If the action is left by a jump, then by one of these, given by label and value. -/
def Run.JumpsBy (J : Label → Value → Prop) (x : Run σ α) : Prop :=
  ∀ m l v m', x.run m = some (.error (.jump l v), m') → J l v

/-- An outcome that is no jump, or one of these. -/
def Exit.MadeBy (J : Label → Value → Prop) (r : Except Exit α) : Prop :=
  ∀ l v, r = .error (.jump l v) → J l v

namespace Run.JumpsBy

variable {J : Label → Value → Prop}

/-! ## Sequences -/

theorem mono {J' : Label → Value → Prop} {x : Run σ α} (h : x.JumpsBy J)
    (hJ : ∀ l v, J l v → J' l v) : x.JumpsBy J' :=
  fun m l v _ hx => hJ l v (h m l v _ hx)

theorem pure (a : α) : (Pure.pure a : Run σ α).JumpsBy J :=
  fun _ _ _ _ h => nomatch h

theorem throw {exit : Exit} (h : ∀ l v, exit = .jump l v → J l v) :
    (MonadExcept.throw exit : Run σ α).JumpsBy J := by
  intro m l v m' hx
  cases hx
  exact h l v rfl

theorem fault (f : Fault) : (Run.fault f : Run σ α).JumpsBy J := throw nofun

/-- What follows an action is given one of its results. -/
theorem bind_of {x : Run σ α} {f : α → Run σ β} (h : x.JumpsBy J)
    (hf : ∀ m a m', x.run m = some (.ok a, m') → (f a).JumpsBy J) : (x >>= f).JumpsBy J := by
  intro m l v m' hrun
  rw [run_bind] at hrun
  obtain ⟨⟨r, m₁⟩, hx, hrest⟩ := Option.bind_eq_some_iff.mp hrun
  cases r with
  | ok a => exact hf m a m₁ hx m₁ l v m' hrest
  | error exit =>
    cases hrest
    exact h m l v _ hx

theorem bind {x : Run σ α} {f : α → Run σ β} (h : x.JumpsBy J) (hf : ∀ a, (f a).JumpsBy J) :
    (x >>= f).JumpsBy J :=
  h.bind_of fun _ a _ _ => hf a

theorem step (x : Step σ α) : (Run.step x).JumpsBy J := by
  intro m l v m' hx
  obtain ⟨y, -, hy⟩ := Option.bind_eq_some_iff.mp hx
  cases hy

/-- An outcome that is held back. -/
theorem held {x : Run σ α} {g : Except Exit α → Run σ β} (h : x.JumpsBy J)
    (hg : ∀ r, Exit.MadeBy J r → (g r).JumpsBy J) : (Run.step x.run >>= g).JumpsBy J := by
  intro m l v m' hrun
  rw [run_held_bind] at hrun
  obtain ⟨⟨r, m₁⟩, hx, hrest⟩ := Option.bind_eq_some_iff.mp hrun
  exact hg r (fun l' v' hr => h m l' v' m₁ (hr ▸ hx)) m₁ l v m' hrest

theorem resume {r : Except Exit α} (h : Exit.MadeBy J r) : (Run.resume r : Run σ α).JumpsBy J := by
  cases r with
  | ok a => exact pure a
  | error exit => exact throw fun l v hexit => h l v (by rw [hexit])

theorem raise (cls : Ty) (message : String) : (Run.raise cls message : Run σ α).JumpsBy J :=
  (step _).bind fun _ => throw nofun

theorem ofReply (reply : Reply) : (Run.ofReply reply : Run σ Value).JumpsBy J := by
  unfold Run.ofReply
  split
  · exact pure _
  · exact fault _
  · exact throw nofun

theorem expectBool (v : Value) : (CodeTree.expectBool v : Run σ Bool).JumpsBy J := by
  unfold CodeTree.expectBool
  split
  · exact pure _
  · exact fault _

/-! ## Calls -/

section Calls

variable (H : Host σ) (E : Engine σ)

theorem runScript (script : Script σ Reply) : (CodeTree.runScript E script).JumpsBy J :=
  (step _).bind ofReply

theorem dispatch (method : Method) (receiver : Option Value) (args : List Value) :
    (CodeTree.dispatch H E method receiver args).JumpsBy J := by
  unfold CodeTree.dispatch
  split
  · exact fault _
  split
  · exact raise _ _
  have hsettled : ∀ {x : Run σ Value}, x.JumpsBy J →
      (x >>= fun v => Pure.pure (settle method.ret v) : Run σ Value).JumpsBy J := fun hx =>
    hx.bind fun v => pure _
  split
  · exact hsettled (runScript E _)
  · exact hsettled (runScript E _)
  · exact hsettled (raise _ _)
  · exact hsettled (runScript E _)
  · exact hsettled (fault _)
  · exact hsettled (fault _)

theorem invokeValue (callee : Value) (args : List Value) :
    (CodeTree.invokeValue E callee args).JumpsBy J := by
  unfold CodeTree.invokeValue
  split
  · split
    · exact fault _
    · exact (step _).bind ofReply
  · exact raise _ _
  · exact fault _

theorem readMember (read : Member) (target : Value) :
    (CodeTree.readMember H E read target).JumpsBy J := by
  unfold CodeTree.readMember
  split
  · exact runScript E _
  · exact raise _ _
  · split
    · exact pure _
    · exact fault _
  · split
    · exact pure _
    · exact fault _
  · exact fault _

theorem awaitValue (v : Value) : (CodeTree.awaitValue v : Run σ Value).JumpsBy J := by
  unfold CodeTree.awaitValue
  split
  · exact ofReply _
  · exact raise _ _
  · exact fault _

theorem throwValue (v : Value) : (CodeTree.throwValue v : Run σ Value).JumpsBy J := by
  unfold CodeTree.throwValue
  split
  · exact raise _ _
  · exact throw nofun

theorem computed (x : Except Fault Value) : (Setting.computed x : Run σ Value).JumpsBy J := by
  unfold Setting.computed
  split
  · exact pure _
  · exact fault _

end Calls

/-! ## Constructs -/

section Constructs

variable {ev : Expr → Run σ Value}

theorem evalAll : ∀ {es : List Expr}, (∀ a ∈ es, (ev a).JumpsBy J) →
    (CodeTree.evalAll ev es).JumpsBy J
  | [], _ => pure _
  | a :: es, h => by
    rw [List.forall_mem_cons] at h
    exact h.1.bind fun v => (evalAll h.2).bind fun vs => pure _

theorem runStatements {onJump : Label → Value → Run σ Value}
    (hjump : ∀ l v, J l v → (onJump l v).JumpsBy J) :
    ∀ {es : List Expr} (last : Value), (∀ a ∈ es, (ev a).JumpsBy J) →
      (CodeTree.runStatements ev onJump es last).JumpsBy J
  | [], _, _ => pure _
  | a :: es, last, h => by
    rw [List.forall_mem_cons] at h
    refine h.1.held fun r hr => ?_
    cases r with
    | ok v => exact runStatements hjump v h.2
    | error exit =>
      cases exit with
      | throw v => exact throw nofun
      | jump l v => exact hjump l v (hr l v rfl)
      | fault f => exact throw nofun

theorem mem_of_afterLabel? {l : Label} {rest : List Expr} {a : Expr} :
    ∀ {body : List Expr}, afterLabel? l body = some rest → a ∈ rest → a ∈ body
  | [], h, _ => nomatch h
  | e :: es, h, ha => by
    rw [Setting.afterLabel?_cons] at h
    split at h
    · cases h
      exact List.mem_cons_of_mem _ ha
    · exact List.mem_cons_of_mem _ (mem_of_afterLabel? h ha)

theorem runBody {body : List Expr} (hbody : ∀ a ∈ body, (ev a).JumpsBy J) :
    ∀ (rounds : Nat) {rest : List Expr} (last : Value), (∀ a ∈ rest, (ev a).JumpsBy J) →
      (CodeTree.runBody ev body rounds rest last).JumpsBy J
  | 0, _, _, _ => step _
  | rounds + 1, rest, last, h => by
    refine runStatements (fun l v hl => ?_) last h
    split
    next rest hrest =>
      exact runBody hbody rounds v fun a ha => hbody a (mem_of_afterLabel? hrest ha)
    next => exact throw fun l' v' heq => by cases heq; exact hl

theorem matchesSome {accept : Value → Run σ Bool} (haccept : ∀ v, (accept v).JumpsBy J) :
    ∀ {tests : List Expr}, (∀ a ∈ tests, (ev a).JumpsBy J) →
      (CodeTree.matchesSome ev accept tests).JumpsBy J
  | [], _ => pure _
  | a :: tests, h => by
    rw [List.forall_mem_cons] at h
    refine h.1.bind fun v => (haccept v).bind fun b => ?_
    split
    · exact pure _
    · exact matchesSome haccept h.2

theorem selectCase {accept : Value → Run σ Bool} (haccept : ∀ v, (accept v).JumpsBy J) :
    ∀ {cases : List (Case Expr)}, (∀ c ∈ cases, ∀ a ∈ c.tests, (ev a).JumpsBy J) →
      (CodeTree.selectCase ev accept cases).JumpsBy J
  | [], _ => pure _
  | c :: cs, h => by
    rw [List.forall_mem_cons] at h
    refine (matchesSome haccept h.1).bind fun b => ?_
    split
    · exact pure _
    · exact selectCase haccept h.2

/-- The body that is chosen is that of a case. -/
theorem mem_of_selectCase {accept : Value → Run σ Bool} {body : Expr} {m m' : Machine σ} :
    ∀ {cases : List (Case Expr)},
      (CodeTree.selectCase ev accept cases).run m = some (.ok (some body), m') →
      ∃ c ∈ cases, c.body = body := by
  intro cases h
  induction cases generalizing m with
  | nil => cases h
  | cons c cs ih =>
    obtain ⟨found, m₁, -, hrest⟩ := ok_of_run_bind h
    cases found with
    | true =>
      cases hrest
      exact ⟨c, List.mem_cons_self, rfl⟩
    | false =>
      obtain ⟨c', hc', hbody⟩ := ih hrest
      exact ⟨c', List.mem_cons_of_mem c hc', hbody⟩

/-- A filter is never left by a jump. -/
theorem filterAccepts (filter : Option Expr) :
    (CodeTree.filterAccepts ev filter).JumpsBy J := by
  cases filter with
  | none => exact pure _
  | some a =>
    refine (step _).bind fun r => ?_
    split
    · exact pure _
    · exact fault _
    · exact pure _

theorem runHandlers {ev : Scope → Expr → Run σ Value} {scope : Scope} {exception : Value}
    {thrownTy : Ty} : ∀ {hs : List (Handler Expr)},
      (∀ h ∈ hs, ∀ s, (ev s h.body).JumpsBy J) →
      (CodeTree.runHandlers ev scope exception thrownTy hs).JumpsBy J
  | [], _ => throw nofun
  | h :: hs, hbodies => by
    rw [List.forall_mem_cons] at hbodies
    rw [CodeTree.runHandlers]
    split
    · refine (step _).bind fun inner => (step _).bind fun _ => (filterAccepts h.filter).bind fun b => ?_
      split
      · exact hbodies.1 inner
      · exact runHandlers hbodies.2
    · exact runHandlers hbodies.2

theorem evalGuarded {ev : Scope → Expr → Run σ Value} {scope : Scope} {ty : Ty} {body : Expr}
    {handlers : List (Handler Expr)} {cleanup : Option Expr} (hbody : (ev scope body).JumpsBy J)
    (hhandlers : ∀ h ∈ handlers, ∀ s, (ev s h.body).JumpsBy J)
    (hcleanup : ∀ a ∈ cleanup, (ev scope a).JumpsBy J) :
    (CodeTree.evalGuarded ev scope ty body handlers cleanup).JumpsBy J := by
  have hconcluded : ∀ r, Exit.MadeBy J r →
      (Setting.concluded (ev scope) ty cleanup r).JumpsBy J := by
    intro r hr
    have hend : (Run.resume r >>= fun v => Pure.pure (settle ty v) : Run σ Value).JumpsBy J :=
      (resume hr).bind fun v => pure _
    cases cleanup with
    | none => exact hend
    | some last => exact (hcleanup last rfl).bind fun _ => hend
  refine hbody.held fun r hr => ?_
  cases r with
  | ok v => exact hconcluded (.ok v) hr
  | error exit =>
    cases exit with
    | throw exception =>
      cases hty : exception.runtimeTy? with
      | some thrownTy =>
        simp only [hty]
        exact (runHandlers hhandlers).held hconcluded
      | none =>
        simp only [hty]
        exact hconcluded _ hr
    | jump l v => exact hconcluded _ hr
    | fault f => exact hconcluded _ hr

theorem iterate {x : Run σ Value} {breakLabel continueLabel : Option Label} (hx : x.JumpsBy J) :
    ∀ rounds, (CodeTree.iterate x breakLabel continueLabel rounds).JumpsBy J
  | 0 => step _
  | rounds + 1 => by
    refine hx.held fun r hr => ?_
    cases r with
    | ok v => exact iterate hx rounds
    | error exit =>
      cases exit with
      | throw v => exact throw nofun
      | fault f => exact throw nofun
      | jump l v =>
        dsimp only
        split
        · exact pure _
        split
        · exact iterate hx rounds
        · exact throw fun l' v' heq => by cases heq; exact hr l v rfl

theorem evalBinary {op : BinaryOp} {a b : Expr} (ha : (ev a).JumpsBy J) (hb : (ev b).JumpsBy J) :
    (CodeTree.evalBinary ev op a b).JumpsBy J := by
  have hright : (do
      let r ← ev b
      let c ← CodeTree.expectBool r
      Pure.pure (Value.bool c) : Run σ Value).JumpsBy J :=
    hb.bind fun r => (expectBool r).bind fun c => pure _
  by_cases hand : op = .andAlso
  · subst hand
    refine ha.bind fun l => (expectBool l).bind fun c => ?_
    split
    · exact hright
    · exact pure _
  by_cases hor : op = .orElse
  · subst hor
    refine ha.bind fun l => (expectBool l).bind fun c => ?_
    split
    · exact pure _
    · exact hright
  rw [Setting.evalBinary_of_ne hand hor]
  exact ha.bind fun l => hb.bind fun r => computed _

end Constructs

end Run.JumpsBy

/-! ## Nodes -/

/-- The jump of a node: to its label, with its value, or with `void` if it has none. -/
def Expr.Jumps (g : Expr) (l : Label) (v : Value) : Prop :=
  ∃ kind value, g.shape = .jump kind l value ∧ (value = none → v = .void)

namespace Run.JumpsBy

/-- A node is left by the jumps of its children, in whatever scope, and by its own. -/
theorem evalNode (H : Host σ) {E : Engine σ} {I : Interp} {scope : Scope} {e : Expr}
    {J : Label → Value → Prop} (hself : ∀ l v, e.Jumps l v → J l v)
    (h : ∀ a ∈ e.children, ∀ s, (E.eval I s a).JumpsBy J) :
    (CodeTree.evalNode H E I scope e).JumpsBy J := by
  have hchild : ∀ {s : Shape Value Expr}, e.shape = s → ∀ a ∈ s.children, ∀ t,
      (E.eval I t a).JumpsBy J := fun hs a ha => h a ((Expr.mem_children hs).mpr ha)
  unfold CodeTree.evalNode
  cases hshape : e.shape with
  | empty => exact pure _
  | constant v => exact pure _
  | parameter p =>
    refine (step _).bind fun v => ?_
    split
    · exact pure _
    · exact fault _
  | block locals body =>
    have hbody := hchild hshape
    refine (step _).bind fun inner => (step _).bind fun _ => ?_
    exact (runBody (fun a ha => hbody a ha inner) _ _ fun a ha => hbody a ha inner).bind fun v =>
      pure _
  | conditional test a b =>
    have hparts := hchild hshape
    simp only [Shape.children, List.forall_mem_cons] at hparts
    refine (hparts.1 scope).bind fun t => (expectBool t).bind fun c => ?_
    dsimp only
    split
    · exact (hparts.2.1 scope).bind fun v => pure _
    · exact (hparts.2.2.1 scope).bind fun v => pure _
  | switch value cases default comparer =>
    have hparts := hchild hshape
    simp only [Shape.children, List.forall_mem_cons, List.forall_mem_append, List.mem_flatMap,
      Case.children] at hparts
    obtain ⟨hvalue, hcases, hdefault⟩ := hparts
    refine (hvalue scope).bind fun x => ?_
    have haccept : ∀ v, Run.JumpsBy J (accepts H E comparer x v) := by
      intro v
      cases comparer with
      | none => exact pure _
      | some method => exact (dispatch H E method none _).bind expectBool
    refine (selectCase haccept fun c hc a ha =>
      hcases a ⟨c, hc, List.mem_append_left _ ha⟩ scope).bind_of fun _ chosen _ hchosen => ?_
    have hbody : ∀ b, (chosen <|> default) = some b → (E.eval I scope b).JumpsBy J := by
      intro b hb
      cases chosen with
      | none => exact hdefault b (Option.mem_toList.mpr hb) scope
      | some b' =>
        obtain ⟨c, hc, hcb⟩ := mem_of_selectCase hchosen
        cases hb
        exact hcases b ⟨c, hc, List.mem_append_right _ (hcb ▸ List.mem_singleton_self _)⟩ scope
    split
    next b hb => exact (hbody b hb).bind fun v => pure _
    next => exact pure _
  | guarded body handlers cleanup =>
    have hparts := hchild hshape
    simp only [Shape.children, List.forall_mem_cons, List.forall_mem_append, List.mem_flatMap,
      Handler.children] at hparts
    obtain ⟨hbody, hhandlers, hcleanup⟩ := hparts
    refine evalGuarded (hbody scope) (fun k hk s => ?_) fun a ha =>
      hcleanup a (Option.mem_toList.mpr ha) scope
    exact hhandlers k.body ⟨k, hk, List.mem_append_right _ (List.mem_singleton_self _)⟩ s
  | throw value =>
    cases value with
    | some a => exact (hchild hshape a (List.mem_singleton_self a) scope).bind throwValue
    | none =>
      dsimp only
      split
      · exact throwValue _
      · exact fault _
  | call receiver method args =>
    have hparts := hchild hshape
    simp only [Shape.children, List.forall_mem_append] at hparts
    have hcall : ∀ self, (CodeTree.evalAll (E.eval I scope) args >>= fun vs =>
        CodeTree.dispatch H E method self vs).JumpsBy J := fun self =>
      (evalAll fun a ha => hparts.2 a ha scope).bind fun vs => dispatch H E method self vs
    cases receiver with
    | none => exact hcall none
    | some r =>
      dsimp only
      split
      · exact hcall none
      · exact ((hparts.1 r (List.mem_singleton_self r) scope).bind fun v => pure _).bind hcall
  | construct ctor args =>
    exact (evalAll fun a ha => hchild hshape a ha scope).bind fun vs => runScript E _
  | invoke target args =>
    have hparts := hchild hshape
    simp only [Shape.children, List.forall_mem_cons] at hparts
    exact (hparts.1 scope).bind fun callee =>
      (evalAll fun a ha => hparts.2 a ha scope).bind fun vs => invokeValue E callee vs
  | member target read =>
    cases target with
    | some a => exact (hchild hshape a (List.mem_singleton_self a) scope).bind (readMember H E read)
    | none => exact fault _
  | convert kind a =>
    refine (hchild hshape a (List.mem_singleton_self a) scope).bind fun v => ?_
    split
    · exact pure _
    · exact raise _ _
  | typeIs a testTy =>
    exact (hchild hshape a (List.mem_singleton_self a) scope).bind fun v => pure _
  | unary op a =>
    exact (hchild hshape a (List.mem_singleton_self a) scope).bind fun v => computed (op.apply v)
  | binary op a b =>
    have hparts := hchild hshape
    simp only [Shape.children, List.forall_mem_cons] at hparts
    exact evalBinary (hparts.1 scope) (hparts.2.1 scope)
  | assign target a =>
    refine (hchild hshape a (List.mem_singleton_self a) scope).bind fun v => (step _).bind fun b => ?_
    split
    · exact pure _
    · exact fault _
  | lambda params body => exact (step _).bind fun index => pure _
  | await a => exact (hchild hshape a (List.mem_singleton_self a) scope).bind awaitValue
  | newArray elem items =>
    exact (evalAll fun a ha => hchild hshape a ha scope).bind fun vs => (step _).bind fun id => pure _
  | jump kind target value =>
    cases value with
    | some a =>
      refine (hchild hshape a (List.mem_singleton_self a) scope).bind fun v => throw ?_
      rintro l u ⟨rfl, rfl⟩
      exact hself target v ⟨kind, some a, hshape, fun h => absurd h (Option.some_ne_none a)⟩
    | none =>
      refine throw ?_
      rintro l u ⟨rfl, rfl⟩
      exact hself target .void ⟨kind, none, hshape, fun _ => rfl⟩
  | label target default =>
    cases default with
    | some a => exact hchild hshape a (List.mem_singleton_self a) scope
    | none => exact pure _
  | loop body breakLabel continueLabel =>
    exact iterate (hchild hshape body (List.mem_singleton_self body) scope) E.rounds

end Run.JumpsBy

/-- A jump that leaves the evaluation of a tree is that of a node in it. -/
theorem eval_jumpsBy (H : Host σ) (I : Interp) : ∀ (fuel : Nat) (scope : Scope) (e : Expr),
    (eval H fuel I scope e).JumpsBy fun l v => ∃ g ∈ e.nodes, g.Jumps l v
  | 0, _, _ => by
    rw [eval]
    exact Run.JumpsBy.step _
  | fuel + 1, scope, e => by
    rw [eval]
    refine Run.JumpsBy.evalNode H (fun l v h => ⟨e, e.mem_nodes_self, h⟩) fun a ha s => ?_
    refine (eval_jumpsBy H I fuel s a).mono fun l v h => ?_
    obtain ⟨g, hg, hjumps⟩ := h
    exact ⟨g, Expr.mem_nodes_of_child ha hg, hjumps⟩

section Origins

variable {H : Host σ} {I : Interp} {scope : Scope} {l : Label} {v : Value} {m m' : Machine σ}

theorem jump_has_origin {e : Expr} (h : Evaluates H I scope e m (.error (.jump l v), m')) :
    ∃ g ∈ e.nodes, g.Jumps l v := by
  obtain ⟨n, hn⟩ := h
  exact eval_jumpsBy H I n scope e m l v m' hn

/-- A jump that leaves the rest of a body is that of a node in one of the statements. -/
theorem BodyEnds.jump_has_origin {body rest : List Expr} {last : Value} (hrest : ∀ a ∈ rest, a ∈ body)
    (h : BodyEnds H I scope body rest last m (.error (.jump l v), m')) :
    ∃ e ∈ body, ∃ g ∈ e.nodes, g.Jumps l v := by
  obtain ⟨n, k, hn⟩ := h
  have hbody : ∀ a ∈ body, (eval H n I scope a).JumpsBy fun l v =>
      ∃ e ∈ body, ∃ g ∈ e.nodes, g.Jumps l v := fun a ha =>
    (eval_jumpsBy H I n scope a).mono fun l v hg => ⟨a, ha, hg⟩
  exact Run.JumpsBy.runBody hbody k last (fun a ha => hbody a (hrest a ha)) m l v m' hn

end Origins

end CodeTree
