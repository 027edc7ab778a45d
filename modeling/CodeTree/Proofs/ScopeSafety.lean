import CodeTree.Proofs.ScopeIndependence
import CodeTree.Proofs.Whole

/-!
# Scoping is safe at run time

In a well-scoped tree every variable stands under a declaration of it, and at run time every
variable is then found: no fault of an unbound variable arises, in the tree or in a closure that
outlives the block that made it, whatever host code calls and whenever it does.

* `Closure.Safe`, `Machine.Safe` — the invariant: what a closure's body needs is declared in
  the frames of its scope, and no value that is kept holds a fault of an unbound variable;
* `eval_safe`, `apply_safe` — evaluations and calls keep it, and end without such a fault;
* `Host.noted` — a host that writes down every reply it gets.

Main statements: `wellScoped_never_unbound` and `compiled_never_unbound`.
-/

namespace CodeTree

variable {σ : Type}

/-- Not the fault of an unbound variable. -/
def Fault.Bound (f : Fault) : Prop := ∀ name, f ≠ .unboundParameter name

/-! ## The invariant -/

/-- What the body of a closure needs is there: it is scoped in a context whose variables are
parameters or bound in the frames of its scope. -/
structure Closure.Safe (st : Store) (c : Closure) : Prop where
  constants : c.body.Constants (Value.Allowed Fault.Bound)
  body : ∃ ctx : Context, c.body.isScoped ctx ∧
    (∀ p ∈ ctx.bound, (∃ q ∈ c.params, q.id = p.id) ∨
      ∃ link ∈ c.scope.links, ((st.frame link.frame).get? p.id).isSome) ∧
    (ctx.rethrow → ∀ v ∈ c.scope.currentException?, v.Allowed Fault.Bound)

/-- No fault of an unbound variable is kept in the machine, and none will come from its
closures. -/
structure Machine.Safe (P : σ → Prop) (m : Machine σ) : Prop where
  host : P m.host
  store : ∀ f, ∀ x ∈ m.store.frame f, x.2.Allowed Fault.Bound
  closures : ∀ (i : Nat) (c : Closure), m.closures[i]? = some c → c.Safe m.store

/-- A machine that has done nothing yet is safe. -/
theorem Machine.safe_initial {P : σ → Prop} {host : σ} (h : P host) :
    (Machine.initial host).Safe P where
  host := h
  store f x hx := by
    rw [show (Machine.initial host).store.frame f = [] from Store.frame_of_size_le (Nat.zero_le f)]
      at hx
    cases hx
  closures i c hc := nomatch hc

/-- The mirror without faults of unbound variables. -/
abbrev guarded (P : σ → Prop) : Setting σ := mirror P Fault.Bound (fun _ h => h) 0 0

section Invariant

variable {P : σ → Prop} {m : Machine σ}

/-- A scope as it is covers a context whose variables it binds. -/
theorem Scope.covers_self {st : Store} {w : World}
    (hw : ∀ f id, ((st.frame f).get? id).isSome → w.declared f id) (hsince : World.since 0 ≤ w)
    {s : Scope} {ctx : Context}
    (hbound : ∀ p ∈ ctx.bound, ∃ link ∈ s.links, w.declared link.frame p.id ∨
      ((st.frame link.frame).get? p.id).isSome)
    (hhandled : ctx.rethrow → ∀ v ∈ s.currentException?, v.Allowed Fault.Bound) :
    Scope.Covers Fault.Bound w ctx s s := by
  refine ⟨⟨s.links, s.links, [], [], (List.append_nil _).symm, (List.append_nil _).symm, ?_, ?_⟩, ?_⟩
  · exact List.forall₂_same.mpr fun link _ => World.le_frames hsince ⟨rfl, Nat.zero_le _⟩
  · intro p hp
    obtain ⟨link, hlink, hdeclared⟩ := hbound p hp
    exact ⟨link, hlink, hdeclared.elim (fun h => h) (hw _ _)⟩
  · exact fun hc => optionRel_self fun v hv => .of_since hsince (hhandled hc v hv)

theorem Closure.Safe.like {c : Closure} (h : c.Safe m.store) :
    (guarded P).ClosureLike (World.of 0 m) c c := by
  obtain ⟨hconstants, ctx, hscoped, hbound, hhandled⟩ := h
  refine ⟨rfl, rfl, rfl, fun w hw f g hfg hdeclared => ?_⟩
  have hsince := le_trans (World.since_le_of m) hw
  obtain rfl := Pairing.eq_of_since (fun _ _ => World.le_frames hsince) (Nat.zero_le f) hfg
  refine ⟨hsince, .inl ⟨rfl, rfl, ?_, ctx, hscoped, ?_⟩⟩
  · exact fun n hn v hv => .of_since hsince (hconstants n hn v hv)
  · refine Scope.covers_self (fun f id h => World.le_declared hw h) hsince ?_ hhandled
    intro p hp
    rcases hbound p hp with ⟨q, hq, hid⟩ | ⟨link, hlink, hsome⟩
    · exact ⟨⟨f, none⟩, List.mem_cons_self, .inl (hid ▸ hdeclared q hq)⟩
    · exact ⟨link, List.mem_cons_of_mem _ hlink, .inr hsome⟩

/-- A safe machine stands beside itself. -/
theorem Machine.Safe.similar (h : m.Safe P) :
    (guarded P).Similar (World.of 0 m) (m.depths, m.depths) m m :=
  mirror_similar h.host (Nat.zero_le _) (fun f _ => h.store f) fun i _ c hc => (h.closures i c hc).like

/-- A closure that corresponds to itself is safe. -/
theorem Closure.safe_of_like {w : World} {d : Array Nat × Array Nat}
    (hm : (guarded P).Similar w d m m) {c : Closure} (h : (guarded P).ClosureLike w c c) :
    c.Safe m.store := by
  -- the body in a frame that has the parameters and nothing else
  let f := m.store.frames.size
  let w' : World := { w with declared := fun g id => w.declared g id ∨
    (g = f ∧ ∃ q ∈ c.params, q.id = id) }
  have hw : w ≤ w' := ⟨fun _ _ h => h, fun _ _ h => h, fun _ _ h => h, fun _ h => h, fun _ _ => .inl⟩
  obtain ⟨-, hsame | ⟨hall, -⟩⟩ := h.body w' hw f f
    (World.le_frames (le_trans hm.above hw) ⟨rfl, Nat.zero_le f⟩) fun p hp => .inr ⟨rfl, p, hp, rfl⟩
  · obtain ⟨-, -, hconstants, ctx, hscoped, hcovers⟩ := hsame
    obtain ⟨⟨inner₁, -, outer₁, -, hlinks, -, -, hbound⟩, hhandled⟩ := hcovers
    refine ⟨fun n hn v hv => (hconstants n hn v hv).allowed, ctx, hscoped, fun p hp => ?_,
      fun hc => optionValue_allowed (hhandled hc)⟩
    obtain ⟨link, hlink, hdeclared | ⟨-, hparam⟩⟩ := hbound p hp
    · have hsome := hm.declared link.frame p.id hdeclared
      have hmem : link ∈ (c.scope.extended f none).links := by
        rw [hlinks]
        exact List.mem_append_left _ hlink
      rcases List.mem_cons.mp hmem with rfl | hmem
      · exact absurd (Store.lt_size_of_isSome_get? hsome) (Nat.lt_irrefl _)
      · exact .inr ⟨link, hmem, hsome⟩
    · exact .inl hparam
  · exact absurd rfl (hall (.unboundParameter "") "")

/-- A machine that stands beside itself is safe. -/
theorem Machine.safe_of_similar {w : World} {d : Array Nat × Array Nat}
    (hm : (guarded P).Similar w d m m) : m.Safe P where
  host := hm.host.2
  store f x hx := by
    have hlike := hm.bindings f f (World.le_frames hm.above ⟨rfl, Nat.zero_le f⟩)
    obtain ⟨i, hi, rfl⟩ := List.getElem_of_mem hx
    exact (List.forall₂_iff_get.mp hlike).2 i hi hi |>.2.allowed
  closures i c hc := by
    obtain ⟨c', hc', hlike⟩ := hm.made i i (World.le_closures hm.above rfl) (Nat.zero_le i) c hc
    rw [hc] at hc'
    cases hc'
    exact Closure.safe_of_like hm hlike

end Invariant

/-! ## Runs keep the invariant -/

/-- The permission to evaluate a variable, or an assignment to one, only where the variable is
found. -/
def Permission.found : Permission σ where
  visit m scope e :=
    match e.shape with
    | .parameter p => (m.store.owner? scope p.id).isSome
    | .assign p _ => (m.store.owner? scope p.id).isSome
    | _ => true
  call _ _ := true

section Runs

variable {P : σ → Prop} {H : Host σ} {m m' : Machine σ} {fuel : Nat}

end Runs

/-! ## Replies to host code -/

/-- The same host code, which also writes down every reply it gets. -/
def Script.noted {σ α : Type} : Script σ α → Script (σ × List Reply) α
  | .done a => .done a
  | .read next => .read fun s => (next s.1).noted
  | .write s next => .read fun t => .write (s, t.2) next.noted
  | .fresh next => .fresh fun id => (next id).noted
  | .call callee args next => .call callee args fun reply =>
      .read fun t => .write (t.1, reply :: t.2) (next reply).noted

/-- The same host, which also writes down every reply its code gets. -/
def Host.noted (H : Host σ) : Host (σ × List Reply) where
  run code self args := (H.run code self args).noted
  get handle self name := (H.get handle self name).noted
  invoke handle self name args := (H.invoke handle self name args).noted

/-- The same machine, with no reply written down yet. -/
def Machine.noting (m : Machine σ) : Machine (σ × List Reply) :=
  ⟨m.next, m.store, m.closures, m.depths, (m.host, [])⟩

/-- The state satisfies a condition, and the replies that were written down are allowed. -/
def Noted (P : σ → Prop) (ok : Fault → Prop) (s : σ × List Reply) : Prop :=
  P s.1 ∧ ∀ reply ∈ s.2, Reply.Allowed ok reply

theorem Script.Keeps.noted {α : Type} {P : σ → Prop} {ok : Fault → Prop} {Q : α → Prop}
    {s : Script σ α} (h : s.Keeps P ok Q) : s.noted.Keeps (Noted P ok) ok Q := by
  induction h with
  | done result => exact .done result
  | read _ ih => exact .read fun s hs => ih s.1 hs.1
  | write state _ ih => exact .read fun t ht => .write ⟨state, ht.2⟩ ih
  | fresh _ ih => exact .fresh fun id => ih id
  | call given _ ih =>
    refine .call given fun r hr => .read fun t ht => .write ⟨ht.1, ?_⟩ (ih r hr)
    exact List.forall_mem_cons.mpr ⟨hr, ht.2⟩

theorem Host.Keeps.noted {P : σ → Prop} {ok : Fault → Prop} {H : Host σ} (h : H.Keeps P ok) :
    H.noted.Keeps (Noted P ok) ok where
  run code self args hself hargs := (h.run code self args hself hargs).noted
  get handle self name hself := (h.get handle self name hself).noted
  invoke handle self name args hself hargs := (h.invoke handle self name args hself hargs).noted

namespace Sample

/-- Host code that calls what it is handed and passes on what comes of it. -/
def obliging : Host Unit where
  run _ _ args :=
    match args with
    | [.func callback _ _] => .call callback [] .done
    | _ => .done (.ok .null)
  get _ _ _ := .done (.ok .null)
  invoke _ _ _ _ := .done (.ok .null)

/-- The host is handed a closure that has outlived the block of its variable. -/
def handedClosure : Expr :=
  .mk 5 (.call none (.static "call" .object [.func [] .int] .int 0) [escapingClosure]) .int

theorem obliging_keeps : obliging.Keeps (fun _ => True) Fault.Bound where
  run _ _ args _ _ := by
    have hnull : (Script.done (.ok .null) : Script Unit Reply).Keeps (fun _ => True) Fault.Bound
        (Reply.Allowed Fault.Bound) := .done fun _ h => nomatch h
    show Script.Keeps _ _ _ (obliging.run _ _ args)
    unfold obliging
    dsimp only
    split
    · exact .call (List.forall_mem_nil _) fun r hr => .done hr
    · exact hnull
  get _ _ _ _ := .done fun _ h => nomatch h
  invoke _ _ _ _ _ _ := .done fun _ h => nomatch h

/-- The tree and the tree in it have no constants. -/
theorem handedClosure_constants : handedClosure.Constants (Value.Allowed Fault.Bound) := by
  intro n hn v hv
  have hnodes : n ∈ [handedClosure, escapingClosure, _, _] := hn
  rcases hnodes with _ | ⟨_, _ | ⟨_, _ | ⟨_, _ | ⟨_, hnodes⟩⟩⟩⟩
  · cases hv
  · cases hv
  · cases hv
  · cases hv
  · cases hnodes

end Sample

namespace Expr

/-- A child is in a context of the declarations of its layer and of those around it. -/
theorem mem_bindings_of_extend {s : Shape Value Expr} {q : Position} {a : Expr}
    (h : (q, a) ∈ s.positions) {c : Context} {p : Param} (hp : p ∈ (q.extend c).bound) :
    p ∈ s.bindings ++ c.bound := by
  have hextend : (q.extend c).bound = q.declared ++ c.bound := by cases q <;> rfl
  rw [hextend] at hp
  exact List.mem_append.mpr
    ((List.mem_append.mp hp).imp_left fun hp => Shape.mem_bindings_of_declared h hp)

/-- A scoped tree has no free variables below the declarations of its context. -/
theorem freeFrom_of_isScoped (e : Expr) : ∀ {c : Context} {bound : List Param},
    e.isScoped c → (∀ p ∈ c.bound, p ∈ bound) → ∀ seen, e.freeFrom bound seen = seen := by
  induction e using Expr.induction with
  | step e ih =>
    intro c bound hscoped hsub seen
    obtain ⟨id, s, ty⟩ := e
    have hchild : ∀ a ∈ s.children, ∀ seen, a.freeFrom (s.bindings ++ bound) seen = seen := by
      intro a ha seen
      obtain ⟨q, hq⟩ : ∃ q, (q, a) ∈ s.positions := by
        rw [← s.map_positions] at ha
        obtain ⟨⟨q, b⟩, hq, rfl⟩ := List.mem_map.mp ha
        exact ⟨q, hq⟩
      refine ih a ha (isScoped_child hscoped hq) (fun p hp => ?_) seen
      rcases List.mem_append.mp (mem_bindings_of_extend hq hp) with h | h
      · exact List.mem_append_left _ h
      · exact List.mem_append_right _ (hsub p h)
    -- children add nothing to what has been seen, whatever that is
    have hfold : ∀ (as : List Expr), (∀ a ∈ as, a ∈ s.children) → ∀ seen,
        as.foldl (fun seen child => child.freeFrom (s.bindings ++ bound) seen) seen = seen := by
      intro as
      induction as with
      | nil => exact fun _ _ => rfl
      | cons a as ih' =>
        intro hmem seen
        rw [List.foldl_cons, hchild a (hmem a List.mem_cons_self)]
        exact ih' (fun b hb => hmem b (List.mem_cons_of_mem _ hb)) seen
    rw [freeFrom_mk]
    split
    · next p =>
      obtain ⟨q, hq, hid⟩ := isAmong_iff.mp (isScoped_layer hscoped)
      have hbound : isAmong p bound := isAmong_iff.mpr ⟨q, hsub q hq, hid⟩
      rw [hbound, Bool.true_or, if_pos rfl]
    · exact hfold s.children (fun _ h => h) seen

end Expr

/-- A lambda whose body is scoped below its parameters. -/
structure Compiled.Scoped (c : Compiled) : Prop where
  body : c.body.isScoped ⟨c.params, true⟩
  constants : c.body.Constants (Value.Allowed Fault.Bound)

/-- A well-scoped tree compiles, to a lambda that is scoped. -/
theorem compile_of_isWellScoped (I : Interp) {e : Expr} (he : e.isWellScoped)
    (hconstants : e.Constants (Value.Allowed Fault.Bound)) :
    ∃ c, compile I e = .ok c ∧ c.Scoped := by
  have hfree : ∀ c : Compiled, c.Scoped → c.body.freeUnder c.params = [] :=
    fun c hc => Expr.freeFrom_of_isScoped _ hc.body (fun _ h => h) []
  -- the body of a lambda stands under its parameters; any other tree is a body as it is
  unfold compile
  split
  · next params body hshape =>
    have hmem : (.under params, body) ∈ e.shape.positions := by
      rw [hshape]
      exact List.mem_singleton_self _
    have hbody := Expr.isScoped_child he hmem
    rw [Position.extend, List.append_nil] at hbody
    have hinner := hconstants.child (Shape.mem_children_of_mem_positions hmem)
    dsimp only
    rw [hfree ⟨I, params, body, e.ty⟩ ⟨hbody, hinner⟩]
    exact ⟨_, rfl, hbody, hinner⟩
  · dsimp only
    rw [hfree ⟨I, [], e, e.ty⟩ ⟨he, hconstants⟩]
    exact ⟨_, rfl, he, hconstants⟩

/-- The result of a whole evaluation is not the fault of an unbound variable, and a value that
was thrown holds none. -/
def EvalError.Allowed (ok : Fault → Prop) : EvalError → Prop
  | .fault f => ok f
  | .unhandled _ v => v.Allowed ok

/-- A scoped lambda in a scope of its own corresponds to itself. -/
theorem Compiled.Scoped.closureLike {P : σ → Prop} {c : Compiled} (hc : c.Scoped) {w : World}
    (hsince : World.since 0 ≤ w) {scope : Scope} (hscope : scope.currentException? = none) :
    (guarded P).ClosureLike w ⟨c.params, c.body, c.ret, scope, c.interp⟩
      ⟨c.params, c.body, c.ret, scope, c.interp⟩ := by
  refine ⟨rfl, rfl, rfl, fun w' hw f g hfg hdeclared => ?_⟩
  have hsince' := le_trans hsince hw
  obtain rfl := Pairing.eq_of_since (fun _ _ => World.le_frames hsince') (Nat.zero_le f) hfg
  refine ⟨hsince', .inl ⟨rfl, rfl, ?_, _, hc.body, ?_⟩⟩
  · exact fun n hn v hv => .of_since hsince' (hc.constants n hn v hv)
  · refine (Scope.Covers.nothing Fault.Bound w' scope scope).extended hfg c.params hdeclared
      (List.append_nil _).symm fun _ => ?_
    show Option.Rel _ scope.currentException? scope.currentException?
    rw [hscope]
    exact .none

/-- A lambda that is scoped runs without a fault of an unbound variable, and leaves the machine
safe to run it again. -/
theorem Compiled.Scoped.invoke_safe {P : σ → Prop} {H : Host σ} (hH : H.Keeps P Fault.Bound)
    {c : Compiled} (hc : c.Scoped) {fuel : Nat} {args : List Value}
    (hargs : ∀ v ∈ args, v.Allowed Fault.Bound) {m m' : Machine σ} (hm : m.Safe P)
    {r : Except EvalError Value} (h : c.invoke H fuel args m = some (r, m')) :
    (∀ error, r = .error error → error.Allowed Fault.Bound) ∧ m'.Safe P := by
  have hE : (guarded P).EngineLike (engine H fuel) (engine H fuel) := mirror_engines hH fuel
  have hHost : (guarded P).HostLike H := mirror_host hH
  have hsteps : (guarded P).Steps (m.depths, m.depths) (World.of 0 m)
      (fun w => ResultLike w Fault.Bound) (c.invoke H fuel args) (c.invoke H fuel args) := by
    unfold Compiled.invoke
    split
    · exact Setting.Steps.pure (.error (.fault fun _ h => nomatch h))
    · refine Setting.Steps.bind (Setting.Steps.push ⟨[]⟩ ⟨[]⟩ none none) fun w hw s t hst => ?_
      obtain ⟨f, g, hfg, -, rfl, rfl⟩ := hst
      have hsince := le_trans (World.since_le_of m) hw
      obtain rfl := Pairing.eq_of_since (fun _ _ => World.le_frames hsince) (Nat.zero_le f) hfg
      exact Setting.Steps.finish hHost hE (Setting.Runs.callClosure hE (hc.closureLike hsince rfl)
        trivial (ValuesLike.of_since hsince hargs))
  obtain ⟨r', k, w, hk, -, hsim, -, -, hr⟩ := hsteps m m hm.similar r m' h
  cases hk.symm.trans h
  refine ⟨fun error herror => ?_, Machine.safe_of_similar hsim⟩
  subst herror
  cases hr with
  | error hlike =>
    cases hlike with
    | fault allowed => exact allowed
    | unhandled description thrown => exact thrown.allowed

/-- Every well-scoped tree compiles, and no run of it on a safe machine ends with the fault of an
unbound variable, however often it is run. -/
theorem compiled_never_unbound (I : Interp) {e : Expr} (he : e.isWellScoped)
    (hconstants : e.Constants (Value.Allowed Fault.Bound)) :
    ∃ c, compile I e = .ok c ∧
      ∀ (σ : Type) (H : Host σ) (P : σ → Prop), H.Keeps P Fault.Bound →
      ∀ fuel args m, (∀ v ∈ args, v.Allowed Fault.Bound) → m.Safe P →
      ∀ r m', c.invoke H fuel args m = some (r, m') →
        (∀ name, r ≠ .error (.fault (.unboundParameter name))) ∧ m'.Safe P := by
  obtain ⟨c, hcompile, hc⟩ := compile_of_isWellScoped I he hconstants
  refine ⟨c, hcompile, fun σ H P hH fuel args m hargs hm r m' h => ?_⟩
  obtain ⟨herror, hm'⟩ := hc.invoke_safe hH hargs hm h
  exact ⟨fun name hr => herror _ hr name rfl, hm'⟩

open Sample in
/-- The tree compiles, and the host's call finds the variable when it is run. -/
theorem handedClosure_compiles :
    handedClosure.isWellScoped = true ∧
      ∃ c m', compile ⟨0, 8⟩ handedClosure = .ok c ∧
        c.invoke obliging 10 [] (.initial ()) = some (.ok (.int 0), m') ∧
        m'.Safe fun _ => True := by
  have hscoped : handedClosure.isWellScoped = true := by decide
  obtain ⟨c, hcompile, hc⟩ := compiled_never_unbound ⟨0, 8⟩ hscoped handedClosure_constants
  cases hcompile
  have hrun := hc Unit obliging _ obliging_keeps 10 [] (.initial ()) (List.forall_mem_nil _)
    (Machine.safe_initial trivial) _ _ rfl
  exact ⟨hscoped, _, _, rfl, rfl, hrun.2⟩

/-- The target of an assignment does not count as free: this lambda compiles, and its run ends
with the fault of an unbound variable. -/
theorem compiled_assignment_unbound :
    ∃ c m', compile ⟨0, 8⟩ Sample.assigningLambda = .ok c ∧
      c.invoke Sample.silent 6 [] Sample.machine =
        some (.error (.fault (.unboundParameter "x")), m') :=
  ⟨_, _, rfl, rfl⟩

end CodeTree
