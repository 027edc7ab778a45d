import CodeTree.Builder.Guard
import CodeTree.Proofs.Pinned
import CodeTree.Proofs.Sequence

/-!
# Resources are disposed of once

`usingResource` keeps a resource in a variable of its own, runs a body, and disposes of what the
variable holds when the body is left. The tree it makes is a block around a guarded region
(`Using`). In between, anything may happen: the body runs host code, makes closures and leaves
jumps, exceptions and faults behind. What it cannot do is write the variable, as long as it
never assigns to it, so the last part finds the resource there (`Pin.Holds.eval`).

* `usingResource_run` — what a successful construction makes;
* `Run.bracket` — acquire, use, release once;
* `Disposes.run`, `Using.run` — the last part is one call of `dispose` on the value of the variable,
  and the whole tree is a bracket.

Main statement: `using_disposes_once`.
-/

namespace CodeTree

variable {σ : Type}

/-! ## The tree -/

/-- Actions that work on a machine while they build. -/
abbrev Construction (σ : Type) := ExceptT BuildError (Step σ)

instance : MonadLift Build (Construction σ) := ⟨fun act => ExceptT.mk (Step.make act.run)⟩

/-- A call of `dispose` on what a variable holds, which is converted unless its type is that of
disposable things already. -/
inductive Disposes (p : Param) : Expr → Prop
  | plain (call ref : Nat) (ty : Ty) :
      Disposes p (.mk call (.call (some (.mk ref (.parameter p) ty)) .dispose []) .void)
  | converted (call cast ref : Nat) (ty : Ty) :
      Disposes p (.mk call (.call (some (.mk cast (.convert .cast (.mk ref (.parameter p) ty))
        .disposable)) .dispose []) .void)

/-- A block that keeps a resource in a variable, around a body after which the variable's value is
disposed of. -/
inductive Using (p : Param) (resource body : Expr) : Expr → Prop
  | mk (outer first region : Nat) {last : Expr} (dispose : Disposes p last) :
      Using p resource body (.mk outer (.block [p] [.mk first (.assign p resource) p.ty,
        .mk region (.guarded body [] (some last)) body.ty]) body.ty)

/-- A block builder makes blocks. -/
theorem BlockBuilder.shape_of_build {b : BlockBuilder} {n n' : Nat} {e : Expr}
    (h : b.build.run n = (.ok e, n')) : ∃ locals body, e.shape = .block locals body := by
  have htyped : ∀ ty locals body, ∃ lines,
      ((Expr.typedBlock ty locals body) n).1.shape = .block locals lines := by
    intro ty locals body
    cases body with
    | nil => exact ⟨_, rfl⟩
    | cons first rest => exact ⟨_, rfl⟩
  obtain ⟨ret, locals, lines, error⟩ := b
  cases error with
  | some error => cases h
  | none =>
    cases ret with
    | some ret =>
      obtain ⟨lines', hlines⟩ := htyped ret locals lines
      cases h
      exact ⟨locals, lines', hlines⟩
    | none =>
      obtain ⟨lines', hlines⟩ := htyped ((lines.getLast?.map Expr.ty).getD .void) locals lines
      cases h
      exact ⟨locals, lines', hlines⟩

/-- Making something is the first step of building. -/
theorem build_lift_bind {α β : Type} (act : Make α) (f : α → Build β) (n : Nat) :
    ((liftM act : Build α) >>= f).run n = (f (act n).1).run (act n).2 := rfl

theorem build_bind {α β : Type} (x : Build α) (f : α → Build β) (n : Nat) :
    (x >>= f).run n =
      match x.run n with
      | (.error error, n') => (.error error, n')
      | (.ok a, n') => (f a).run n' := by
  show (ExceptT.bindCont f (x.run n).1) (x.run n).2 = _
  cases x.run n with
  | mk r n' => cases r <;> rfl

theorem disposeOf_run (p : Param) (ref : Nat) (ty : Ty) (n : Nat) :
    ∃ last n', Disposes p last ∧ disposeOf (.mk ref (.parameter p) ty) n = (last, n') := by
  unfold disposeOf
  by_cases hty : (ty == .disposable) = true
  · simp only [Expr.ty, hty, if_true]
    exact ⟨_, _, .plain n ref ty, rfl⟩
  · simp only [Expr.ty, hty]
    exact ⟨_, _, .converted (n + 1) n ref ty, rfl⟩

/-- A resource, a body and the call that disposes make a region, if the body can be built. -/
theorem usingBlock_run {p : Param} {ref : Nat} {ty : Ty} {resource : Expr} {b : BlockBuilder}
    {n n' : Nat} {tree : Expr}
    (h : (usingBlock (.mk ref (.parameter p) ty) resource b).run n = (.ok tree, n')) :
    ∃ body n₁ n₂, b.build.run n₁ = (.ok body, n₂) ∧ Using p resource body tree := by
  obtain ⟨last, n₁, hlast, hrun⟩ := disposeOf_run p ref ty n
  have hbuilt : (usingBlock (.mk ref (.parameter p) ty) resource b).run n =
      match b.build.run n₁ with
      | (.error error, n₂) => (.error error, n₂)
      | (.ok body, n₂) => (.ok (.mk (n₂ + 2) (.block [p] [.mk (n₂ + 1) (.assign p resource) p.ty,
          .mk n₂ (.guarded body [] (some last)) body.ty]) body.ty), n₂ + 3) := by
    unfold usingBlock
    rw [build_lift_bind, hrun, build_bind]
    cases hbody : b.build.run n₁ with
    | mk r n₂ => cases r <;> rfl
  rw [hbuilt] at h
  cases hbody : b.build.run n₁ with
  | mk r n₂ =>
    rw [hbody] at h
    cases r with
    | error error => cases h
    | ok body =>
      cases h
      exact ⟨body, n₁, n₂, hbody, .mk _ _ _ hlast⟩

/-- What a construction makes: a variable of its own, and a region around the body that the callback
builds from a reference to it. -/
theorem usingResource_run {ty : Ty} {resource : Expr}
    {callback : Expr → BlockBuilder → Construction σ BlockBuilder} {k k' : Machine σ} {tree : Expr}
    (h : (usingResource ty resource callback).run k = some (.ok tree, k')) :
    ∃ ref b body k₁ k₂ n n', ref.shape = .parameter ⟨k.next, some "resource", ty⟩ ∧
      (callback ref {}).run k₁ = some (.ok b, k₂) ∧ b.build.run n = (.ok body, n') ∧
      Using ⟨k.next, some "resource", ty⟩ resource body tree := by
  let p : Param := ⟨k.next, some "resource", ty⟩
  let ref : Expr := .mk (k.next + 1) (.parameter p) ty
  let k₁ : Machine σ := { k with next := k.next + 1 + 1 }
  have hrun : (usingResource ty resource callback).run k =
      (((callback ref {}) >>= fun b => (liftM (usingBlock ref resource b) : Construction σ Expr)) :
        Construction σ Expr).run k₁ := rfl
  rw [hrun] at h
  obtain ⟨⟨r, k₂⟩, hcallback, hrest⟩ := Option.bind_eq_some_iff.mp h
  cases r with
  | error error => cases hrest
  | ok b =>
    have hrest : Step.make (usingBlock ref resource b).run k₂ = some (.ok tree, k') := hrest
    cases hbuilt : (usingBlock ref resource b).run k₂.next with
    | mk r n' =>
      simp only [Step.make, hbuilt] at hrest
      cases hrest
      obtain ⟨body, n, n', hbody, husing⟩ := usingBlock_run hbuilt
      exact ⟨ref, b, body, k₁, k₂, n, n', rfl, hcallback, hbody, husing⟩

/-! ## The evaluation -/

/-- Acquires something, uses it, and releases it: once, after the use, however the use ended. The
outcome is that of the use, unless the release leaves early itself. -/
def Run.bracket (acquire : Run σ Value) (use : Value → Run σ Value)
    (release : Value → Step σ Reply) : Run σ Value := do
  let v ← acquire
  let outcome ← Run.step (use v).run
  let reply ← Run.step (release v)
  let _ ← Run.ofReply reply
  Run.resume outcome

/-- An object that can be disposed of. -/
def Value.IsDisposable (v : Value) : Prop :=
  ∃ id cls content, v = .object id cls content ∧ Ty.disposable.isAssignableFrom cls

/-- Every closure of the machine stands in a scope of frames that have been made. -/
def Machine.ScopesExist (m : Machine σ) : Prop :=
  ∀ (i : Nat) c, m.closures[i]? = some c → ∀ link ∈ c.scope.links,
    link.frame < m.store.frames.size

/-- The machine with a new frame in front of a scope, in which a variable has its default value. -/
def Machine.opened (m : Machine σ) (s : Scope) (p : Param) : Machine σ :=
  { m with store := (m.store.push s.links none).2.write m.store.frames.size p.id (.default p.ty) }

section Evaluation

variable {H : Host σ} {p : Param} {m : Machine σ} {I : Interp} {s : Scope}

/-- The last part calls `dispose` on the value of the variable, and does nothing else. -/
theorem Disposes.run {last : Expr} (h : Disposes p last) {v : Value} (hv : v.IsDisposable)
    (hbound : m.store.lookup s p.id = some v) (n : Nat) :
    (eval H (n + 3) I s last).run m =
      (Step.play (apply H (n + 2)) (H.send v "dispose" []) m).bind fun y =>
        (Run.ofReply y.1 >>= fun _ => pure .void : Run σ Value).run y.2 := by
  obtain ⟨id, cls, content, rfl, hcls⟩ := hv
  have href : ∀ n ref ty, (eval H (n + 1) I s (.mk ref (.parameter p) ty)).run m =
      some (.ok (.object id cls content), m) := by
    intro n ref ty
    rw [eval]
    refine (run_step_bind (Step.lookup s p) _ m).trans ?_
    simp only [Step.lookup, hbound]
    rfl
  have hcall : ∀ call receiver,
      (eval H (n + 2) I s receiver).run m = some (.ok (.object id cls content), m) →
      (eval H (n + 3) I s (.mk call (.call (some receiver) .dispose []) .void)).run m =
        (Step.play (apply H (n + 2)) (H.send (.object id cls content) "dispose" []) m).bind
          fun y => (Run.ofReply y.1 >>= fun _ => pure .void : Run σ Value).run y.2 := by
    intro call receiver hreceiver
    rw [eval]
    have hself : (some <$> eval H (n + 2) I s receiver).run m =
        some (.ok (some (.object id cls content)), m) := run_bind_of_ok hreceiver
    refine (run_bind_of_ok hself).trans ?_
    show (runScript ⟨n + 2, eval H (n + 2), apply H (n + 2)⟩
      (H.send (.object id cls content) "dispose" []) >>= fun v => pure (settle .void v)).run m = _
    rw [run_bind, runScript, run_step_bind]
    cases Step.play (apply H (n + 2)) (H.send (.object id cls content) "dispose" []) m with
    | none => rfl
    | some y => exact (run_bind _ _ _).symm
  cases h with
  | plain call ref ty => exact hcall _ _ (href (n + 1) ref ty)
  | converted call cast ref ty =>
    refine hcall _ _ ?_
    rw [eval]
    refine (run_bind_of_ok (href n ref ty)).trans ?_
    have hconvert : convert .cast (.object id cls content) .disposable = .ok (.object id cls content) := by
      rw [convert_of_not_isPlain rfl]
      simp only [Value.isInstance, Value.runtimeTy?, hcls]
      rfl
    simp only [Expr.ty, hconvert]
    rfl

/-- A block gives `void` where it is of type `void`. -/
theorem settle_of_block {locals : List Param} {body : List Expr} {e : Expr}
    (he : e.shape = .block locals body) {n : Nat} {v : Value} {m' : Machine σ}
    (h : (eval H n I s e).run m = some (.ok v, m')) : settle e.ty v = v := by
  cases n with
  | zero =>
    rw [eval] at h
    cases h
  | succ n =>
    rw [eval, evalNode, he] at h
    obtain ⟨inner, m₁, -, h⟩ := ok_of_run_bind h
    obtain ⟨-, m₂, -, h⟩ := ok_of_run_bind h
    obtain ⟨last, m₃, -, h⟩ := ok_of_run_bind h
    cases h
    unfold settle
    split <;> rfl

theorem resume_settle {ty : Ty} {r : Except Exit Value} (h : ∀ v, r = .ok v → settle ty v = v) :
    (Run.resume r >>= fun v => pure (settle ty v) : Run σ Value) = Run.resume r := by
  cases r with
  | error exit => rfl
  | ok v =>
    show (pure (settle ty v) : Run σ Value) = pure v
    rw [h v rfl]

/-- Without catch clauses, a guarded region is its body and then its last part. -/
theorem evalGuarded_run {ev : Scope → Expr → Run σ Value} {ty : Ty} {body last : Expr} :
    (evalGuarded ev s ty body [] (some last)).run m =
      ((ev s body).run m).bind fun y =>
        (ev s last >>= fun _ => Run.resume y.1 >>= fun v => pure (settle ty v)).run y.2 := by
  refine (run_step_bind (ev s body).run _ m).trans ?_
  congr 1
  funext y
  obtain ⟨r, m'⟩ := y
  cases r with
  | ok v => rfl
  | error exit =>
    cases exit with
    | throw exception =>
      -- no clause takes the exception, so it goes on as it is
      cases hty : exception.runtimeTy? with
      | some thrownTy =>
        simp only [hty]
        rfl
      | none =>
        simp only [hty]
        rfl
    | jump l v => rfl
    | fault f => rfl

/-- Statements that own no label run one after the other, and jumps leave them. -/
theorem runStatements_cons {ev : Expr → Run σ Value} {onJump : Label → Value → Run σ Value}
    (hjump : ∀ l v, onJump l v = throw (.jump l v)) (e : Expr) (es : List Expr) (last : Value) :
    runStatements ev onJump (e :: es) last =
      ev e >>= fun v => runStatements ev onJump es v := by
  funext m
  refine (run_step_bind (ev e).run _ m).trans ((run_bind _ _ m).trans ?_).symm
  congr 1
  funext y
  obtain ⟨r, m'⟩ := y
  cases r with
  | ok v => rfl
  | error exit =>
    cases exit with
    | throw v => rfl
    | jump l v =>
      simp only [hjump]
      rfl
    | fault f => rfl

theorem runBody_pair {ev : Expr → Run σ Value} {a b : Expr} (ha : a.label? = none)
    (hb : b.label? = none) (rounds : Nat) (last : Value) :
    runBody ev [a, b] (rounds + 1) [a, b] last = ev a >>= fun _ => ev b := by
  have hnone : ∀ l, afterLabel? l [a, b] = none := by
    intro l
    rw [Setting.afterLabel?_cons, Setting.afterLabel?_cons, ha, hb]
    rfl
  rw [runBody]
  simp only [hnone]
  rw [runStatements_cons fun _ _ => rfl]
  congr 1
  funext v
  rw [runStatements_cons fun _ _ => rfl]
  exact bind_pure (ev b)

/-- What a block does on a machine where its scope has been made. -/
theorem eval_block_opened {e : Expr} {body : List Expr} (he : e.shape = .block [p] body) (n : Nat) :
    (eval H (n + 1) I s e).run m =
      (runBody (eval H n I (s.extended m.store.frames.size none)) body n body .void >>= fun v =>
        pure (settle e.ty v) : Run σ Value).run (m.opened s p) := by
  rw [eval, evalNode, he]
  rfl

/-- The variable of a block, as long as the block runs. -/
def Pin.opened (m : Machine σ) (p : Param) (v : Value) : Pin := ⟨m.store.frames.size, p, v⟩

/-- When the block is entered, no closure reaches its frame. -/
theorem Machine.ScopesExist.holds_opened (hm : m.ScopesExist) (s : Scope) (p : Param) :
    (Pin.opened m p (.default p.ty)).Holds (m.opened s p) := by
  refine ⟨?_, fun i c hc => .inr fun link hlink => Nat.ne_of_lt (hm i c hc link hlink)⟩
  show (((m.store.push s.links none).2.write m.store.frames.size p.id _).frame
    m.store.frames.size).get? p.id = _
  rw [Store.frame_write_self (by rw [Store.size_push]; exact Nat.lt_succ_self _), Frame.get?_set,
    if_pos rfl]
  rfl

/-- An assignment to the variable moves the pin. -/
theorem Pin.Holds.assign {v : Value} {k : Machine σ} (h : (Pin.opened m p v).Holds k) (v' : Value) :
    ∃ k', Step.assign (s.extended m.store.frames.size none) p v' k = some (true, k') ∧
      (Pin.opened m p v').Holds k' := by
  have howner : k.store.owner? (s.extended m.store.frames.size none) p.id =
      some m.store.frames.size := by
    have hbound := h.bound
    simp only [Pin.opened, Pin.Binds] at hbound
    simp only [Store.owner?, Scope.extended, List.find?_cons, hbound, Option.isSome_some,
      Option.map_some]
  refine ⟨{ k with store := k.store.write m.store.frames.size p.id v' }, ?_, ?_, h.closures⟩
  · simp only [Step.assign, Step.onStore, Store.assign, howner]
  · show ((k.store.write m.store.frames.size p.id v').frame m.store.frames.size).get? p.id = _
    have hsize : m.store.frames.size < k.store.frames.size := h.lt_size
    rw [Store.frame_write_self hsize, Frame.get?_set, if_pos rfl]
    rfl

theorem Pin.Holds.lookup {v : Value} {k : Machine σ} (h : (Pin.opened m p v).Holds k) (s : Scope) :
    k.store.lookup (s.extended m.store.frames.size none) p.id = some v := by
  have hbound := h.bound
  simp only [Pin.opened, Pin.Binds] at hbound
  simp only [Store.lookup, Scope.extended, List.findSome?_cons, hbound]

/-- The region: the body, and then one call of `dispose` on the value of the variable. -/
theorem region_run {body last : Expr} (hlast : Disposes p last) (hbody : body.assigns p = false)
    (hblock : ∃ locals lines, body.shape = .block locals lines) {v : Value} (hv : v.IsDisposable)
    {k : Machine σ} (hk : (Pin.opened m p v).Holds k) (id n : Nat) :
    let inner := s.extended m.store.frames.size none
    (eval H (n + 4) I inner (.mk id (.guarded body [] (some last)) body.ty) >>= fun v =>
        pure (settle body.ty v) : Run σ Value).run k =
      (Run.step (eval H (n + 3) I inner body).run >>= fun outcome =>
        Run.step (Step.play (apply H (n + 2)) (H.send v "dispose" [])) >>= fun reply =>
          Run.ofReply reply >>= fun _ => Run.resume outcome : Run σ Value).run k := by
  intro inner
  have hguarded : (eval H (n + 4) I inner (.mk id (.guarded body [] (some last)) body.ty)).run k =
      ((eval H (n + 3) I inner body).run k).bind fun y => (eval H (n + 3) I inner last >>= fun _ =>
        Run.resume y.1 >>= fun v => pure (settle body.ty v)).run y.2 := by
    rw [eval]
    exact evalGuarded_run
  rw [run_bind, hguarded, run_step_bind]
  cases hrun : (eval H (n + 3) I inner body).run k with
  | none => rfl
  | some y =>
    obtain ⟨r, k₁⟩ := y
    have hk₁ : (Pin.opened m p v).Holds k₁ := hk.eval (.inl hbody) hrun
    have hsettled : (Run.resume r >>= fun v => pure (settle body.ty v) : Run σ Value) =
        Run.resume r := by
      obtain ⟨locals, lines, hshape⟩ := hblock
      exact resume_settle fun v' hr => settle_of_block hshape (hr ▸ hrun)
    show ((eval H (n + 3) I inner last >>= fun _ =>
        Run.resume r >>= fun v => pure (settle body.ty v)).run k₁).bind _ =
      (Run.step (Step.play (apply H (n + 2)) (H.send v "dispose" [])) >>= fun reply =>
        Run.ofReply reply >>= fun _ => Run.resume r).run k₁
    rw [hsettled, ← run_bind, bind_assoc, hsettled, run_bind, hlast.run hv (hk₁.lookup s),
      run_step_bind]
    cases Step.play (apply H (n + 2)) (H.send v "dispose" []) k₁ with
    | none => rfl
    | some z =>
      show ((Run.ofReply z.1 >>= fun _ => pure Value.void).run z.2).bind _ =
        (Run.ofReply z.1 >>= fun _ => Run.resume r).run z.2
      rw [← run_bind, bind_assoc]
      rfl

/-- The tree is a bracket: the resource is kept in the variable while the body runs. -/
theorem Using.run {resource body tree : Expr} (h : Using p resource body tree) (hm : m.ScopesExist)
    (hresource : resource.assigns p = false) (hbody : body.assigns p = false)
    (hblock : ∃ locals lines, body.shape = .block locals lines) (n : Nat) :
    let inner := s.extended m.store.frames.size none
    (∀ v m', (eval H (n + 3) I inner resource).run (m.opened s p) = some (.ok v, m') →
      v.IsDisposable) →
    (eval H (n + 5) I s tree).run m =
      (Run.bracket (eval H (n + 3) I inner resource)
        (fun v => Run.step (Step.assign inner p v) >>= fun _ => eval H (n + 3) I inner body)
        (fun v => Step.play (apply H (n + 2)) (H.send v "dispose" []))).run (m.opened s p) := by
  intro inner hv
  obtain ⟨outer, first, region, hlast⟩ := h
  rw [eval_block_opened rfl, runBody_pair rfl rfl, bind_assoc, Run.bracket]
  have hfirst : eval H (n + 4) I inner (.mk first (.assign p resource) p.ty) =
      eval H (n + 3) I inner resource >>= fun v => Run.step (Step.assign inner p v) >>= fun found =>
        if found then pure v else .fault (.unboundParameter p.displayName) := by
    rw [eval]
    rfl
  show (eval H (n + 4) I inner (.mk first (.assign p resource) p.ty) >>= _).run _ = _
  rw [hfirst, bind_assoc, run_bind, run_bind]
  cases hrun : (eval H (n + 3) I inner resource).run (m.opened s p) with
  | none => rfl
  | some y =>
    obtain ⟨r, k⟩ := y
    cases r with
    | error exit => rfl
    | ok v =>
      have hk : (Pin.opened m p (.default p.ty)).Holds k :=
        (hm.holds_opened s p).eval (.inl hresource) hrun
      obtain ⟨k', hassign, hk'⟩ := hk.assign (s := s) v
      have hleft : (Run.step (Step.assign inner p v) >>= fun found =>
          if found then pure v else .fault (.unboundParameter p.displayName) : Run σ Value).run k =
            some (.ok v, k') := by
        rw [run_step_bind, hassign]
        rfl
      have hright : (Run.step (Step.assign inner p v) >>= fun _ =>
          eval H (n + 3) I inner body : Run σ Value).run k =
            (eval H (n + 3) I inner body).run k' := by
        rw [run_step_bind, hassign]
        rfl
      refine (run_bind_of_ok hleft).trans ?_
      refine (region_run hlast hbody hblock (hv v k hrun) hk' region n).trans ?_
      rw [run_step_bind]
      refine ((run_step_bind _ _ k).trans ?_).symm
      rw [hright]

end Evaluation

/-- A resource is used once and disposed of once. From a resource and a callback that builds a body
from a reference to a variable, a tree is made; let the body never assign to the variable, and let the
resource know none but older variables. Then, on a machine where the resource, if it yields a
value, yields an object that can be disposed of, the tree does what a bracket does: it evaluates the
resource, then the body with the resource in the variable, and however the body ends it then calls
`dispose` once, without operands, on that same object. The outcome is that of the body unless the
call leaves early itself; and a resource that leaves early does so alone. -/
theorem using_disposes_once {H : Host σ} {ty : Ty} {resource : Expr}
    {callback : Expr → BlockBuilder → Construction σ BlockBuilder} {k k' : Machine σ} {tree : Expr}
    (hbuilt : (usingResource ty resource callback).run k = some (.ok tree, k'))
    (hresource : ∀ q, resource.assigns q → q.id < k.next) :
    let p : Param := ⟨k.next, some "resource", ty⟩
    ∃ ref b body k₁ k₂ n n', ref.shape = .parameter p ∧
      (callback ref {}).run k₁ = some (.ok b, k₂) ∧ b.build.run n = (.ok body, n') ∧
      (body.assigns p = false → ∀ (m : Machine σ) (s : Scope) (I : Interp) (fuel : Nat),
        m.ScopesExist →
        let inner := s.extended m.store.frames.size none
        (∀ v m', (eval H (fuel + 3) I inner resource).run (m.opened s p) = some (.ok v, m') →
          v.IsDisposable) →
        (eval H (fuel + 5) I s tree).run m =
          (Run.bracket (eval H (fuel + 3) I inner resource)
            (fun v => Run.step (Step.assign inner p v) >>= fun _ => eval H (fuel + 3) I inner body)
            (fun v => Step.play (apply H (fuel + 2)) (H.send v "dispose" []))).run
              (m.opened s p)) := by
  obtain ⟨ref, b, body, k₁, k₂, n, n', href, hcallback, hbody, husing⟩ := usingResource_run hbuilt
  refine ⟨ref, b, body, k₁, k₂, n, n', href, hcallback, hbody, ?_⟩
  intro hnever m s I fuel hm
  have hfresh : resource.assigns ⟨k.next, some "resource", ty⟩ = false := by
    -- an assignment to the new variable would be one to an older one
    by_contra h
    exact Nat.lt_irrefl _ (hresource _ (Bool.not_eq_false _ ▸ h))
  exact husing.run hm hfresh hnever (BlockBuilder.shape_of_build hbody) fuel

namespace Sample

/-- A host that writes down what it is asked to do, and whose code throws. -/
def logging : Host (List String) where
  run _ _ _ := .read fun log => .write (log ++ ["run"]) (.raise .invalidOperation "no")
  get _ _ _ := .done (.ok .null)
  invoke _ _ name _ := .read fun log => .write (log ++ [name]) (.done (.ok .void))

/-- A class of disposable objects. -/
def file : Ty := .nominal "File" none [.disposable] false

/-- An open file. -/
def openFile : Expr := .mk 2 (.constant (.object 1 file (.hosted 0))) file

/-- A call that throws. -/
def failingCall : Expr := .mk 3 (.call none (.static "fail" .object [] .void 0) []) .void

/-- The variable that keeps the file. -/
def fileVar : Param := ⟨4, some "resource", file⟩

/-- The file is opened, the call fails, and the file is disposed of. -/
def fileUse : Expr :=
  .mk 11 (.block [fileVar] [.mk 10 (.assign fileVar openFile) file,
    .mk 9 (.guarded (.mk 8 (.block [] [failingCall]) .void) []
      (some (.mk 7 (.call (some (.mk 6 (.convert .cast (.mk 5 (.parameter fileVar) file)) .disposable))
        .dispose []) .void))) .void]) .void

/-- A machine without frames, that has handed out some identities. -/
def bare (next : Nat) : Machine (List String) := ⟨next, .empty, #[], #[0], []⟩

end Sample

/-- The body throws; the file is disposed of afterwards, once, and the exception goes on. -/
theorem failing_use_disposes :
    (usingResource (m := Construction (List String)) Sample.file Sample.openFile
        fun _ b => pure (b.line Sample.failingCall)).run (Sample.bare 4) =
      some (.ok Sample.fileUse, Sample.bare 12) ∧
    ∃ k, (eval Sample.logging 7 ⟨0, 8⟩ ⟨[]⟩ Sample.fileUse).run (Sample.bare 12) =
        some (.error (.throw (.exception 12 .invalidOperation "no")), k) ∧
      k.host = ["run", "dispose"] := by
  have hbuilt : (usingResource (m := Construction (List String)) Sample.file Sample.openFile
      fun _ b => pure (b.line Sample.failingCall)).run (Sample.bare 4) =
        some (.ok Sample.fileUse, Sample.bare 12) := rfl
  refine ⟨hbuilt, ?_⟩
  obtain ⟨ref, b, body, k₁, k₂, n, n', -, hcallback, hbody, hrun⟩ :=
    using_disposes_once (H := Sample.logging) hbuilt fun q h => nomatch h
  cases hcallback
  cases hbody
  have heval := hrun rfl (Sample.bare 12) ⟨[]⟩ ⟨0, 8⟩ 2 (fun i c hc => nomatch hc) ?_
  · exact ⟨_, heval.trans rfl, rfl⟩
  · intro v m' hv
    cases hv
    exact ⟨_, _, _, rfl, rfl⟩

end CodeTree
