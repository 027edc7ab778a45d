import CodeTree.Proofs.CompiledPath
import CodeTree.Proofs.InPlace

/-!
# Blocks invoked in place

A block that is invoked in place differs from the block itself in three ways: its variables are
bound in a frame of their own (`evalWhile_of_evalWithin`, `evalWhile_of_framed`), there is one
more closure and one more activation in progress, and the outcome passes through host code.

* `runClosure_inside`, `eval_outside` — the closure and the activation make no difference as long
  as the limit on nested calls is not reached, by simulations of machines that have a footprint in
  common and of which one counts one more activation (`Counting`);
* `crossed_alike` — what is alike is alike once it has passed through host code. An outcome is then
  what it was (`crossed_of_thrownFault?_eq_none`), unless it throws an object that carries a fault.

Main statement: `invoke_transparent`. What it leaves out is there:
`invoked_block_ends_differently`.
-/

namespace CodeTree

variable {σ : Type}

/-! ## The closure and the activation -/

section Counting

variable {d : Array Nat} {i j : Nat}

theorem getD_modify_of_ne (h : i ≠ j) (f : Nat → Nat) : (d.modify i f).getD j 0 = d.getD j 0 := by
  rw [Array.getD_eq_getD_getElem?, Array.getD_eq_getD_getElem?, Array.getElem?_modify, if_neg h]

theorem getD_modify_succ : d.getD i 0 ≤ (d.modify i (· + 1)).getD i 0 ∧
    (d.modify i (· + 1)).getD i 0 ≤ d.getD i 0 + 1 := by
  rw [Array.getD_eq_getD_getElem?, Array.getD_eq_getD_getElem?, Array.getElem?_modify, if_pos rfl]
  cases d[i]? with
  | none => exact ⟨Nat.le_refl _, Nat.zero_le _⟩
  | some n => exact ⟨Nat.le_succ n, Nat.le_refl _⟩

theorem modify_succ_comm :
    (d.modify i (· + 1)).modify j (· + 1) = (d.modify j (· + 1)).modify i (· + 1) := by
  refine Array.ext_getElem? fun k => ?_
  simp only [Array.getElem?_modify]
  split <;> split <;> rfl

end Counting

/-- How the counters of two evaluations are related, and when the first one may start an
activation. -/
structure Counting where
  depths : Array Nat → Array Nat → Prop
  within : Interp → Array Nat → Prop
  enter : ∀ {J : Interp} {d₁ d₂ : Array Nat}, depths d₁ d₂ →
    depths (d₁.modify J.id (· + 1)) (d₂.modify J.id (· + 1))
  limit : ∀ {J : Interp} {d₁ d₂ : Array Nat}, depths d₁ d₂ → within J d₁ →
    (J.limit < d₁.getD J.id 0 + 1 ↔ J.limit < d₂.getD J.id 0 + 1)

/-- The second evaluation has one more activation of the interpreter in progress. -/
def Counting.inside (I : Interp) : Counting where
  depths d₁ d₂ := d₂ = d₁.modify I.id (· + 1)
  within := I.HasRoom 1
  enter := by
    rintro J d _ rfl
    exact modify_succ_comm
  limit := by
    rintro J d _ rfl hroom
    by_cases h : J.id = I.id
    · have hlimit := hroom h
      have hle : (d.modify I.id (· + 1)).getD I.id 0 ≤ d.getD I.id 0 + 1 := getD_modify_succ.2
      rw [h]
      omega
    · rw [getD_modify_of_ne (Ne.symm h)]

/-- The first evaluation has one more activation of the interpreter in progress. -/
def Counting.outside (I : Interp) : Counting where
  depths d₁ d₂ := d₁ = d₂.modify I.id (· + 1)
  within := I.HasRoom 0
  enter := by
    rintro J _ d rfl
    exact modify_succ_comm
  limit := by
    rintro J _ d rfl hroom
    by_cases h : J.id = I.id
    · have hlimit := hroom h
      have hle : d.getD I.id 0 ≤ (d.modify I.id (· + 1)).getD I.id 0 := getD_modify_succ.1
      rw [h]
      omega
    · rw [getD_modify_of_ne (Ne.symm h)]

/-- Evaluations on machines that have a footprint in common, with their counters related. -/
def besideCounting (C : Counting) (fp : Footprint) (same : World → σ → σ → Prop)
    (hsame : ∀ {w w' : World}, w ≤ w' → ∀ {s t : σ}, same w s t → same w' s t) : Setting σ :=
  { beside fp same hsame with
    depths := C.depths
    within := C.within
    enter := by
      rintro J _ _ _ rfl hd
      exact C.enter hd
    limit := by
      rintro J _ _ _ rfl hd hwithin
      exact ⟨C.limit hd hwithin, fun _ => rfl⟩ }

section Counted

variable {fp : Footprint} {same : World → σ → σ → Prop}
  {hsame : ∀ {w w' : World}, w ≤ w' → ∀ {s t : σ}, same w s t → same w' s t} {I : Interp}
  {H : Host σ} {C : Counting} {w : World}

theorem besideCounting_lawful (hH : (beside fp same hsame).HostLike H) {room : Nat}
    (hroom : C.within = I.HasRoom room) :
    (besideCounting C fp same hsame).Lawful H (.withRoom I room) .always where
  host := ⟨hH.run, hH.get, hH.invoke⟩
  permits m i c hcall hc := by
    refine ⟨trivial, ?_⟩
    show C.within c.interp m.depths
    rw [hroom]
    have hcall : (m.closures[i]?.all fun c => decide (I.HasRoom room c.interp m.depths)) := hcall
    rw [hc] at hcall
    exact of_decide_eq_true (p := I.HasRoom room c.interp m.depths) hcall
  visits _ _ _ _ _ _ _ _ := rfl
  calls _ _ := rfl
  step _ _ _ hplace := .inl (hplace.layer (fun _ _ _ _ h => h) rfl fun _ => rfl)

theorem besideCounting_closureLike {c₁ c₂ : Closure}
    (h : (beside fp same hsame).ClosureLike w c₁ c₂) :
    (besideCounting C fp same hsame).ClosureLike w c₁ c₂ :=
  ⟨h.params, h.ret, h.interp, h.body⟩

/-- Machines that have the footprint in common, one of them with other counters. -/
theorem besideCounting_similar {m₁ m₂ : Machine σ} (hagrees : fp.Agrees m₁ m₂)
    (hhost : same (World.showing fp) m₁.host m₂.host) {d : Array Nat}
    (hdepths : C.depths m₁.depths d) :
    (besideCounting C fp same hsame).Similar (World.showing fp) (m₁.depths, d) m₁
      { m₂ with depths := d } :=
  have h : (beside fp same hsame).Similar (World.showing fp) (m₁.depths, m₂.depths) m₁ m₂ :=
    hagrees.similar hhost
  { above := h.above
    ids := h.ids
    closures := h.closures
    frames := h.frames
    bindings := h.bindings
    live := h.live
    declared := h.declared
    made := fun i j hij hi c₁ hc₁ => by
      obtain ⟨c₂, hc₂, hlike⟩ := h.made i j hij hi c₁ hc₁
      exact ⟨c₂, hc₂, besideCounting_closureLike hlike⟩
    host := h.host
    depths₁ := rfl
    depths₂ := rfl
    depths := hdepths
    apart₁ := h.apart₁
    apart₂ := h.apart₂
    old₁ := h.old₁
    old₂ := h.old₂ }

/-- What a body ends with, as far as calls leave room for one more activation, it ends with inside
one more activation. -/
theorem runClosure_inside (hH : (beside fp same hsame).HostLike H) {m m₁ : Machine σ}
    (hm : fp.Within m) (hhost : same (World.showing fp) m.host m.host) {c : Closure}
    (hscope : fp.HasScope c.scope) (hbody : c.body.Constants fp.Knows) {vals : List Value}
    (hvals : ∀ v ∈ vals, fp.Knows v) {depth : Nat} (hdepth : ¬c.interp.limit < depth) {n : Nat}
    {r : Except Exit Value}
    (h : (runClosure (engineWhile H (.withRoom I 1) n) c vals 0).run m = some (r, m₁))
    (new : Closure) :
    ∃ r' m₂ w, (runClosure (engine H n) c vals depth).run
        { m.keeping new with depths := m.depths.modify I.id (· + 1) } = some (r', m₂) ∧
      (besideCounting (.inside I) fp same hsame).Similar w
        (m.depths, m.depths.modify I.id (· + 1)) m₁ m₂ ∧
      ExceptLike (ExitLike w fun _ => True) (ValueLike w fun _ => True) r r' := by
  let S := besideCounting (.inside I) fp same hsame
  have hlawful : S.Lawful H (.withRoom I 1) .always := besideCounting_lawful hH rfl
  have hE := hlawful.engines (Nat.le_refl n)
  rw [engineWhile_always] at hE
  have hlike : S.ClosureLike (World.showing fp) c c :=
    besideCounting_closureLike (beside_closureLike (le_refl _) hscope hbody)
  have hruns : S.Runs (m.depths, m.depths.modify I.id (· + 1)) (World.showing fp) S.value
      (runClosure (engineWhile H (.withRoom I 1) n) c vals 0)
      (runClosure (engine H n) c vals depth) :=
    Setting.Runs.runClosure hE hlike (.of_knows (le_refl _) hvals)
      ⟨fun h => absurd h (Nat.not_lt_zero _), fun h => absurd h hdepth⟩
      fun h => absurd h (Nat.not_lt_zero _)
  have hagrees : fp.Agrees m (m.keeping new) := hm.agrees (.addClosure m new) (fun _ _ => rfl) rfl
  have hsimilar : S.Similar (World.showing fp) (m.depths, m.depths.modify I.id (· + 1)) m
      { m.keeping new with depths := m.depths.modify I.id (· + 1) } :=
    besideCounting_similar hagrees hhost rfl
  obtain ⟨r', m₂, w, hrun, -, hsimilar, -, -, hr⟩ := hruns m _ hsimilar r m₁ h
  exact ⟨r', m₂, w, hrun, hsimilar, hr⟩

/-- What a tree ends with in the course of one more activation, as far as calls do not reach the
limit, it ends with outside of it. -/
theorem eval_outside (hH : (beside fp same hsame).HostLike H) {m m₁ : Machine σ} (hm : fp.Within m)
    (hhost : same (World.showing fp) m.host m.host) {s : Scope} (hs : fp.HasScope s) {e : Expr}
    (he : e.Constants fp.Knows) {n : Nat} {r : Except Exit Value} (new : Closure)
    (h : (evalWhile H (.withRoom I 0) n I s e).run
      { m.keeping new with depths := m.depths.modify I.id (· + 1) } = some (r, m₁)) :
    ∃ r' m₂ w, (eval H n I s e).run m = some (r', m₂) ∧
      (besideCounting (.outside I) fp same hsame).Similar w
        (m.depths.modify I.id (· + 1), m.depths) m₁ m₂ ∧
      ExceptLike (ExitLike w fun _ => True) (ValueLike w fun _ => True) r r' := by
  let S := besideCounting (.outside I) fp same hsame
  have hlawful : S.Lawful H (.withRoom I 0) .always := besideCounting_lawful hH rfl
  have hE := hlawful.engines (Nat.le_refl n)
  rw [engineWhile_always] at hE
  let inner : Machine σ := { m.keeping new with depths := m.depths.modify I.id (· + 1) }
  have hagrees : fp.Agrees m (m.keeping new) := hm.agrees (.addClosure m new) (fun _ _ => rfl) rfl
  have hwithin : fp.Within inner :=
    ⟨hagrees.ids, hagrees.frames, hagrees.symm.within.bindings, hagrees.symm.within.closures⟩
  have hinner : fp.Agrees inner { m with depths := inner.depths } :=
    ⟨hwithin, hm.ids, hm.frames, fun _ _ => rfl, fun i hi => (hagrees.closures i hi).symm, rfl⟩
  obtain ⟨r', m₂, w, hrun, -, hafter, -, -, hr⟩ := hE.eval _ _ ⟨I, s, e⟩ ⟨I, s, e⟩
    (KnownPlace.self (le_refl _) I hs he) inner m (besideCounting_similar hinner hhost rfl) r m₁ h
  exact ⟨r', m₂, w, hrun, hafter, hr⟩

end Counted

/-! ## Passing through host code -/

/-- The fault that a thrown object carries. -/
def thrownFault? : Except Exit Value → Option Fault
  | .error (.throw v) => v.asFault?
  | _ => none

section Crossing

variable {w : World} {r r' : Except Exit Value}

/-- An outcome that has passed through host code is what it was, unless it throws an object that
carries a fault. -/
theorem crossed_of_thrownFault?_eq_none (hjump : ∀ l v, r ≠ .error (.jump l v))
    (h : thrownFault? r = none) (m : Machine σ) : (crossed (r, m)).1 = r := by
  cases r with
  | ok v => rfl
  | error exit =>
    cases exit with
    | throw v => exact answered_of_asFault?_eq_none h
    | jump l v => exact absurd rfl (hjump l v)
    | fault f => rfl

theorem crossed_of_thrownFault? {fault : Fault} (h : thrownFault? r = some fault) (m : Machine σ) :
    (crossed (r, m)).1 = .error (.fault fault) := by
  cases r with
  | ok v => cases h
  | error exit =>
    cases exit with
    | throw v => exact answered_of_asFault? h
    | jump l v => cases h
    | fault f => cases h

theorem crossed_alike (h : ExceptLike (ExitLike w fun _ => True) (ValueLike w fun _ => True) r r')
    (m m' : Machine σ) :
    ExceptLike (ExitLike w fun _ => True) (ValueLike w fun _ => True) (crossed (r, m)).1
      (crossed (r', m')).1 := by
  cases h with
  | ok value => exact .ok value
  | error exit =>
    cases exit with
    | @throw x y value =>
      have hcarried : x.asFault? = y.asFault? := Value.asFault?_like value
      cases hx : x.asFault? with
      | none =>
        rw [crossed, crossed, answered_of_asFault?_eq_none hx,
          answered_of_asFault?_eq_none (hcarried.symm.trans hx)]
        exact .error (.throw value)
      | some f =>
        rw [crossed, crossed, answered_of_asFault? hx, answered_of_asFault? (hcarried.symm.trans hx)]
        exact .error (.fault trivial)
    | jump label value => exact .error (.fault trivial)
    | fault allowed => exact .error (.fault trivial)

theorem matches_crossed (r : Except Exit Value) (m : Machine σ) : m.Matches (crossed (r, m)).2 := by
  cases r with
  | ok v => exact .refl m
  | error exit => cases exit <;> exact ⟨rfl, rfl, fun _ => rfl⟩

/-- A body that does not jump ends an activation as it ends itself, if its value is settled. -/
theorem Closure.outcome_eq_self {c : Closure} (hjump : ∀ l v, r ≠ .error (.jump l v))
    (hsettled : ∀ v, r = .ok v → settle c.ret v = v) : c.outcome r = r := by
  cases r with
  | ok v => exact congrArg Except.ok (hsettled v rfl)
  | error exit =>
    cases exit with
    | jump l v => exact absurd rfl (hjump l v)
    | throw v => rfl
    | fault f => rfl

end Crossing

/-! ## The activation of a block -/

theorem callClosure_congr {E : Engine σ} {params : List Param} {body body' : Expr} {ret : Ty}
    {scope : Scope} {I : Interp} {args : List Value}
    (h : ∀ s, E.eval I s body = E.eval I s body') :
    callClosure E ⟨params, body, ret, scope, I⟩ args =
      callClosure E ⟨params, body', ret, scope, I⟩ args := by
  unfold callClosure runClosure
  simp only [h]

theorem Machine.ScopesExist.keeping {m : Machine σ} (hm : m.ScopesExist) {c : Closure}
    (hc : ∀ link ∈ c.scope.links, link.frame < m.store.frames.size) :
    (m.keeping c).ScopesExist := by
  intro i c' hc'
  have hc' : (m.closures.push c)[i]? = some c' := hc'
  rw [Array.getElem?_push] at hc'
  split at hc'
  · cases hc'
    exact hc
  · exact hm i c' hc'

/-- A bound variable is listed with its value. -/
theorem Frame.mem_of_get? {id : Nat} {v : Value} :
    ∀ {fr : Frame}, fr.get? id = some v → (id, v) ∈ fr
  | (key, u) :: fr, h => by
    rw [get?] at h
    split at h
    next heq =>
      cases h
      rw [heq]
      exact List.mem_cons_self
    next => exact List.mem_cons_of_mem _ (mem_of_get? h)

section Operands

variable {H : Host σ} {I : Interp} {m : Machine σ} {s : Scope}

/-- What a scope of the footprint finds belongs to the footprint. -/
theorem Footprint.Within.knows_of_lookup {fp : Footprint} (hm : fp.Within m) (hs : fp.HasScope s)
    {id : Nat} {v : Value} (h : m.store.lookup s id = some v) : fp.Knows v := by
  obtain ⟨link, hlink, hget⟩ := List.exists_of_findSome?_eq_some h
  exact hm.bindings link.frame (hs link hlink).1 _ (Frame.mem_of_get? hget)

theorem exists_finds : ∀ {ps : List Param}, (∀ p ∈ ps, (m.store.lookup s p.id).isSome) →
    ∃ vals, m.Finds s ps vals
  | [], _ => ⟨[], .nil⟩
  | p :: ps, h => by
    rw [List.forall_mem_cons] at h
    obtain ⟨v, hv⟩ := Option.isSome_iff_exists.mp h.1
    obtain ⟨vals, hvals⟩ := exists_finds h.2
    exact ⟨v :: vals, .cons hv hvals⟩

/-- What references to variables that the scope binds refer to. -/
theorem references_found : ∀ {refs : List Expr} {ps : List Param} {vals : List Value},
    refs.map Expr.asParameter? = ps.map some → m.Finds s ps vals →
      List.Forall₂ (fun a v => ∃ p, a.asParameter? = some p ∧ m.store.lookup s p.id = some v)
        refs vals
  | [], [], _, _, .nil => .nil
  | _ :: _, p :: _, _, hrefs, .cons hv hvals => by
    obtain ⟨ha, hrefs⟩ := List.cons.inj hrefs
    exact .cons ⟨p, ha, hv⟩ (references_found hrefs hvals)

theorem evalAll_run_of_values {ev : Expr → Run σ Value} {es : List Expr} {vs : List Value}
    (h : List.Forall₂ (fun a v => (ev a).run m = some (.ok v, m)) es vs) :
    (evalAll ev es).run m = some (.ok vs, m) := by
  induction h with
  | nil => rfl
  | cons ha _ ih =>
    rw [evalAll, run_bind_of_ok ha, run_bind_of_ok ih]
    rfl

end Operands

/-! ## An invocation under a restraint -/

section Restrained

variable {H : Host σ} {R : Restraint σ} {I : Interp} {s : Scope} {m : Machine σ} {n : Nat}
variable {e f body : Expr} {refs : List Expr} {ps : List Param} {vals : List Value} {tys : List Ty}
  {ret : Ty} (he : e.shape = .invoke f refs) (hf : f.shape = .lambda ps body)
  (hty : f.ty = .func tys ret) (hrefs : refs.map Expr.asParameter? = ps.map some)
  (hfinds : m.Finds s ps vals)

include he hf hty hrefs hfinds

/-- An invocation of a lambda with references to variables is a call of the closure that is made. -/
theorem evalWithin_invocation : (evalWithin H R (n + 2) I s e).run m =
    (applyWithin H R (n + 1) (.closure m.closures.size) vals (m.keeping ⟨ps, body, ret, s, I⟩)).map
      fun x => (answered x.1, x.2) := by
  have hlambda : (evalWithin H R (n + 1) I s f).run m =
      some (.ok (.func (.closure m.closures.size) (ps.map Param.ty) ret),
        m.keeping ⟨ps, body, ret, s, I⟩) := by
    rw [evalWithin_succ hf fun _ _ h => by cases h]
    exact evalNode_lambda hf hty _
  have hkept : (m.keeping ⟨ps, body, ret, s, I⟩).Finds s ps vals := hfinds
  have hoperands : (evalAll (evalWithin H R (n + 1) I s) refs).run
      (m.keeping ⟨ps, body, ret, s, I⟩) = some (.ok vals, m.keeping ⟨ps, body, ret, s, I⟩) := by
    refine evalAll_run_of_values ((references_found hrefs hkept).imp fun a v h => ?_)
    obtain ⟨p, ha, hv⟩ := h
    rw [evalWithin_succ (Expr.shape_of_asParameter? ha) fun _ _ h => by cases h]
    exact evalNode_reference (Expr.shape_of_asParameter? ha) hv _
  have harity : (ps.map Param.ty).length = vals.length := by
    rw [List.length_map, hfinds.length_eq]
  rw [evalWithin_succ he (fun _ _ h => by cases h), evalNode, he]
  refine (run_bind_of_ok hlambda).trans ((run_bind_of_ok hoperands).trans ?_)
  rw [invokeValue, if_neg (not_not.mpr harity), run_step_bind, Option.map_eq_bind]
  exact congrArg _ (funext fun x => ofReply_run x.1 x.2)

/-- It ends as the activation does, once the outcome has crossed. -/
theorem activation_of_evalWithin {z : Except Exit Value × Machine σ}
    (h : (evalWithin H R n I s e).run m = some z) :
    ∃ q y, (callClosure (engineWithin H R q) ⟨ps, body, ret, s, I⟩ vals).run
      (m.keeping ⟨ps, body, ret, s, I⟩) = some y ∧ z = crossed y := by
  -- one unit of fuel for the invocation, one for its operands
  cases n with
  | zero =>
    rw [evalWithin] at h
    cases h
  | succ n =>
    cases n with
    | zero =>
      have hnone : (evalWithin H R 0 I s f).run m = none := by rw [evalWithin]; rfl
      rw [evalWithin_succ he (fun _ _ h => by cases h), evalNode, he] at h
      cases (run_bind_of_none hnone).symm.trans h
    | succ n =>
      rw [evalWithin_invocation he hf hty hrefs hfinds] at h
      obtain ⟨⟨reply, k⟩, happly, hreply⟩ := Option.map_eq_some_iff.mp h
      rw [applyWithin] at happly
      dsimp only at happly
      split at happly
      next =>
        have hnew : (m.keeping ⟨ps, body, ret, s, I⟩).closures[m.closures.size]? =
            some ⟨ps, body, ret, s, I⟩ := Array.getElem?_push_size
        rw [Setting.applyRef_of_some H _ hnew] at happly
        have hanswer : (callClosure (engineWithin H R n) ⟨ps, body, ret, s, I⟩ vals).toReply
            (m.keeping ⟨ps, body, ret, s, I⟩) = some (reply, k) := happly
        have hcrossed := toReply_run (callClosure (engineWithin H R n) ⟨ps, body, ret, s, I⟩ vals)
          (m.keeping ⟨ps, body, ret, s, I⟩)
        rw [hanswer] at hcrossed
        obtain ⟨y, hy, heq⟩ := Option.map_eq_some_iff.mp hcrossed.symm
        exact ⟨n, y, hy, hreply.symm.trans heq.symm⟩
      next => cases happly

end Restrained

/-- Two evaluations have ended alike: with one outcome, up to the identities of what they have made,
with host states that are related again, and with the counters and the footprint as each other's. -/
structure OutcomesAlike (fp : Footprint) (same : World → σ → σ → Prop) (w : World)
    (x y : Except Exit Value × Machine σ) : Prop where
  above : World.showing fp ≤ w
  outcome : ExceptLike (ExitLike w fun _ => True) (ValueLike w fun _ => True) x.1 y.1
  host : same w x.2.host y.2.host
  frames : ∀ f, fp.frames f → FrameLike w (fun _ => True) (x.2.store.frame f) (y.2.store.frame f)
  depths : x.2.depths = y.2.depths

section InPlace

variable {fp : Footprint} {same : World → σ → σ → Prop} {w : World}

/-- Host code passes on what is alike alike, and leaves machines behind that match. -/
theorem OutcomesAlike.crossed {r r' : Except Exit Value} {m m' k k' : Machine σ}
    (h : OutcomesAlike fp same w (r, m) (r', m')) (hk : m.Matches k) (hk' : m'.Matches k') :
    OutcomesAlike fp same w ((crossed (r, m)).1, k) ((crossed (r', m')).1, k') where
  above := h.above
  outcome := crossed_alike h.outcome m m'
  host := hk.host ▸ hk'.host ▸ h.host
  frames f hf := hk.frames f ▸ hk'.frames f ▸ h.frames f hf
  depths := hk.depths.symm.trans (h.depths.trans hk'.depths)

variable {hsame : ∀ {w w' : World}, w ≤ w' → ∀ {s t : σ}, same w s t → same w' s t} {H : Host σ}
  {m m₁ : Machine σ} {I : Interp} {s : Scope}

/-- A block as the body of a closure that is called with the values which its own scope finds for
its parameters. -/
theorem activates_in_place (hH : (beside fp same hsame).HostLike H) (hm : fp.Within m)
    (hscopes : m.ScopesExist) (hhost : same (World.showing fp) m.host m.host) (hs : fp.HasScope s)
    {ps : List Param} {vals : List Value} (hfinds : m.Finds s ps vals) {block : Expr}
    (hshape : ∃ locals body, block.shape = .block locals body) (hconstants : block.Constants fp.Knows)
    (hlimit : m.depths.getD I.id 0 < I.limit) {n : Nat} {r : Except Exit Value}
    (h : (evalWithin H (.sparing I 1 [s] ps) n I s block).run m = some (r, m₁))
    (hjump : ∀ l v, r ≠ .error (.jump l v)) (new : Closure) :
    ∃ r' m₂ w, Activates H ⟨ps, block, block.ty, s, I⟩ vals (m.keeping new) (r', m₂) ∧
      OutcomesAlike fp same w (r, m₁) (r', m₂) := by
  let c : Closure := ⟨ps, block, block.ty, s, I⟩
  have below : ∀ link ∈ s.links, link.frame < m.store.frames.size := fun link hlink =>
    hm.frames link.frame (hs link hlink).1
  have hvals : ∀ v ∈ vals, fp.Knows v := by
    intro v hv
    obtain ⟨p, -, hp⟩ := exists_left_of_forall₂ hfinds v hv
    exact hm.knows_of_lookup hs hp
  -- the body in front of the frame
  obtain ⟨m₀, hframe, hbeside⟩ := evalWhile_of_evalWithin hscopes below hfinds h
  have hsettled : c.outcome r = r := by
    obtain ⟨locals, body, hshape⟩ := hshape
    refine Closure.outcome_eq_self hjump fun v hr => ?_
    exact settle_of_block hshape (hr ▸ eval_of_evalWithin h)
  have hbody : (runClosure (engineWhile H (.withRoom I 1) n) c vals 0).run m = some (r, m₀) := by
    rw [runClosure_run _ (Nat.not_lt_zero _) hfinds.length_eq]
    refine (congrArg (Option.map _) hframe).trans ?_
    rw [Option.map_some, hsettled]
  -- and inside the activation
  obtain ⟨r', m₂, w, hrun, hsimilar, hr⟩ :=
    runClosure_inside hH hm hhost hs hconstants hvals (Nat.not_lt.mpr hlimit) hbody new
  refine ⟨r', m₂.left I, w, ⟨n, ?_⟩, hsimilar.above, hr, ?_, fun f hf => ?_, ?_⟩
  · show (callClosure (engine H n) c vals).run (m.keeping new) = _
    rw [Setting.callClosure_run]
    exact congrArg (Option.map _) hrun
  · rw [hbeside.host]
    exact hsimilar.host
  · rw [← hbeside.frame_eq (hm.frames f hf)]
    exact hsimilar.bindings f f (World.le_frames hsimilar.above ⟨rfl, hf⟩)
  · rw [hbeside.depths]
    refine hsimilar.depths₁.trans ?_
    show m.depths = m₂.depths.modify I.id (· - 1)
    rw [hsimilar.depths₂, Setting.modify_succ_pred]

/-- A block that is the body of such a closure ends on its own. -/
theorem ends_out_of_place (hH : (beside fp same hsame).HostLike H) (hm : fp.Within m)
    (hscopes : m.ScopesExist) (hhost : same (World.showing fp) m.host m.host) (hs : fp.HasScope s)
    {ps : List Param} {vals : List Value} (hfinds : m.Finds s ps vals) {block : Expr}
    (hshape : ∃ locals body, block.shape = .block locals body) (hconstants : block.Constants fp.Knows)
    (hlimit : m.depths.getD I.id 0 < I.limit) {n : Nat} {y : Except Exit Value × Machine σ}
    (h : (callClosure (engineWithin H
        (.sparing I 0 [s.extended m.store.frames.size none, s] ps) n)
        ⟨ps, block, block.ty, s, I⟩ vals).run (m.keeping ⟨ps, block, block.ty, s, I⟩) = some y) :
    ∃ r m₁, Evaluates H I s block m (r, m₁) ∧
      ((∀ l v, r ≠ .error (.jump l v)) → ∃ w, OutcomesAlike fp same w y (r, m₁)) := by
  let c : Closure := ⟨ps, block, block.ty, s, I⟩
  have below : ∀ link ∈ s.links, link.frame < m.store.frames.size := fun link hlink =>
    hm.frames link.frame (hs link hlink).1
  let inner : Machine σ := { m.keeping c with depths := m.depths.modify I.id (· + 1) }
  rw [Setting.callClosure_run, runClosure_run _ (Nat.not_lt.mpr hlimit) hfinds.length_eq,
    Option.map_map] at h
  obtain ⟨⟨r, k⟩, hframed, rfl⟩ := Option.map_eq_some_iff.mp h
  -- the body without the frame
  have hinner : inner.ScopesExist := hscopes.keeping below
  have hfound : inner.Finds s ps vals := hfinds
  obtain ⟨k₀, hplain, hbeside⟩ := evalWhile_of_framed hinner below hfound hframed
  -- and outside of the activation
  obtain ⟨r', m₁, w, hrun, hsimilar, hr⟩ := eval_outside hH hm hhost hs hconstants c hplain
  refine ⟨r', m₁, ⟨n, hrun⟩, fun hjump => ⟨w, hsimilar.above, ?_, ?_, fun f hf => ?_, ?_⟩⟩
  · have hsettled : c.outcome r = r := by
      obtain ⟨locals, body, hshape⟩ := hshape
      refine Closure.outcome_eq_self (fun l v hl => ?_) fun v hv => ?_
      · subst hl
        cases hr with
        | error exit =>
          cases exit with
          | jump _ _ => exact hjump _ _ rfl
      · exact settle_of_block hshape (hv ▸ eval_of_evalWithin hframed)
    show ExceptLike _ _ (c.outcome r) r'
    rw [hsettled]
    exact hr
  · show same w k.host m₁.host
    rw [← hbeside.host]
    exact hsimilar.host
  · show FrameLike w _ (k.store.frame f) (m₁.store.frame f)
    rw [hbeside.frame_eq (hm.frames f hf)]
    exact hsimilar.bindings f f (World.le_frames hsimilar.above ⟨rfl, hf⟩)
  · show k.depths.modify I.id (· - 1) = m₁.depths
    have hdepths : k.depths = m.depths.modify I.id (· + 1) :=
      hbeside.depths.symm.trans hsimilar.depths₁
    rw [hdepths, Setting.modify_succ_pred]
    exact hsimilar.depths₂.symm

/-- A block that is invoked in place ends as the block does, once the outcome has passed through host
code, and the other way round. -/
theorem invoke_crosses {b : BlockBuilder} {j j' : Nat} {block : Expr}
    (hbuild : b.build.run j = (.ok block, j')) {refs : List Expr} {ps : List Param}
    (hrefs : refs.map Expr.asParameter? = ps.map some) (k : Nat)
    (hH : (beside fp same hsame).HostLike H) (hm : fp.Within m) (hscopes : m.ScopesExist)
    (hhost : same (World.showing fp) m.host m.host) (hs : fp.HasScope s)
    (hbound : ∀ p ∈ ps, (m.store.lookup s p.id).isSome) (hconstants : block.Constants fp.Knows)
    (hlimit : m.depths.getD I.id 0 < I.limit) :
    ∃ tree next, (b.invoke refs).run k = (.ok tree, next) ∧
      (∀ n r m₁, (evalWithin H (.sparing I 1 [s] ps) n I s block).run m = some (r, m₁) →
        (∀ l v, r ≠ .error (.jump l v)) →
          Evaluates H I s block m (r, m₁) ∧ ∃ r' m₂ w, Evaluates H I s tree m (r', m₂) ∧
            OutcomesAlike fp same w ((crossed (r, m₁)).1, m₁) (r', m₂)) ∧
      ∀ n r' m₂, (evalWithin H (.sparing I 0 [s.extended m.store.frames.size none, s] ps) n I s
          tree).run m = some (r', m₂) →
        Evaluates H I s tree m (r', m₂) ∧ ∃ r m₁, Evaluates H I s block m (r, m₁) ∧
          ((∀ l v, r ≠ .error (.jump l v)) →
            ∃ w, OutcomesAlike fp same w (r', m₂) ((crossed (r, m₁)).1, m₁)) := by
  have hok := BlockBuilder.error_of_build hbuild
  obtain ⟨id, _, hblock⟩ := BlockBuilder.build_run hok j
  cases hblock.symm.trans hbuild
  obtain ⟨tree, f, id', next, htree, hshape, hf, hty⟩ := BlockBuilder.invoke_run hok hrefs k
  obtain ⟨vals, hfinds⟩ := exists_finds hbound
  let body : Expr := .mk id' (.block b.locals (heldStatements k b.lines)) b.ty
  let c : Closure := ⟨ps, body, b.ty, s, I⟩
  -- the lambda has been built on its own, with a block of other identities
  have hblocks : ∀ q t, eval H q I t (.mk id (.block b.locals (heldStatements j b.lines)) b.ty) =
      eval H q I t body := fun q t => eval_heldStatements H q I t b.locals b.lines b.ty j k id id'
  refine ⟨tree, next, htree, fun n r m₁ h hjump => ⟨⟨n, eval_of_evalWithin h⟩, ?_⟩,
    fun n r' m₂ h => ⟨⟨n, eval_of_evalWithin h⟩, ?_⟩⟩
  · obtain ⟨r', m₂, w, ⟨q, hq⟩, halike⟩ := activates_in_place hH hm hscopes hhost hs hfinds
      ⟨_, _, rfl⟩ hconstants hlimit h hjump c
    have hactivates : Activates H c vals (m.keeping c) (r', m₂) := by
      refine ⟨q, (congrArg (fun x : Run σ Value => x.run (m.keeping c)) ?_).trans hq⟩
      exact (callClosure_congr (hblocks q)).symm
    have hkept : (m.keeping c).Finds s ps vals := hfinds
    have hall : EvaluatesAll H I s refs (m.keeping c) (.ok vals, m.keeping c) :=
      ⟨1, evalAll_run_of_values ((references_found hrefs hkept).imp fun a v h => by
        obtain ⟨p, ha, hv⟩ := h
        rw [eval]
        exact evalNode_reference (Expr.shape_of_asParameter? ha) hv _)⟩
    have harity : ps.length = refs.length := by
      have hlength := congrArg List.length hrefs
      rw [List.length_map, List.length_map] at hlength
      exact hlength.symm
    refine ⟨(crossed (r', m₂)).1, (crossed (r', m₂)).2, w, ?_,
      halike.crossed (.refl m₁) (matches_crossed r' m₂)⟩
    exact (evaluates_invocation hshape hf hty hall harity).mpr ⟨(r', m₂), hactivates, rfl⟩
  · have hbody : body.Constants fp.Knows := constants_heldStatements hconstants k id'
    obtain ⟨q, ⟨r'', k'⟩, hactivation, hcrossed⟩ :=
      activation_of_evalWithin hshape hf hty hrefs hfinds h
    obtain ⟨r, m₁, ⟨q', hends⟩, halike⟩ :=
      ends_out_of_place hH hm hscopes hhost hs hfinds ⟨_, _, rfl⟩ hbody hlimit hactivation
    refine ⟨r, m₁, ⟨q', ?_⟩, fun hjump => ?_⟩
    · exact (congrArg (fun x : Run σ Value => x.run m) (hblocks q' s)).trans hends
    · obtain ⟨w, halike⟩ := halike hjump
      refine ⟨w, ?_⟩
      have hends := halike.crossed (matches_crossed r'' k') (.refl m₁)
      rw [← hcrossed] at hends
      exact hends

/-- What holds of the end of a block that is invoked, in terms of the end of the block itself: what
holds of an outcome like that of the block, unless the block throws an object that carries a fault.
The invocation then ends as if the block had ended with the fault. -/
structure EndsInvoked (P : Except Exit Value × Machine σ → Prop) (r : Except Exit Value)
    (m : Machine σ) : Prop where
  alike : thrownFault? r = none → P (r, m)
  unwrapped : ∀ fault, thrownFault? r = some fault → P (.error (.fault fault), m)

theorem EndsInvoked.of_crossed {P : Except Exit Value × Machine σ → Prop} {r : Except Exit Value}
    {m : Machine σ} (hjump : ∀ l v, r ≠ .error (.jump l v)) (h : P ((crossed (r, m)).1, m)) :
    EndsInvoked P r m where
  alike hnone := by rwa [crossed_of_thrownFault?_eq_none hjump hnone] at h
  unwrapped fault hsome := by rwa [crossed_of_thrownFault? hsome] at h

/-- Invoking a block in place is transparent. Let a builder build a block, and take a scope that
binds some variables, on a machine where both exist, with room for one more activation, under host
code that treats alike what is alike. Then the builder also makes the block that is invoked in
place with these variables, at whatever moment; and where one of the two ends, and has assigned to
none of the variables and not come to the limit on nested calls, the other one ends too.

First, let the block end, let it assign to none of the variables as the scope finds them, leave
room for one more activation and not jump out. Then the invocation ends alike: with one value, one
thrown value or one fault, up to the identities and the closures that the two have made, with host
states that are related again, and with the counters and the variables of the footprint as each
other's. The one exception is a block that throws an object that carries a fault, which a tree
cannot get at unless host code has kept it: the invocation ends with the fault itself, the rest
alike.

Second, let the invocation end, and let it assign to none of the variables, neither in the frame
of its activation nor as the scope finds them. Then the block ends as well, and unless it jumps
out, they end alike, with the same exception. -/
theorem invoke_transparent {b : BlockBuilder} {j j' : Nat} {block : Expr}
    (hbuild : b.build.run j = (.ok block, j')) {refs : List Expr} {ps : List Param}
    (hrefs : refs.map Expr.asParameter? = ps.map some) (k : Nat)
    (hH : (beside fp same hsame).HostLike H) (hm : fp.Within m) (hscopes : m.ScopesExist)
    (hhost : same (World.showing fp) m.host m.host) (hs : fp.HasScope s)
    (hbound : ∀ p ∈ ps, (m.store.lookup s p.id).isSome) (hconstants : block.Constants fp.Knows)
    (hlimit : m.depths.getD I.id 0 < I.limit) :
    ∃ tree next, (b.invoke refs).run k = (.ok tree, next) ∧
      (∀ n r m₁, (evalWithin H (.sparing I 1 [s] ps) n I s block).run m = some (r, m₁) →
        (∀ l v, r ≠ .error (.jump l v)) →
          Evaluates H I s block m (r, m₁) ∧ ∃ r' m₂ w, Evaluates H I s tree m (r', m₂) ∧
            EndsInvoked (fun x => OutcomesAlike fp same w x (r', m₂)) r m₁) ∧
      ∀ n r' m₂, (evalWithin H (.sparing I 0 [s.extended m.store.frames.size none, s] ps) n I s
          tree).run m = some (r', m₂) →
        Evaluates H I s tree m (r', m₂) ∧ ∃ r m₁, Evaluates H I s block m (r, m₁) ∧
          ((∀ l v, r ≠ .error (.jump l v)) →
            ∃ w, EndsInvoked (OutcomesAlike fp same w (r', m₂)) r m₁) := by
  obtain ⟨tree, next, htree, hforth, hback⟩ := invoke_crosses hbuild hrefs k hH hm hscopes hhost hs
    hbound hconstants hlimit
  refine ⟨tree, next, htree, fun n r m₁ h hjump => ?_, fun n r' m₂ h => ?_⟩
  · obtain ⟨hblock, r', m₂, w, hinvoked, halike⟩ := hforth n r m₁ h hjump
    exact ⟨hblock, r', m₂, w, hinvoked, .of_crossed hjump halike⟩
  · obtain ⟨hinvoked, r, m₁, hblock, halike⟩ := hback n r' m₂ h
    refine ⟨hinvoked, r, m₁, hblock, fun hjump => ?_⟩
    obtain ⟨w, halike⟩ := halike hjump
    exact ⟨w, .of_crossed hjump halike⟩

end InPlace

namespace Sample

/-- A variable of the scope around. -/
def held : Param := ⟨0, some "held", .int⟩

/-- A block that throws what the variable holds. -/
def throwing : BlockBuilder :=
  { lines := [.mk 2 (.throw (some (.mk 1 (.parameter held) .int))) .void] }

/-- A machine with one frame, in which the variable is bound. -/
def sevenHeld : Machine Unit := ⟨5, ⟨#[[(0, .int 7)]]⟩, #[], #[0], ()⟩

/-- What is on that machine. -/
def onSevenHeld : Footprint := ⟨5, fun _ => False, (· = 0)⟩

end Sample

open Sample in
/-- What the block throws, the block in place throws, and the other way round. -/
theorem throwing_invoked :
    ∃ block m₁ tree m₂, throwing.build.run 3 = (.ok block, 4) ∧
      Evaluates silent ⟨0, 1⟩ (.single 0) block sevenHeld (.error (.throw (.int 7)), m₁) ∧
      (throwing.invoke [.mk 4 (.parameter held) .int]).run 5 = (.ok tree, 8) ∧
      Evaluates silent ⟨0, 1⟩ (.single 0) tree sevenHeld (.error (.throw (.int 7)), m₂) := by
  obtain ⟨block, hbuild⟩ : ∃ block, throwing.build.run 3 = (.ok block, 4) := ⟨_, rfl⟩
  have hconstants : block.Constants onSevenHeld.Knows := by
    -- the tree has no constants
    cases hbuild
    intro e he v hv
    have hnodes : e ∈ [_, _, _] := he
    rcases List.mem_cons.mp hnodes with rfl | hnodes
    · cases hv
    · rcases List.mem_cons.mp hnodes with rfl | hnodes
      · cases hv
      · cases List.mem_singleton.mp hnodes
        cases hv
  have hwithin : onSevenHeld.Within sevenHeld := by
    refine ⟨Nat.le_refl 5, fun f hf => ?_, fun f hf x hx => ?_, fun _ h => h.elim⟩
    · cases hf
      exact Nat.one_pos
    · cases hf
      obtain rfl := List.mem_singleton.mp hx
      exact List.forall_mem_nil _
  have hscope : onSevenHeld.HasScope (.single 0) := by
    intro link hlink
    obtain rfl := List.mem_singleton.mp hlink
    exact ⟨rfl, fun _ h => by cases h⟩
  have hrefs : [Expr.mk 4 (.parameter held) .int].map Expr.asParameter? = [held].map some := rfl
  have hlimit : sevenHeld.depths.getD (⟨0, 1⟩ : Interp).id 0 < (⟨0, 1⟩ : Interp).limit :=
    Nat.one_pos
  obtain ⟨tree, next, htree, hforth, hback⟩ := invoke_transparent hbuild hrefs 5
    (silent_like (beside onSevenHeld (fun _ => Eq) fun _ _ _ h => h)) hwithin
    (fun i c hc => by cases hc) rfl hscope (List.forall_mem_singleton.mpr rfl) hconstants hlimit
  obtain ⟨tree', htree'⟩ :
      ∃ tree, (throwing.invoke [.mk 4 (.parameter held) .int]).run 5 = (.ok tree, 8) := ⟨_, rfl⟩
  -- both spare the variable
  obtain ⟨k₁, hthrown⟩ : ∃ k, (evalWithin silent (.sparing ⟨0, 1⟩ 1 [.single 0] [held]) 3 ⟨0, 1⟩
      (.single 0) block).run sevenHeld = some (.error (.throw (.int 7)), k) := by
    cases hbuild
    exact ⟨_, rfl⟩
  obtain ⟨k₂, hinvoked⟩ : ∃ k, (evalWithin silent (.sparing ⟨0, 1⟩ 0
      [(Scope.single 0).extended sevenHeld.store.frames.size none, .single 0] [held]) 5 ⟨0, 1⟩
      (.single 0) tree').run sevenHeld = some (.error (.throw (.int 7)), k) := by
    cases htree'
    exact ⟨_, rfl⟩
  cases htree.symm.trans htree'
  obtain ⟨hblock, r', m₂, w, hends, halike⟩ := hforth _ _ _ hthrown fun l v h => by cases h
  obtain ⟨-, r, m₁, hblock', -⟩ := hback _ _ _ hinvoked
  cases hblock.unique hblock'
  refine ⟨block, k₁, tree, m₂, hbuild, hblock', htree, ?_⟩
  cases (halike.alike rfl).outcome with
  | error exit =>
    cases exit with
    | throw value =>
      cases value
      exact hends

namespace Sample

/-- A block that throws what the host has kept. -/
def keptBlock : BlockBuilder := { lines := [keptThrow] }

/-- A block that gives one. -/
def oneBlock : BlockBuilder := { lines := [.mk 5 (.constant (.int 1)) .int] }

end Sample

open Sample in
/-- A block that throws what host code has kept throws the object, and invoked it ends with the fault
that the object carries. A block that makes no call gives its value where no call is allowed, and
invoked it is refused. -/
theorem invoked_block_ends_differently :
    (∃ block tree next v m₁ m₂, keptBlock.build.run 6 = (.ok block, 7) ∧
      (keptBlock.invoke []).run 7 = (.ok tree, next) ∧
      v.asFault? = some (.unresolvedLabel "out#0") ∧
      Evaluates keeper ⟨0, 4⟩ ⟨[]⟩ block untouched (.error (.throw v), m₁) ∧
      Evaluates keeper ⟨0, 4⟩ ⟨[]⟩ tree untouched
        (.error (.fault (.unresolvedLabel "out#0")), m₂) ∧
      ∀ fp same w, ¬OutcomesAlike fp same w (.error (.throw v), m₁)
        (.error (.fault (.unresolvedLabel "out#0")), m₂)) ∧
    ∃ block tree next m₁ m₂, oneBlock.build.run 6 = (.ok block, 7) ∧
      (oneBlock.invoke []).run 7 = (.ok tree, next) ∧
      Evaluates silent ⟨0, 0⟩ ⟨[]⟩ block untouched (.ok (.int 1), m₁) ∧
      Evaluates silent ⟨0, 0⟩ ⟨[]⟩ tree untouched (.error (.fault (.stackOverflow 0)), m₂) := by
  refine ⟨⟨_, _, _, .object 6 .evaluationFault (.fault (.unresolvedLabel "out#0")), _, _,
    rfl, rfl, rfl, ⟨8, rfl⟩, ⟨8, rfl⟩, fun fp same w h => ?_⟩,
    ⟨_, _, _, _, _, rfl, rfl, ⟨8, rfl⟩, ⟨8, rfl⟩⟩⟩
  cases h.outcome with
  | error herror => cases herror

end CodeTree
