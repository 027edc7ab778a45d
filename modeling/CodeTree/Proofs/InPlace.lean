import CodeTree.Builder.Block
import CodeTree.Proofs.Declaration
import CodeTree.Proofs.Interposition
import CodeTree.Proofs.Restraint
import CodeTree.Proofs.SameTree
import CodeTree.Proofs.Substitution

/-!
# Blocks that are made for a place

`BlockBuilder.invoke` makes a lambda of a block and calls it at once, with some variables of the
scope around as parameters. It builds the block again for that: a block with other identities,
which no evaluation sees (`BlockBuilder.invoke_run`, `eval_heldStatements`). And it binds the
variables again, in a frame of their own. That makes no difference to an evaluation that assigns
to none of them, neither to what the frame binds nor to what the scope around does:

* `evalWhile_of_evalWithin` — what ends without the frame, and spares the variables as the scope
  finds them, ends so in front of the frame;
* `evalWhile_of_framed` — what ends in front of the frame, and spares the variables in the frame
  and around it, ends so without the frame.
-/

namespace CodeTree

variable {σ : Type}

/-! ## What the builder makes -/

namespace BlockBuilder

/-- The type of the block. -/
def ty (b : BlockBuilder) : Ty := b.ret.getD ((b.lines.getLast?.map Expr.ty).getD .void)

theorem error_of_build {b : BlockBuilder} {k k' : Nat} {block : Expr}
    (h : b.build.run k = (.ok block, k')) : b.error = none := by
  cases herror : b.error with
  | none => rfl
  | some error =>
    rw [build, herror] at h
    cases h

/-- The block, whatever the next identity is. -/
theorem build_run {b : BlockBuilder} (h : b.error = none) (k : Nat) :
    ∃ id next, b.build.run k =
      (.ok (.mk id (.block b.locals (heldStatements k b.lines)) b.ty), next) := by
  obtain ⟨ret, locals, lines, error⟩ := b
  obtain rfl : error = none := h
  cases ret <;> cases lines <;> exact ⟨_, _, rfl⟩

theorem expectParameters_of_references : ∀ {refs : List Expr} {ps : List Param},
    refs.map Expr.asParameter? = ps.map some → Expr.expectParameters refs = .ok ps
  | [], [], _ => rfl
  | a :: refs, p :: ps, h => by
    obtain ⟨ha, hrefs⟩ := List.cons.inj h
    rw [Expr.expectParameters, Expr.expectParameter, ha, expectParameters_of_references hrefs]
    rfl

/-- Invoked in place, it is the body of a lambda that is called with references to its own
parameters. -/
theorem invoke_run {b : BlockBuilder} (h : b.error = none) {refs : List Expr} {ps : List Param}
    (hrefs : refs.map Expr.asParameter? = ps.map some) (k : Nat) :
    ∃ tree f id next, (b.invoke refs).run k = (.ok tree, next) ∧ tree.shape = .invoke f refs ∧
      f.shape = .lambda ps (.mk id (.block b.locals (heldStatements k b.lines)) b.ty) ∧
      f.ty = .func (ps.map Param.ty) b.ty := by
  obtain ⟨id, next, hbuild⟩ := build_run h k
  have hlambda : ∃ f next', (b.lambda refs).run k = (.ok f, next') ∧
      f.shape = .lambda ps (.mk id (.block b.locals (heldStatements k b.lines)) b.ty) ∧
      f.ty = .func (ps.map Param.ty) b.ty := by
    rw [lambda, build_bind, hbuild, expectParameters_of_references hrefs]
    cases hret : b.ret with
    | none => exact ⟨_, _, rfl, rfl, rfl⟩
    | some ret => exact ⟨_, _, rfl, rfl, by rw [ty, hret]; rfl⟩
  obtain ⟨f, next', hrun, hf, hty⟩ := hlambda
  rw [invoke, build_bind, hrun]
  exact ⟨_, f, id, _, rfl, rfl, hf, hty⟩

end BlockBuilder

/-! ## Trees that differ in identities only -/

/-- No evaluation sees the identity of a node. -/
theorem Expr.Twin.eval_eq {a b : Expr} (h : a.Twin b) (H : Host σ) (n : Nat) (I : Interp) (s : Scope) :
    eval H n I s a = eval H n I s b := by
  cases n with
  | zero => rw [eval, eval]
  | succ n =>
    rw [eval, eval]
    unfold evalNode
    rw [h.shape, h.ty]

/-- Nor that of the node which a block without statements holds. -/
theorem eval_heldStatements (H : Host σ) (n : Nat) (I : Interp) (s : Scope) (locals : List Param)
    (lines : List Expr) (ty : Ty) (j k id id' : Nat) :
    eval H n I s (.mk id (.block locals (heldStatements j lines)) ty) =
      eval H n I s (.mk id' (.block locals (heldStatements k lines)) ty) := by
  cases lines with
  | cons e es =>
    have htwin : Expr.Twin (.mk id (.block locals (e :: es)) ty)
        (.mk id' (.block locals (e :: es)) ty) := ⟨rfl, rfl⟩
    exact htwin.eval_eq H n I s
  | nil =>
    cases n with
    | zero => rw [eval, eval]
    | succ n =>
      rw [eval, eval]
      show evalBlock (engine H n) I s ty locals [.mk j .empty .void] =
        evalBlock (engine H n) I s ty locals [.mk k .empty .void]
      have hempty : Expr.Twin (.mk j .empty .void) (.mk k .empty .void) := ⟨rfl, rfl⟩
      have htwin : ∀ inner, (engine H n).eval I inner (.mk j .empty .void) =
          (engine H n).eval I inner (.mk k .empty .void) := hempty.eval_eq H n I
      unfold evalBlock
      refine congrArg _ (funext fun inner => congrArg _ (funext fun _ => ?_))
      refine congrArg (· >>= fun v => pure (settle ty v)) ?_
      cases (engine H n).rounds with
      | zero => rfl
      | succ rounds =>
        simp only [runBody, runStatements, htwin]
        rfl

/-- It holds the same constants. -/
theorem Expr.Twin.constants {good : Value → Prop} {a b : Expr} (h : a.Twin b)
    (ha : a.Constants good) : b.Constants good := by
  intro g hg v hv
  rcases Expr.mem_nodes.mp hg with rfl | ⟨c, hc, hgc⟩
  · exact ha a a.mem_nodes_self v (h.shape.trans hv)
  · have hc : c ∈ a.children := by
      rw [children, h.shape]
      exact hc
    exact ha g (mem_nodes_of_child hc hgc) v hv

theorem constants_heldStatements {good : Value → Prop} {locals : List Param} {lines : List Expr}
    {ty : Ty} {j id : Nat} (h : (Expr.mk id (.block locals (heldStatements j lines)) ty).Constants good)
    (k id' : Nat) : (Expr.mk id' (.block locals (heldStatements k lines)) ty).Constants good := by
  cases lines with
  | cons e es =>
    have htwin : Expr.Twin (.mk id (.block locals (e :: es)) ty)
        (.mk id' (.block locals (e :: es)) ty) := ⟨rfl, rfl⟩
    exact htwin.constants h
  | nil =>
    -- there is no constant in such a block
    intro g hg v hv
    have hg : g ∈ [_, _] := hg
    rcases List.mem_cons.mp hg with rfl | hg
    · cases hv
    · cases List.mem_singleton.mp hg
      cases hv

/-! ## The frame -/

/-- Layers without the frame, as far as the restraint goes, and with it. -/
theorem Interposition.layerWithin {X : Interposition} {R : Restraint σ} (hshared : X.shared)
    (hspares : ∀ (m : Machine σ) scope p, R.assign m scope p →
      X.extra.get? p.id = none ∨ m.store.owner? scope p.id ≠ m.store.owner? X.outer p.id)
    {P Q : Place} (h : X.Placed (fun _ => True) P Q) :
    (X.lockstep False fun _ => True).LayerWithin R ⟨⟩ P Q := by
  have htree : P.tree = Q.tree := by cases h <;> assumption
  by_cases hshape : ∃ target a, P.tree.shape = .assign target a
  · obtain ⟨target, a, hshape⟩ := hshape
    refine .assign hshape (htree ▸ hshape) ?_ fun _ _ m st₂ hst hfree v =>
      h.assign hst (hspares m P.scope target hfree) v
    cases h with
    | outside interp _ scope => exact .outside interp rfl scope
    | inside interp _ _ scope => exact .inside interp rfl trivial scope
  · exact .layer (Interposition.layer h (fun _ _ _ => .inl hshared)
      (fun p a ha => absurd ⟨p, a, ha⟩ hshape) fun _ _ _ => trivial) fun p a ha => hshape ⟨p, a, ha⟩

/-- Layers with the frame, as far as the restraint goes, and without it. -/
theorem Interposition.layerWithin_swapped {X : Interposition} {R : Restraint σ} (hshared : X.shared)
    (hspares : ∀ (m : Machine σ) scope p, R.assign m scope p → X.extra.get? p.id = none ∨
      m.store.owner? scope p.id ≠ m.store.owner? (X.outer.extended X.frame none) p.id ∧
        m.store.owner? scope p.id ≠ m.store.owner? X.outer p.id)
    {P Q : Place} (h : X.Placed (fun _ => True) P Q) :
    (X.lockstep False fun _ => True).swapped.LayerWithin R ⟨⟩ Q P := by
  have htree : P.tree = Q.tree := by cases h <;> assumption
  by_cases hshape : ∃ target a, P.tree.shape = .assign target a
  · obtain ⟨target, a, hshape⟩ := hshape
    refine .assign (htree ▸ hshape) hshape ?_ fun _ _ m st₁ hst hfree v => ?_
    · cases h with
      | outside interp _ scope => exact .outside interp rfl scope
      | inside interp _ _ scope => exact .inside interp rfl trivial scope
    · have hapart := (hspares m Q.scope target hfree).imp_right fun hne =>
        h.apart_of_framed hst hne.1 hne.2
      obtain ⟨hfound, hmemory⟩ := h.assign hst hapart v
      exact ⟨hfound.symm, hmemory⟩
  · exact .layer (Lockstep.LayerLike.swapped htree (Interposition.layer h (fun _ _ _ => .inl hshared)
      (fun p a ha => absurd ⟨p, a, ha⟩ hshape) fun _ _ _ => trivial))
      fun p a ha => hshape ⟨p, a, htree ▸ ha⟩

section Frame

variable {I : Interp} {room : Nat} {s : Scope} {ps : List Param} {vals : List Value} {m : Machine σ}

/-- The parameters with the values that the scope finds for them. -/
abbrev Machine.Finds (m : Machine σ) (s : Scope) (ps : List Param) (vals : List Value) : Prop :=
  List.Forall₂ (fun p v => m.store.lookup s p.id = some v) ps vals

theorem finds_zip (h : m.Finds s ps vals) : ∀ b ∈ ps.zip vals, m.store.lookup s b.1.id = some b.2 := by
  induction h with
  | nil => exact List.forall_mem_nil _
  | cons hp _ ih => exact List.forall_mem_cons.mpr ⟨hp, ih⟩

/-- What the frame binds, the scope binds to the same values. -/
theorem agrees_of_finds (h : m.Finds s ps vals) {id : Nat} {v : Value}
    (hv : (Frame.setAll [] (ps.zip vals)).get? id = some v) : m.store.lookup s id = some v := by
  by_cases hid : ∃ b ∈ ps.zip vals, b.1.id = id
  · obtain ⟨b, hb, rfl⟩ := hid
    have hagree : ∀ b' ∈ ps.zip vals, b'.1.id = b.1.id → b'.2 = b.2 := by
      intro b' hb' hid
      have hlookup := finds_zip h b' hb'
      rw [hid, finds_zip h b hb] at hlookup
      exact (Option.some.inj hlookup).symm
    rw [Frame.get?_setAll_of_agree hagree (.inr ⟨b, hb, rfl⟩)] at hv
    rw [finds_zip h b hb, hv]
  · rw [Frame.get?_setAll_of_ne fun b hb hbid => hid ⟨b, hb, hbid⟩] at hv
    cases hv

theorem unbound_of_ne {id : Nat} (h : ∀ q ∈ ps, q.id ≠ id) :
    (Frame.setAll [] (ps.zip vals)).get? id = none :=
  Frame.get?_setAll_of_ne fun b hb => h b.1 (List.of_mem_zip hb).1

variable {H : Host σ} (hm : m.ScopesExist)
  (below : ∀ link ∈ s.links, link.frame < m.store.frames.size) (hfinds : m.Finds s ps vals) {n : Nat} {e : Expr} {r : Except Exit Value}

include hm hfinds

/-- What an evaluation that spares the variables ends with, it ends with in front of the frame. -/
theorem evalWhile_of_evalWithin {m₁ : Machine σ}
    (h : (evalWithin H (.sparing I room [s] ps) n I s e).run m = some (r, m₁)) :
    ∃ m₂, (evalWhile H (.withRoom I room) n I (s.extended m.store.frames.size none) e).run
        { m with store := m.store.opened (ps.zip vals) } = some (r, m₂) ∧
      (Interposition.opening m.store (ps.zip vals) s True below).EndsBeside (r, m₁) (r, m₂) := by
  let X := Interposition.opening m.store (ps.zip vals) s True below
  have hspares : ∀ (k : Machine σ) scope p, (Restraint.sparing I room [s] ps).assign k scope p →
      X.extra.get? p.id = none ∨ k.store.owner? scope p.id ≠ k.store.owner? s p.id :=
    fun _ _ _ hfree => (Restraint.spares_of_assign hfree).imp unbound_of_ne fun hne =>
      hne s List.mem_cons_self
  have hengines : (X.lockstep False fun _ => True).Engines m.depths
      (engineWithin H (.sparing I room [s] ps) n) (engineWhile H (.withRoom I room) n) :=
    Lockstep.within_engines (fun hboth => hboth)
      (fun _ _ _ hplace => Interposition.layerWithin trivial hspares hplace) (fun _ _ _ => rfl)
      (fun _ _ _ _ => callsWithRoom_of_similar) n m.depths
  obtain ⟨⟨r', m₂⟩, hrun, _, -, hsimilar, hr⟩ :=
    (hengines.eval ⟨⟩ ⟨I, s, e⟩ ⟨I, s.extended m.store.frames.size none, e⟩
      (.inside rfl rfl trivial X.sees_opened) m _
      (Interposition.similar_opening hm below fun _ id v hv => agrees_of_finds hfinds hv)).of_some h
  obtain rfl : r = r' := hr.eq
  exact ⟨m₂, hrun, .of_similar hsimilar⟩

/-- What an evaluation in front of the frame ends with, if it spares the variables in the frame
and in the scope around, it ends with without the frame. -/
theorem evalWhile_of_framed {m₂ : Machine σ}
    (h : (evalWithin H (.sparing I room [s.extended m.store.frames.size none, s] ps) n I
        (s.extended m.store.frames.size none) e).run
      { m with store := m.store.opened (ps.zip vals) } = some (r, m₂)) :
    ∃ m₁, (evalWhile H (.withRoom I room) n I s e).run m = some (r, m₁) ∧
      (Interposition.opening m.store (ps.zip vals) s True below).EndsBeside (r, m₁) (r, m₂) := by
  let X := Interposition.opening m.store (ps.zip vals) s True below
  let R : Restraint σ := .sparing I room [s.extended m.store.frames.size none, s] ps
  have hspares : ∀ (k : Machine σ) scope p, R.assign k scope p → X.extra.get? p.id = none ∨
      k.store.owner? scope p.id ≠ k.store.owner? (X.outer.extended X.frame none) p.id ∧
        k.store.owner? scope p.id ≠ k.store.owner? X.outer p.id :=
    fun _ _ _ hfree => (Restraint.spares_of_assign hfree).imp unbound_of_ne fun hne =>
      ⟨hne _ List.mem_cons_self, hne s (List.mem_cons_of_mem _ List.mem_cons_self)⟩
  have hengines : (X.lockstep False fun _ => True).swapped.Engines m.depths (engineWithin H R n)
      (engineWhile H (.withRoom I room) n) :=
    Lockstep.within_engines (fun hboth => hboth)
      (fun _ Q P (hplace : X.Placed _ P Q) => Interposition.layerWithin_swapped trivial hspares hplace)
      (fun _ _ _ => rfl) (fun _ _ _ _ => callsWithRoom_of_similar) n m.depths
  have hopened : (X.lockstep False fun _ => True).Similar ⟨⟩ m.depths m
      { m with store := m.store.opened (ps.zip vals) } :=
    Interposition.similar_opening hm below fun _ id v hv => agrees_of_finds hfinds hv
  obtain ⟨⟨r', m₁⟩, hrun, _, -, hsimilar, hr⟩ :=
    (hengines.eval ⟨⟩ ⟨I, s.extended m.store.frames.size none, e⟩ ⟨I, s, e⟩
      (.inside rfl rfl trivial X.sees_opened) _ m hopened.swapped).of_some h
  obtain rfl : r = r' := hr.eq
  exact ⟨m₁, hrun, .of_similar (Lockstep.Similar.swapped hsimilar)⟩

end Frame

end CodeTree
