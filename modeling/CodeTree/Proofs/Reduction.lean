import CodeTree.Proofs.Alone

/-!
# Trees that reduce to others

A tree reduces to another one when the two are the same but for nodes that have been answered:
where the first tree has a node that gives one value whenever it is evaluated
(`Expr.Settles`), the second one holds that value (`Expr.Holds`).

* `Expr.Reduces` — reduction, layer by layer, with `Expr.Reduces.dest` and `Expr.Reduces.fold`
  for one layer;
* `Machine.Coherent` — nothing on a machine refers to what does not exist;
* `reducing` — the setting in which a tree stands beside one that it reduces to.

Main statement: `eval_of_reduces` — as long as no limit on nested calls is reached, the two
evaluate alike, and go on alike in all later calls.
-/

namespace CodeTree

variable {σ : Type}

/-! ## Nodes with one answer -/

/-- A node that gives one value wherever it is evaluated, on any machine that has handed out the
identities below `ids`. It takes `least` fuel or more and leaves alone the frames that were
there. Evaluations that reach a limit on nested calls do not count. -/
def Expr.Settles (H : Host σ) (ids least : Nat) (e : Expr) (v : Value) : Prop :=
  ∀ (k : Machine σ) I s n r k', ids ≤ k.next → I.id < k.depths.size →
    (evalWhile H .limited n I s e).run k = some (r, k') →
    least ≤ n ∧ r = .ok v ∧ Grown (· < k.store.frames.size) k k' ∧ k'.depths = k.depths

/-- A node that gives a value at once. -/
def Expr.Holds (H : Host σ) (least : Nat) (e : Expr) (v : Value) : Prop :=
  ∀ n, least ≤ n → ∀ I s (k : Machine σ), (eval H n I s e).run k = some (.ok v, k)

/-- A node that holds the one answer of another, which exists already. -/
structure Expr.Answered (H : Host σ) (ids closures : Nat) (a b : Expr) : Prop where
  label : a.label? = b.label?
  answer : ∃ v least, a.Settles H ids least v ∧ b.Holds H least v ∧ v.Known ids closures

/-! ## Reduction -/

/-- Nodes of one type of which the second is the answer of the first, or which have the same
layer with children related by `R`. -/
structure Expr.ReducesBy (H : Host σ) (ids closures : Nat) (R : Expr → Expr → Prop)
    (a b : Expr) : Prop where
  ty : a.ty = b.ty
  node : Answered H ids closures a b ∨
    Shape.Like (fun v v' => v = v' ∧ v.Known ids closures) (fun _ => R) a.shape b.shape

/-- A tree that is another one but for nodes that have been answered. -/
def Expr.Reduces (H : Host σ) (ids closures : Nat) (a b : Expr) : Prop :=
  ∃ R : Expr → Expr → Prop, R a b ∧ ∀ a b, R a b → ReducesBy H ids closures R a b

theorem Value.Known.mono {ids ids' closures closures' : Nat} (hids : ids ≤ ids')
    (hclosures : closures ≤ closures') {v : Value} (h : v.Known ids closures) :
    v.Known ids' closures' := by
  intro x hx
  have hknown := h x hx
  cases x with
  | id n => exact Nat.lt_of_lt_of_le hknown hids
  | closure i => exact Nat.lt_of_lt_of_le hknown hclosures
  | fault f => trivial

namespace Expr

variable {H : Host σ} {ids ids' closures closures' : Nat} {R R' : Expr → Expr → Prop} {a b : Expr}

theorem Answered.mono (hids : ids ≤ ids') (hclosures : closures ≤ closures')
    (h : Answered H ids closures a b) : Answered H ids' closures' a b := by
  obtain ⟨hlabel, v, least, hsettles, hholds, hknown⟩ := h
  refine ⟨hlabel, v, least, ?_, hholds, hknown.mono hids hclosures⟩
  exact fun k I s n r k' hk => hsettles k I s n r k' (Nat.le_trans hids hk)

theorem ReducesBy.mono (hids : ids ≤ ids') (hclosures : closures ≤ closures')
    (hR : ∀ a b, R a b → R' a b) (h : ReducesBy H ids closures R a b) :
    ReducesBy H ids' closures' R' a b := by
  refine ⟨h.ty, h.node.imp (·.mono hids hclosures) fun hlike => ?_⟩
  exact hlike.imp (fun _ _ hv => ⟨hv.1, hv.2.mono hids hclosures⟩) fun _ => hR

theorem ReducesBy.label (h : ReducesBy H ids closures R a b) : a.label? = b.label? := by
  rcases h.node with hanswered | hlike
  · exact hanswered.label
  · exact label?_eq_of_like hlike

namespace Reduces

/-- One layer of a reduction. -/
theorem dest (h : Reduces H ids closures a b) :
    ReducesBy H ids closures (Reduces H ids closures) a b := by
  obtain ⟨R, hab, hR⟩ := h
  exact (hR a b hab).mono (Nat.le_refl _) (Nat.le_refl _) fun a b h => ⟨R, h, hR⟩

theorem fold (h : ReducesBy H ids closures (Reduces H ids closures) a b) :
    Reduces H ids closures a b := by
  -- pairs with one layer of reduction are closed, since each reduction has a first layer
  refine ⟨ReducesBy H ids closures (Reduces H ids closures), h, fun a b hab => ?_⟩
  exact hab.mono (Nat.le_refl _) (Nat.le_refl _) fun _ _ => dest

theorem mono (hids : ids ≤ ids') (hclosures : closures ≤ closures')
    (h : Reduces H ids closures a b) : Reduces H ids' closures' a b := by
  obtain ⟨R, hab, hR⟩ := h
  exact ⟨R, hab, fun a b h => (hR a b h).mono hids hclosures fun _ _ h => h⟩

/-- A tree reduces to itself. -/
theorem refl (h : a.Constants (Value.Known ids closures)) : Reduces H ids closures a a := by
  refine ⟨fun a b => a = b ∧ a.Constants (Value.Known ids closures), ⟨rfl, h⟩, ?_⟩
  intro a _ hab
  obtain ⟨rfl, h⟩ := hab
  refine ⟨rfl, .inr (Shape.like_self (fun v hv => ⟨rfl, h a a.mem_nodes_self v hv⟩) ?_)⟩
  exact fun q c hc => ⟨rfl, h.child (Shape.mem_children_of_mem_positions hc)⟩

end Reduces

end Expr

/-! ## Coherent machines -/

/-- Everything in a value exists on the machine. -/
abbrev Machine.Has (m : Machine σ) (v : Value) : Prop := v.Known m.next m.closures.size

/-- The frames of a scope, and the exceptions that it handles, exist on the machine. -/
def Machine.HasScope (m : Machine σ) (s : Scope) : Prop :=
  ∀ link ∈ s.links, link.frame < m.store.frames.size ∧ ∀ v ∈ link.handling, m.Has v

/-- Nothing on the machine refers to what does not exist on it. -/
structure Machine.Coherent (m : Machine σ) : Prop where
  bindings : ∀ f, ∀ x ∈ m.store.frame f, m.Has x.2
  scopes : ∀ (i : Nat) c, m.closures[i]? = some c → m.HasScope c.scope
  bodies : ∀ (i : Nat) c, m.closures[i]? = some c → c.body.Constants m.Has
  interps : ∀ (i : Nat) c, m.closures[i]? = some c → c.interp.id < m.depths.size

/-- What exists on a machine is paired with itself. -/
def World.upTo (m : Machine σ) : World :=
  ⟨.below m.next, .below m.closures.size, .below m.store.frames.size,
    fun f => f < m.store.frames.size, fun f id => ((m.store.frame f).get? id).isSome⟩

section Existing

variable {m : Machine σ} {w : World} {ok : Fault → Prop}

theorem ValueLike.of_has (h : World.upTo m ≤ w) {v : Value} (hv : m.Has v) :
    ValueLike w (fun _ => True) v v := by
  refine ValueLike.self fun x hx => ?_
  have hknown := hv x hx
  cases x with
  | id n => exact World.le_ids h ⟨rfl, hknown⟩
  | closure i => exact World.le_closures h ⟨rfl, hknown⟩
  | fault f => trivial

end Existing

/-! ## A tree beside one that it reduces to -/

/-- A tree beside one that it reduces to, in scopes that correspond frame by frame. -/
structure ReducedPlace (H : Host σ) (m : Machine σ) (w : World) (P Q : Place) : Prop where
  above : World.upTo m ≤ w
  interp : P.interp = Q.interp
  counted : P.interp.id < m.depths.size
  links : LinksLike w P.scope.links Q.scope.links
  handled : Option.Rel (ValueLike w fun _ => True) P.scope.currentException?
    Q.scope.currentException?
  tree : P.tree.Reduces H m.next m.closures.size Q.tree

/-- Evaluations of a tree and of one that it reduces to, on machines that have come out of one
machine. The first evaluation may make more identities, closures and frames. -/
def reducing (H : Host σ) (m : Machine σ) : Setting σ where
  place := ReducedPlace H m
  state _ _ _ := True
  interp I₁ I₂ := I₁ = I₂ ∧ I₁.id < m.depths.size
  depths d₁ d₂ := d₁ = d₂ ∧ m.depths.size ≤ d₁.size
  base := World.upTo m
  ok _ := True
  ahead := False
  keep₁ _ := False
  keep₂ _ := False
  callable _ := True
  within _ _ := True
  place_mono hw _ _ h :=
    ⟨le_trans h.above hw, h.interp, h.counted, h.links.imp fun _ _ => World.le_frames hw,
      optionRel_imp (fun _ _ => ValueLike.mono hw) h.handled, h.tree⟩
  state_mono _ _ _ _ := trivial
  ok_of_bound _ := trivial
  enter := by
    intro I _ d _ hI hd
    obtain ⟨rfl, -⟩ := hI
    obtain ⟨rfl, hsize⟩ := hd
    rw [Array.size_modify]
    exact ⟨rfl, hsize⟩
  limit := by
    intro I _ d _ hI hd _
    obtain ⟨rfl, -⟩ := hI
    obtain ⟨rfl, -⟩ := hd
    exact ⟨Iff.rfl, fun _ => rfl⟩

section Reducing

variable {H : Host σ} {m : Machine σ} {w : World} {d : Array Nat × Array Nat}

/-- Where a layer is kept, its children reduce where they stand. -/
theorem ReducedPlace.layer {P Q : Place} (h : ReducedPlace H m w P Q)
    (hlike : Shape.Like (fun v v' => v = v' ∧ m.Has v)
      (fun _ => Expr.Reduces H m.next m.closures.size) P.tree.shape Q.tree.shape) :
    (reducing H m).LayerLike w P Q := by
  have hchild : ∀ a b, a.Reduces H m.next m.closures.size b → ∀ q,
      (reducing H m).ChildLike w P Q q a b := by
    intro a b hab q
    have hstep := hab.dest
    refine ⟨hstep.ty, hstep.label, ?_⟩
    -- where the child has a frame of its own, the two frames are paired
    cases q with
    | plain => exact ⟨h.above, h.interp, h.counted, h.links, h.handled, hab⟩
    | under params =>
      intro w' hw f g hfg _
      have h' := (reducing H m).place_mono hw h
      exact ⟨h'.above, h'.interp, h'.counted, .cons hfg h'.links, h'.handled, hab⟩
    | catching binder =>
      intro w' hw f g v v' hfg hv _
      have h' := (reducing H m).place_mono hw h
      exact ⟨h'.above, h'.interp, h'.counted, .cons hfg h'.links, .some hv, hab⟩
  refine ⟨h.tree.dest.ty, ⟨h.interp, h.counted⟩, ?_, fun p _ => .of_links h.links trivial,
    fun p _ _ => .of_links h.links trivial, fun _ => h.handled⟩
  refine hlike.imp (fun v v' hv => ?_) fun q a b hab => hchild a b hab q
  obtain ⟨rfl, hknown⟩ := hv
  exact .of_has h.above hknown

/-- The first side may go on alone where it leaves the frames that were there as they are. -/
theorem reducing_similar_grown {m₁ m₁' m₂ : Machine σ} (hm : (reducing H m).Similar w d m₁ m₂)
    (hgrown : Grown (· < m₁.store.frames.size) m₁ m₁') (hdepths : m₁'.depths = m₁.depths) :
    (reducing H m).Similar w d m₁' m₂ := by
  have hold : ∀ f g, w.frames.pairs f g → m₁'.store.frame f = m₁.store.frame f := by
    intro f g hfg
    rcases hm.frames f g hfg with ⟨hf, -⟩ | ⟨h, -⟩
    · exact hgrown.kept f hf
    · exact h.elim
  exact {
    above := hm.above
    ids := Pairing.Aligned.mono hm.ids hgrown.next (Nat.le_refl _)
    closures := Pairing.Aligned.mono hm.closures hgrown.size_closures (Nat.le_refl _)
    frames := Pairing.Aligned.mono hm.frames hgrown.frames (Nat.le_refl _)
    bindings := fun f g hfg => by
      rw [hold f g hfg]
      exact hm.bindings f g hfg
    live := fun f hf => Nat.lt_of_lt_of_le (hm.live f hf) hgrown.frames
    declared := fun f id hd => by
      have hsome := hm.declared f id hd
      rw [hgrown.kept f (Store.lt_size_of_isSome_get? hsome)]
      exact hsome
    made := fun i j hij _ c hc => by
      -- a closure that is paired was there before
      rcases hm.closures i j hij with ⟨hi, -⟩ | ⟨h, -⟩
      · have hold := Array.getElem?_eq_getElem hi
        obtain rfl : m₁.closures[i] = c :=
          Option.some.inj ((hgrown.closures i _ hold).symm.trans hc)
        exact hm.made i j hij trivial _ hold
      · exact h.elim
    host := trivial
    depths₁ := hdepths.trans hm.depths₁
    depths₂ := hm.depths₂
    depths := hm.depths
    apart₁ := fun _ _ _ h => h
    apart₂ := fun _ _ _ h => h
    old₁ := fun _ h => h.elim
    old₂ := fun _ h => h.elim }

/-- A machine beside a coherent one has handed out what that one has. -/
theorem next_le_of_similar {m₁ m₂ : Machine σ} (hm : (reducing H m).Similar w d m₁ m₂) :
    m.next ≤ m₁.next := by
  by_contra hlt
  have hpair : w.ids.pairs m₁.next m₁.next := World.le_ids hm.above ⟨rfl, Nat.lt_of_not_le hlt⟩
  rcases hm.ids _ _ hpair with ⟨h, -⟩ | ⟨h, -⟩
  · exact Nat.lt_irrefl _ h
  · exact h

/-- A node that has been answered gives, on the second side, what it gives on the first. -/
theorem ReducedPlace.answered {P Q : Place} (h : ReducedPlace H m w P Q)
    (hanswered : Expr.Answered H m.next m.closures.size P.tree Q.tree) {n₁ n₂ : Nat}
    (hn : n₁ ≤ n₂) :
    (reducing H m).Runs d w (reducing H m).value
      (evalWhile H .limited n₁ P.interp P.scope P.tree)
      (evalWhile H .always n₂ Q.interp Q.scope Q.tree) := by
  intro m₁ m₂ hm r m₁' hrun
  obtain ⟨-, v, least, hsettles, hholds, hknown⟩ := hanswered
  have hcounted : P.interp.id < m₁.depths.size := by
    rw [hm.depths₁]
    exact Nat.lt_of_lt_of_le h.counted hm.depths.2
  -- the first side works the answer out, the second one has it and stands still
  obtain ⟨hleast, rfl, hgrown, hdepths⟩ :=
    hsettles m₁ _ _ n₁ r m₁' (next_le_of_similar hm) hcounted hrun
  rw [evalWhile_always]
  refine ⟨.ok v, m₂, w, hholds n₂ (Nat.le_trans hleast hn) _ _ m₂, le_refl w,
    reducing_similar_grown hm hgrown hdepths, hgrown.imp fun _ h => h.elim, .refl _, ?_⟩
  exact .ok (.of_has h.above hknown)

end Reducing

/-! ## Evaluations that end alike -/

/-- Machines on which corresponding callables, called with operands that are alike, answer alike:
now, and after any number of such calls. -/
def Machine.AnswersLike (H : Host σ) (w : World) (k₁ k₂ : Machine σ) : Prop :=
  ∃ R : World → Machine σ → Machine σ → Prop, R w k₁ k₂ ∧ ∀ w k₁ k₂, R w k₁ k₂ →
    ∀ ref ref' args args', RefLike w ref ref' → ValuesLike w (fun _ => True) args args' →
    ∀ n r k₁', applyWhile H .limited n ref args k₁ = some (r, k₁') → ∀ n', n ≤ n' →
      ∃ r' k₂' w', apply H n' ref' args' k₂ = some (r', k₂') ∧ w ≤ w' ∧
        ReplyLike w' (fun _ => True) r r' ∧ R w' k₁' k₂'

/-- Two evaluations that end alike: in the same way, with values that differ only in what did not
exist on the machine `m`, where identities and closures correspond one to one. So do the
bindings of the frames of `m` and the answers to later calls. -/
structure Machine.EndsAlike (H : Host σ) (m : Machine σ) (w : World)
    (x y : Except Exit Value × Machine σ) : Prop where
  above : World.upTo m ≤ w
  outcome : ExceptLike (ExitLike w fun _ => True) (ValueLike w fun _ => True) x.1 y.1
  frames : ∀ f < m.store.frames.size,
    FrameLike w (fun _ => True) (x.2.store.frame f) (y.2.store.frame f)
  calls : AnswersLike H w x.2 y.2

end CodeTree
