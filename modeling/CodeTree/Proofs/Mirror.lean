import CodeTree.Proofs.Mention
import CodeTree.Proofs.SameTree

/-!
# An evaluation beside itself

`mirror` is the setting in which two evaluations start from one machine and hand out the same
identities, closures and frames, so that values alike are values equal (`ValueLike.eq_of_since`).
It has two uses: one tree in two scopes, and, with both sides the same, invariants of a single
evaluation.

* `World.since n` pairs everything with itself but frames older than `n`;
* `mirror P ok frames closures` — states satisfy `P`, faults satisfy `ok`, frames older than
  `frames` are left alone and closures older than `closures` are not called;
* `mirror_lawful` — evaluations go side by side in it.
-/

namespace CodeTree

/-! ## Worlds of equal things -/

/-- Every number from the bound on is paired with itself. -/
def Pairing.since (bound : Nat) : Pairing where
  pairs a b := a = b ∧ bound ≤ a
  unique_left h₁ h₂ := h₁.1.trans h₂.1.symm
  unique_right h₁ h₂ := h₁.1.symm.trans h₂.1

theorem Pairing.aligned_since (bound n : Nat) : (since bound).Aligned True n n := by
  intro a _ hab
  obtain ⟨rfl, _⟩ := hab
  exact aligned_all n a a rfl

/-- All is paired with itself, but for frames below the bound. -/
def World.since (frames : Nat) : World :=
  ⟨.all, .all, .since frames, fun _ => False, fun _ _ => False⟩

section Since

variable {frames : Nat} {w : World} {ok : Fault → Prop}

theorem Pairing.eq_of_since {P : Pairing} (h : ∀ a b, (since frames).pairs a b → P.pairs a b)
    {f g : Nat} (hf : frames ≤ f) (hfg : P.pairs f g) : f = g :=
  P.unique_right (h f f ⟨rfl, hf⟩) hfg

theorem ValueLike.of_since (h : World.since frames ≤ w) {v : Value} (hv : v.Allowed ok) :
    ValueLike w ok v v := by
  refine ValueLike.self fun x hx => ?_
  cases x with
  | id n => exact World.le_ids h rfl
  | closure i => exact World.le_closures h rfl
  | fault f => exact hv f hx

theorem ValueLike.eq_of_since (h : World.since frames ≤ w) {a b : Value}
    (l : ValueLike w ok a b) : a = b := by
  have hself : ValueLike w (fun _ => True) a a := of_since h fun _ _ => trivial
  exact l.eq_of_self hself

theorem ValueLike.allowed {a b : Value} (l : ValueLike w ok a b) : a.Allowed ok :=
  fun _ => l.fault_mem

theorem ValuesLike.of_since (h : World.since frames ≤ w) {vs : List Value}
    (hvs : ∀ v ∈ vs, v.Allowed ok) : ValuesLike w ok vs vs :=
  List.forall₂_same.mpr fun v hv => .of_since h (hvs v hv)

theorem ValuesLike.eq_of_since (h : World.since frames ≤ w) {xs ys : List Value}
    (l : ValuesLike w ok xs ys) : xs = ys :=
  List.forall₂_eq_eq_eq ▸ l.imp fun _ _ => ValueLike.eq_of_since h

theorem ValuesLike.allowed {xs ys : List Value} (l : ValuesLike w ok xs ys) :
    ∀ v ∈ xs, v.Allowed ok := by
  induction l with
  | nil => exact fun _ h => nomatch h
  | cons first _ ih => exact List.forall_mem_cons.mpr ⟨first.allowed, ih⟩

theorem ReplyLike.of_since (h : World.since frames ≤ w) {r : Reply} (hr : r.Allowed ok) :
    ReplyLike w ok r r := by
  cases r with
  | ok v => exact .ok (.of_since h hr)
  | error v => exact .error (.of_since h hr)

theorem ReplyLike.eq_of_since (h : World.since frames ≤ w) {x y : Reply}
    (l : ReplyLike w ok x y) : x = y := by
  cases l with
  | ok value => rw [value.eq_of_since h]
  | error thrown => rw [thrown.eq_of_since h]

theorem ReplyLike.allowed {x y : Reply} (l : ReplyLike w ok x y) : x.Allowed ok := by
  cases l with
  | ok value => exact value.allowed
  | error thrown => exact thrown.allowed

/-- Outcomes that are alike are equal. -/
theorem outcome_eq_of_since (h : World.since frames ≤ w) {x y : Except Exit Value}
    (l : ExceptLike (ExitLike w ok) (ValueLike w ok) x y) : x = y := by
  cases l with
  | ok value => rw [value.eq_of_since h]
  | error exit =>
    cases exit with
    | throw value => rw [value.eq_of_since h]
    | jump label value => rw [value.eq_of_since h]
    | fault _ => rfl

theorem outcome_allowed {x y : Except Exit Value}
    (l : ExceptLike (ExitLike w ok) (ValueLike w ok) x y) : Outcome.Allowed ok x := by
  cases l with
  | ok value => exact value.allowed
  | error exit =>
    cases exit with
    | throw value => exact value.allowed
    | jump label value => exact value.allowed
    | fault allowed =>
      intro f hf
      cases List.mem_singleton.mp hf
      exact allowed

theorem FrameLike.eq_of_since (h : World.since frames ≤ w) {fr fr' : Frame}
    (l : FrameLike w ok fr fr') : fr = fr' :=
  List.forall₂_eq_eq_eq ▸ l.imp fun _ _ hxy => Prod.ext hxy.1 (hxy.2.eq_of_since h)

theorem optionValue_eq_of_since (h : World.since frames ≤ w) {x y : Option Value}
    (l : Option.Rel (ValueLike w ok) x y) : x = y := by
  cases l with
  | none => rfl
  | some l => rw [l.eq_of_since h]

theorem optionValue_allowed {x y : Option Value} (l : Option.Rel (ValueLike w ok) x y) :
    ∀ v ∈ x, v.Allowed ok := by
  cases l with
  | none => exact fun _ h => nomatch h
  | some l =>
    intro v hv
    cases hv
    exact l.allowed

/-- Host code that keeps a condition goes side by side with itself. -/
theorem Script.Keeps.like {σ α : Type} {P : σ → Prop} {Q : α → Prop} {R : World → α → α → Prop}
    (hR : ∀ w, World.since frames ≤ w → ∀ a, Q a → R w a a) {s : Script σ α} (hs : s.Keeps P ok Q) :
    ∀ {w : World}, World.since frames ≤ w →
      ScriptLike (fun _ s t => s = t ∧ P s) ok R w s s := by
  induction hs with
  | done result => exact fun h => .done (hR _ h _ result)
  | read _ ih =>
    intro w h
    refine .read fun s t hst => ?_
    obtain ⟨rfl, hP⟩ := hst
    exact ih s hP h
  | write state _ ih => exact fun h => .write ⟨rfl, state⟩ (ih h)
  | fresh _ ih =>
    intro w h
    refine .fresh fun w' a b hw hab => ?_
    -- every identity is paired with itself, and so with no other
    have h' := le_trans h hw
    obtain rfl := w'.ids.unique_right (World.le_ids h' rfl) hab
    exact ih a h'
  | @call callee args k given _ ih =>
    intro w h
    have hcallee : RefLike w callee callee := by
      cases callee with
      | hosted code => exact .hosted code
      | closure i => exact .closure (World.le_closures h rfl)
    refine .call hcallee (ValuesLike.of_since h given) fun w' r r' hw hr => ?_
    have h' := le_trans h hw
    obtain rfl := hr.eq_of_since h'
    exact ih r hr.allowed h'

end Since

/-! ## The setting -/

variable {σ : Type}

section Counters

variable {I₁ I₂ : Interp} {d₁ d₂ : Array Nat}

/-- Equal counters stay equal when both sides enter an activation. -/
theorem modify_eq_of_eq (hI : I₁ = I₂) (hd : d₁ = d₂) :
    d₁.modify I₁.id (· + 1) = d₂.modify I₂.id (· + 1) := by
  rw [hI, hd]

/-- By equal counters, both sides refuse the same activations, in every setting that asks for nothing
else. -/
theorem limit_of_eq (hI : I₁ = I₂) (hd : d₁ = d₂) (_ : True) :
    (I₁.limit < d₁.getD I₁.id 0 + 1 ↔ I₂.limit < d₂.getD I₂.id 0 + 1) ∧
      (I₁.limit < d₁.getD I₁.id 0 + 1 → I₁.limit = I₂.limit) := by
  subst hI hd
  exact ⟨Iff.rfl, fun _ => rfl⟩

end Counters

/-- Two evaluations of trees in scopes that agree on what the trees need. Where every fault may
arise and no frame is set apart, any tree in any scope may stand beside itself too. -/
def mirror (P : σ → Prop) (ok : Fault → Prop)
    (hok : ∀ f, (∀ name, f ≠ .unboundParameter name) → ok f) (frames closures : Nat) :
    Setting σ where
  place w A B := World.since frames ≤ w ∧
    (SamePlace Eq ok w A B ∨ ((∀ f, ok f) ∧ frames = 0 ∧ A = B))
  state _ s t := s = t ∧ P s
  interp := Eq
  depths := Eq
  base := World.since frames
  ok := ok
  ahead := True
  keep₁ f := f < frames
  keep₂ f := f < frames
  callable i := closures ≤ i
  within _ _ := True
  place_mono hw _ _ h := ⟨le_trans h.1 hw, h.2.imp (SamePlace.mono hw) fun h => h⟩
  state_mono _ _ _ h := h
  ok_of_bound := hok _
  enter := @modify_eq_of_eq
  limit := @limit_of_eq

section Mirror

variable {P : σ → Prop} {ok : Fault → Prop}
  {hok : ∀ f, (∀ name, f ≠ .unboundParameter name) → ok f} {frames closures : Nat}

theorem mirror_host {H : Host σ} (hH : H.Keeps P ok) :
    (mirror P ok hok frames closures).HostLike H where
  run w h code self self' args args' hself hargs := by
    obtain rfl := optionValue_eq_of_since h hself
    obtain rfl := hargs.eq_of_since h
    exact (hH.run code self args (optionValue_allowed hself) hargs.allowed).like
      (fun w h r hr => ReplyLike.of_since h hr) h
  get w h handle self self' name hself := by
    obtain rfl := hself.eq_of_since h
    exact (hH.get handle self name hself.allowed).like (fun w h r hr => ReplyLike.of_since h hr) h
  invoke w h handle self self' name args args' hself hargs := by
    obtain rfl := hself.eq_of_since h
    obtain rfl := hargs.eq_of_since h
    exact (hH.invoke handle self name args hself.allowed hargs.allowed).like
      (fun w h r hr => ReplyLike.of_since h hr) h

/-- Any tree in any scope is, layer by layer, like itself. -/
theorem mirror_layer_self (hall : ∀ f, ok f) {w : World} (h : World.since 0 ≤ w) (A : Place) :
    (mirror P ok hok 0 closures).LayerLike w A A := by
  have hlinks : LinksLike w A.scope.links A.scope.links :=
    List.forall₂_same.mpr fun link _ => World.le_frames h ⟨rfl, Nat.zero_le _⟩
  have heq : ∀ w', w ≤ w' → ∀ f g, w'.frames.pairs f g → f = g := fun w' hw f g hfg =>
    Pairing.eq_of_since (fun _ _ => World.le_frames (le_trans h hw)) (Nat.zero_le f) hfg
  have hself : ∀ w', w ≤ w' → ∀ B, (mirror P ok hok 0 closures).place w' B B :=
    fun w' hw B => ⟨le_trans h hw, .inr ⟨hall, rfl, rfl⟩⟩
  refine ⟨rfl, rfl, ?_, fun p _ => .of_links hlinks (hall _), fun p _ _ => .of_links hlinks (hall _),
    fun _ => optionRel_self fun v _ => .of_since h fun f _ => hall f⟩
  refine Shape.like_self (fun v _ => .of_since h fun f _ => hall f) fun q a _ => ⟨rfl, rfl, ?_⟩
  cases q with
  | plain => exact hself w (le_refl w) _
  | under params =>
    intro w' hw f g hfg _
    obtain rfl := heq w' hw f g hfg
    exact hself w' hw _
  | catching binder =>
    intro w' hw f g v v' hfg hv _
    obtain rfl := heq w' hw f g hfg
    obtain rfl := ValueLike.eq_of_since (le_trans h hw) hv
    exact hself w' hw _

theorem mirror_lawful {H : Host σ} (hH : H.Keeps P ok) {permit watch : Permission σ}
    (hpermit : ∀ m i, permit.call m (.closure i) → closures ≤ i)
    (hvisit : ∀ w d m₁ m₂ A B, (mirror P ok hok frames closures).place w A B →
      (mirror P ok hok frames closures).Similar w d m₁ m₂ → watch.visit m₂ B.scope B.tree)
    (hcall : ∀ m ref, watch.call m ref) :
    (mirror P ok hok frames closures).Lawful H permit watch where
  host := mirror_host hH
  permits m i c hi _ := ⟨hpermit m i hi, trivial⟩
  visits := hvisit
  calls := hcall
  step w A B hplace := by
    refine .inl ?_
    obtain ⟨h, hsame | ⟨hall, rfl, rfl⟩⟩ := hplace
    · exact hsame.layer fun w' hw P Q hPQ => ⟨le_trans h hw, .inl hPQ⟩
    · exact mirror_layer_self hall h A

/-- The mirror with nothing to watch. -/
theorem mirror_lawful_always {H : Host σ} (hH : H.Keeps P ok) {permit : Permission σ}
    (hpermit : ∀ m i, permit.call m (.closure i) → closures ≤ i) :
    (mirror P ok hok frames closures).Lawful H permit .always :=
  mirror_lawful hH hpermit (fun _ _ _ _ _ _ _ _ => rfl) fun _ _ => rfl

/-! ## A machine beside itself -/

/-- The world of a machine beside itself: every frame has been given the variables it binds. -/
def World.of (frames : Nat) (m : Machine σ) : World :=
  { World.since frames with declared := fun f id => ((m.store.frame f).get? id).isSome }

theorem World.since_le_of (m : Machine σ) : World.since frames ≤ World.of frames m :=
  ⟨fun _ _ h => h, fun _ _ h => h, fun _ _ h => h, fun _ h => h, fun _ _ h => h.elim⟩

theorem mirror_similar {m : Machine σ} (hP : P m.host) (hframes : frames ≤ m.store.frames.size)
    (hstore : ∀ f, frames ≤ f → ∀ x ∈ m.store.frame f, x.2.Allowed ok)
    (hmade : ∀ i, closures ≤ i → ∀ c, m.closures[i]? = some c →
      (mirror P ok hok frames closures).ClosureLike (World.of frames m) c c) :
    (mirror P ok hok frames closures).Similar (World.of frames m) (m.depths, m.depths) m m where
  above := World.since_le_of m
  ids := Pairing.aligned_all m.next
  closures := Pairing.aligned_all m.closures.size
  frames := Pairing.aligned_since frames m.store.frames.size
  bindings := by
    intro f _ hfg
    obtain ⟨rfl, hf⟩ := hfg
    refine List.forall₂_same.mpr fun x hx => ⟨rfl, ?_⟩
    exact .of_since (World.since_le_of m) (hstore f hf x hx)
  live _ h := h.elim
  declared _ _ h := h
  made := by
    intro i _ hij hi c hc
    subst hij
    exact ⟨c, hc, hmade i hi c hc⟩
  host := ⟨rfl, hP⟩
  depths₁ := rfl
  depths₂ := rfl
  depths := rfl
  apart₁ := by
    intro f _ hfg
    obtain ⟨rfl, hf⟩ := hfg
    exact Nat.not_lt.mpr hf
  apart₂ := by
    intro f _ hfg
    obtain ⟨rfl, hf⟩ := hfg
    exact Nat.not_lt.mpr hf
  old₁ _ hf := Nat.lt_of_lt_of_le hf hframes
  old₂ _ hf := Nat.lt_of_lt_of_le hf hframes

section Agreement

variable {w : World} {d : Array Nat × Array Nat} {m₁ m₂ : Machine σ}

/-- Supplies that hand out what is paired with itself have handed out equally much. -/
theorem Pairing.Aligned.eq_of_all {P : Pairing} {n₁ n₂ : Nat} (h : P.Aligned True n₁ n₂)
    (hall : ∀ a, P.pairs a a) : n₁ = n₂ := by
  rcases h n₁ n₁ (hall n₁) with ⟨h₁, _⟩ | ⟨_, k, h₁, h₂⟩ <;> omega

theorem mirror_next_eq (hm : (mirror P ok hok frames closures).Similar w d m₁ m₂) :
    m₁.next = m₂.next :=
  hm.ids.eq_of_all fun _ => World.le_ids hm.above rfl

/-- Where no frame is set apart, the bindings are the same on both sides. -/
theorem mirror_store_eq (hm : (mirror P ok hok 0 closures).Similar w d m₁ m₂) :
    m₁.store = m₂.store := by
  have hpairs : ∀ f, w.frames.pairs f f := fun f =>
    World.le_frames hm.above ⟨rfl, Nat.zero_le f⟩
  exact Store.ext_frame (hm.frames.eq_of_all hpairs) fun f =>
    (hm.bindings f f (hpairs f)).eq_of_since hm.above

/-- What one side evaluates to, the other one does. -/
theorem mirror_eval {H : Host σ} {permit watch : Permission σ}
    (hlawful : (mirror P ok hok frames closures).Lawful H permit watch)
    (hm : (mirror P ok hok frames closures).Similar w d m₁ m₂) {A B : Place}
    (hplace : (mirror P ok hok frames closures).place w A B) {fuel : Nat}
    {r : Except Exit Value} {k₁ : Machine σ}
    (h : (evalWhile H permit fuel A.interp A.scope A.tree).run m₁ = some (r, k₁)) :
    ∃ k₂ w', (evalWhile H watch fuel B.interp B.scope B.tree).run m₂ = some (r, k₂) ∧
      (mirror P ok hok frames closures).Similar w' d k₁ k₂ ∧
      (∀ f < frames, k₁.store.frame f = m₁.store.frame f) ∧ Outcome.Allowed ok r := by
  have hE := hlawful.engines (Nat.le_refl fuel)
  obtain ⟨r', k₂, w', hB, -, hk, hg, -, hr⟩ := hE.eval d w A B hplace m₁ m₂ hm r k₁ h
  obtain rfl := outcome_eq_of_since hk.above hr
  exact ⟨k₂, w', hB, hk, hg.kept, outcome_allowed hr⟩

/-- The engines of evaluation in the mirror. -/
theorem mirror_engines {H : Host σ} (hH : H.Keeps P ok) (fuel : Nat) :
    (mirror P ok hok frames 0).EngineLike (engine H fuel) (engine H fuel) := by
  have hlawful : (mirror P ok hok frames 0).Lawful H .always .always :=
    mirror_lawful_always hH fun _ i _ => Nat.zero_le i
  have hE := hlawful.engines (Nat.le_refl fuel)
  rw [engineWhile_always] at hE
  exact hE

/-- What host code does on one side, it does on the other. -/
theorem mirror_play {H : Host σ} (hH : H.Keeps P ok)
    (hm : (mirror P ok hok frames 0).Similar w d m₁ m₂) {fuel : Nat} {α : Type} {Q : α → Prop}
    {s : Script σ α} (hs : s.Keeps P ok Q) {a : α} {k₁ : Machine σ}
    (h : Step.play (apply H fuel) s m₁ = some (a, k₁)) :
    ∃ k₂ w', Step.play (apply H fuel) s m₂ = some (a, k₂) ∧
      (mirror P ok hok frames 0).Similar w' d k₁ k₂ ∧ Q a := by
  have hE : (mirror P ok hok frames 0).EngineLike _ _ := mirror_engines hH fuel
  have hlike : ScriptLike (mirror P ok hok frames 0).state ok (fun _ a b => a = b ∧ Q a) w s s :=
    hs.like (fun _ _ _ ha => ⟨rfl, ha⟩) hm.above
  obtain ⟨b, k₂, w', hk₂, -, hk, -, -, rfl, hQ⟩ :=
    Setting.Steps.play (fun w ref ref' args args' => hE.apply d w ref ref' args args') hlike
      m₁ m₂ hm a k₁ h
  exact ⟨k₂, w', hk₂, hk, hQ⟩

end Agreement

end Mirror

/-! ## Anything may happen -/

theorem Host.keeps_trivial (H : Host σ) : H.Keeps (fun _ => True) fun _ => True := by
  have hreply : ∀ s : Script σ Reply,
      s.Keeps (fun _ => True) (fun _ => True) (Reply.Allowed fun _ => True) := by
    intro s
    have htrue : (Reply.Allowed fun _ => True) = fun _ => True := by
      funext r
      exact eq_true fun _ _ => trivial
    rw [htrue]
    exact s.keeps_trivial
  exact ⟨fun _ _ _ _ _ => hreply _, fun _ _ _ _ => hreply _, fun _ _ _ _ _ _ => hreply _⟩

/-- The mirror in which anything may happen. -/
abbrev anyhow (σ : Type) : Setting σ :=
  mirror (fun _ => True) (fun _ => True) (fun _ _ => trivial) 0 0

theorem anyhow_similar (m : Machine σ) :
    (anyhow σ).Similar (World.of 0 m) (m.depths, m.depths) m m := by
  refine mirror_similar trivial (Nat.zero_le _) (fun _ _ _ _ _ _ => trivial) fun i _ c _ => ?_
  refine ⟨rfl, rfl, rfl, fun w' hw f g hfg _ => ?_⟩
  have hsince := le_trans (World.since_le_of m) hw
  obtain rfl := Pairing.eq_of_since (fun _ _ => World.le_frames hsince) (Nat.zero_le f) hfg
  exact ⟨hsince, .inr ⟨fun _ => trivial, rfl, rfl⟩⟩

end CodeTree
