import CodeTree.Proofs.Nesting
import CodeTree.Proofs.ScopeIndependence
import CodeTree.Proofs.Whole

/-!
# Uses that do not depend on the ones before

What a use can get at is a `Footprint`: identities below a bound, some closures, and the frames
that they capture. Two machines that agree on it (`Footprint.Agrees`) may differ in everything else
that earlier uses have left behind: further identities, frames and closures. `beside` is the
setting in which two such machines are compared; nothing but the footprint is paired in advance,
and the hosts' states are related as the reader likes.

* `Use.alike` — a use on two machines that agree on its footprint;
* `Use.Runs.grown` — uses take nothing away from a machine, so that a machine agrees with one from
  which it has come as long as the captured variables have kept their values.

Main statement: `call_depth_is_exact`.
-/

namespace CodeTree

variable {σ : Type}

/-! ## Footprints -/

/-- Identities, closures and frames that exist. -/
structure Footprint where
  /-- The bound of the identities. -/
  ids : Nat
  closures : Nat → Prop
  frames : Nat → Prop

namespace Footprint

variable (fp : Footprint)

/-- Everything in a value belongs to the footprint. -/
def Knows (v : Value) : Prop :=
  ∀ x ∈ v.mentions,
    match x with
    | .id n => n < fp.ids
    | .closure i => fp.closures i
    | .fault _ => True

/-- The frames of a scope, and the exceptions that it handles, belong to the footprint. -/
def HasScope (s : Scope) : Prop :=
  ∀ link ∈ s.links, fp.frames link.frame ∧ ∀ v ∈ link.handling, fp.Knows v

/-- The footprint exists on the machine, and nothing in it leads out of it. -/
structure Within (m : Machine σ) : Prop where
  ids : fp.ids ≤ m.next
  frames : ∀ f, fp.frames f → f < m.store.frames.size
  bindings : ∀ f, fp.frames f → ∀ x ∈ m.store.frame f, fp.Knows x.2
  closures : ∀ i, fp.closures i → ∃ c, m.closures[i]? = some c ∧ fp.HasScope c.scope ∧
    c.body.Constants fp.Knows

/-- Two machines have the same in the footprint, and count alike. -/
structure Agrees (m₁ m₂ : Machine σ) : Prop where
  within : fp.Within m₁
  ids : fp.ids ≤ m₂.next
  frames : ∀ f, fp.frames f → f < m₂.store.frames.size
  bindings : ∀ f, fp.frames f → m₂.store.frame f = m₁.store.frame f
  closures : ∀ i, fp.closures i → m₂.closures[i]? = m₁.closures[i]?
  depths : m₁.depths = m₂.depths

variable {fp}

theorem Agrees.symm {m₁ m₂ : Machine σ} (h : fp.Agrees m₁ m₂) : fp.Agrees m₂ m₁ where
  within :=
    { ids := h.ids
      frames := h.frames
      bindings := fun f hf x hx => h.within.bindings f hf x (h.bindings f hf ▸ hx)
      closures := fun i hi => by
        rw [h.closures i hi]
        exact h.within.closures i hi }
  ids := h.within.ids
  frames := h.within.frames
  bindings f hf := (h.bindings f hf).symm
  closures i hi := (h.closures i hi).symm
  depths := h.depths.symm

/-- A machine that has come out of another one agrees with it where the frames of the footprint
have kept their bindings. -/
theorem Within.agrees {m m' : Machine σ} (h : fp.Within m) (hgrown : Grown (fun _ => False) m m')
    (hframes : ∀ f, fp.frames f → m'.store.frame f = m.store.frame f)
    (hdepths : m'.depths = m.depths) : fp.Agrees m m' where
  within := h
  ids := Nat.le_trans h.ids hgrown.next
  frames f hf := Nat.lt_of_lt_of_le (h.frames f hf) hgrown.frames
  bindings := hframes
  closures i hi := by
    obtain ⟨c, hc, -⟩ := h.closures i hi
    rw [hc, hgrown.closures i c hc]
  depths := hdepths.symm

end Footprint

/-! ## Two machines with a footprint in common -/

/-- The numbers that satisfy a condition are paired with themselves. -/
def Pairing.on (P : Nat → Prop) : Pairing where
  pairs a b := a = b ∧ P a
  unique_left h₁ h₂ := h₁.1.trans h₂.1.symm
  unique_right h₁ h₂ := h₁.1.symm.trans h₂.1

/-- What belongs to the footprint is paired with itself. -/
def World.showing (fp : Footprint) : World :=
  ⟨.below fp.ids, .on fp.closures, .on fp.frames, fun _ => False, fun _ _ => False⟩

section Showing

variable {fp : Footprint} {w : World}

theorem ValueLike.of_knows (h : World.showing fp ≤ w) {v : Value} (hv : fp.Knows v) :
    ValueLike w (fun _ => True) v v := by
  refine ValueLike.self fun x hx => ?_
  have hknown := hv x hx
  cases x with
  | id n => exact World.le_ids h ⟨rfl, hknown⟩
  | closure i => exact World.le_closures h ⟨rfl, hknown⟩
  | fault f => trivial

theorem ValuesLike.of_knows (h : World.showing fp ≤ w) {vs : List Value}
    (hvs : ∀ v ∈ vs, fp.Knows v) : ValuesLike w (fun _ => True) vs vs :=
  List.forall₂_same.mpr fun v hv => .of_knows h (hvs v hv)

end Showing

/-- One tree, with constants from the footprint, in scopes that correspond frame by frame. -/
structure KnownPlace (fp : Footprint) (w : World) (P Q : Place) : Prop where
  above : World.showing fp ≤ w
  tree : P.tree = Q.tree
  interp : P.interp = Q.interp
  links : LinksLike w P.scope.links Q.scope.links
  handled : Option.Rel (ValueLike w fun _ => True) P.scope.currentException?
    Q.scope.currentException?
  constants : P.tree.Constants fp.Knows

/-- Evaluations on machines that have a footprint in common. The hosts' states are related by
`same`. -/
def beside (fp : Footprint) (same : World → σ → σ → Prop)
    (hsame : ∀ {w w' : World}, w ≤ w' → ∀ {s t : σ}, same w s t → same w' s t) : Setting σ where
  place := KnownPlace fp
  state := same
  interp := Eq
  depths := Eq
  base := World.showing fp
  ok _ := True
  ahead := False
  keep₁ _ := False
  keep₂ _ := False
  callable _ := True
  within _ _ := True
  place_mono hw _ _ h :=
    ⟨le_trans h.above hw, h.tree, h.interp, h.links.imp fun _ _ => World.le_frames hw,
      optionRel_imp (fun _ _ => ValueLike.mono hw) h.handled, h.constants⟩
  state_mono := hsame
  ok_of_bound _ := trivial
  enter := @modify_eq_of_eq
  limit := @limit_of_eq

section Beside

variable {fp : Footprint} {same : World → σ → σ → Prop}
  {hsame : ∀ {w w' : World}, w ≤ w' → ∀ {s t : σ}, same w s t → same w' s t} {w : World}

/-- One tree in two such scopes is the same layer by layer. -/
theorem KnownPlace.layer {S : Setting σ}
    (hS : ∀ w', w ≤ w' → ∀ P Q, KnownPlace fp w' P Q → S.place w' P Q) (hok : S.ok = fun _ => True)
    (hinterp : ∀ I, S.interp I I) {P Q : Place} (h : KnownPlace fp w P Q) : S.LayerLike w P Q := by
  obtain ⟨I, s₁, e⟩ := P
  obtain ⟨J, s₂, e'⟩ := Q
  obtain ⟨habove, rfl, rfl, hlinks, hhandled, hconstants⟩ := h
  have hresolves : ∀ p, S.Resolves w s₁ s₂ p := fun p => .of_links hlinks (by rw [hok]; trivial)
  refine ⟨rfl, hinterp I, ?_, fun p _ => hresolves p, fun p _ _ => hresolves p, fun _ => ?_⟩
  · refine Shape.like_self (fun v hv => ?_) fun q a ha => ?_
    · rw [Setting.value, hok]
      exact .of_knows habove (hconstants e e.mem_nodes_self v hv)
    have hchild := hconstants.child (Shape.mem_children_of_mem_positions ha)
    refine ⟨rfl, rfl, ?_⟩
    -- where the child has a frame of its own, the two frames are paired
    cases q with
    | plain => exact hS w (le_refl w) _ _ ⟨habove, rfl, rfl, hlinks, hhandled, hchild⟩
    | under params =>
      intro w' hw f g hfg _
      refine hS w' hw _ _ ⟨le_trans habove hw, rfl, rfl, ?_, ?_, hchild⟩
      · exact .cons hfg (hlinks.imp fun _ _ => World.le_frames hw)
      · exact optionRel_imp (fun _ _ => ValueLike.mono hw) hhandled
    | catching binder =>
      intro w' hw f g v v' hfg hv _
      rw [Setting.value, hok] at hv
      refine hS w' hw _ _ ⟨le_trans habove hw, rfl, rfl, ?_, .some hv, hchild⟩
      exact .cons hfg (hlinks.imp fun _ _ => World.le_frames hw)
  · rw [Setting.value, hok]
    exact hhandled

/-- A tree in a scope of the footprint, beside itself. -/
theorem KnownPlace.self (h : World.showing fp ≤ w) (I : Interp) {s : Scope} (hs : fp.HasScope s)
    {e : Expr} (he : e.Constants fp.Knows) : KnownPlace fp w ⟨I, s, e⟩ ⟨I, s, e⟩ := by
  refine ⟨h, rfl, rfl, ?_, optionRel_self fun v hv => ?_, he⟩
  · exact List.forall₂_same.mpr fun link hlink => World.le_frames h ⟨rfl, (hs link hlink).1⟩
  · obtain ⟨link, hlink, hhandling⟩ := List.exists_of_findSome?_eq_some hv
    exact .of_knows h ((hs link hlink).2 v hhandling)

theorem beside_lawful {H : Host σ} (hH : (beside fp same hsame).HostLike H) :
    (beside fp same hsame).Lawful H .always .always where
  host := hH
  permits _ _ _ _ _ := ⟨trivial, trivial⟩
  visits _ _ _ _ _ _ _ _ := rfl
  calls _ _ := rfl
  step _ _ _ hplace := .inl (hplace.layer (fun _ _ _ _ h => h) rfl fun _ => rfl)

/-- Closures of one body over scopes of the footprint. -/
theorem beside_closureLike (h : World.showing fp ≤ w) {c : Closure} (hscope : fp.HasScope c.scope)
    (hbody : c.body.Constants fp.Knows) : (beside fp same hsame).ClosureLike w c c := by
  refine ⟨rfl, rfl, rfl, fun w' hw f g hfg _ => ?_⟩
  have hself : KnownPlace fp w' ⟨c.interp, c.scope, c.body⟩ ⟨c.interp, c.scope, c.body⟩ :=
    .self (le_trans h hw) c.interp hscope hbody
  exact ⟨hself.above, rfl, rfl, .cons hfg hself.links, hself.handled, hbody⟩

/-- Machines that agree on the footprint. -/
theorem Footprint.Agrees.similar {m₁ m₂ : Machine σ} (h : fp.Agrees m₁ m₂)
    (hhost : same (World.showing fp) m₁.host m₂.host) :
    (beside fp same hsame).Similar (World.showing fp) (m₁.depths, m₂.depths) m₁ m₂ where
  above := le_refl _
  ids := Pairing.aligned_below h.within.ids h.ids
  closures := by
    intro i _ hij
    obtain ⟨rfl, hi⟩ := hij
    obtain ⟨c, hc, -⟩ := h.within.closures i hi
    have hc' := (h.closures i hi).trans hc
    exact .inl ⟨(Array.getElem?_eq_some_iff.mp hc).1, (Array.getElem?_eq_some_iff.mp hc').1⟩
  frames := by
    intro f _ hfg
    obtain ⟨rfl, hf⟩ := hfg
    exact .inl ⟨h.within.frames f hf, h.frames f hf⟩
  bindings := by
    intro f _ hfg
    obtain ⟨rfl, hf⟩ := hfg
    rw [h.bindings f hf]
    exact List.forall₂_same.mpr fun x hx => ⟨rfl, .of_knows (le_refl _) (h.within.bindings f hf x hx)⟩
  live _ h := h.elim
  declared _ _ h := h.elim
  made := by
    intro i _ hij _ c hc
    obtain ⟨rfl, hi⟩ := hij
    obtain ⟨c', hc', hscope, hbody⟩ := h.within.closures i hi
    obtain rfl : c' = c := Option.some.inj (hc'.symm.trans hc)
    exact ⟨c', (h.closures i hi).trans hc, beside_closureLike (le_refl _) hscope hbody⟩
  host := hhost
  depths₁ := rfl
  depths₂ := rfl
  depths := h.depths
  apart₁ _ _ _ h := h
  apart₂ _ _ _ h := h
  old₁ _ h := h.elim
  old₂ _ h := h.elim

end Beside

/-! ## Uses side by side -/

/-- Results of uses that are alike. -/
inductive UseResult.Like (w : World) (ok : Fault → Prop) : UseResult → UseResult → Prop
  | whole {r r' : Except EvalError Value} (h : ResultLike w ok r r') :
      Like w ok (.whole r) (.whole r')
  | reply {r r' : Reply} (h : ReplyLike w ok r r') : Like w ok (.reply r) (.reply r')

/-- A scope with one frame. -/
def Scope.single (f : Nat) : Scope := ⟨[⟨f, none⟩]⟩

/-- The closure that a compiled lambda is in a scope. -/
def Compiled.closure (c : Compiled) (scope : Scope) : Closure :=
  ⟨c.params, c.body, c.ret, scope, c.interp⟩

namespace Use

/-- What a use gets at corresponds to itself in a setting. -/
def Stands (S : Setting σ) (w : World) : Use → Prop
  | evaluate I e => ∀ w', w ≤ w' → ∀ f g, w'.frames.pairs f g →
      S.place w' ⟨I, .single f, e⟩ ⟨I, .single g, e⟩
  | invoke c args => (∀ w', w ≤ w' → ∀ f g, w'.frames.pairs f g →
      S.ClosureLike w' (c.closure (.single f)) (c.closure (.single g))) ∧ ValuesLike w S.ok args args
  | call ref args => RefLike w ref ref ∧ ValuesLike w S.ok args args

section Settings

variable {S : Setting σ} {H : Host σ} {d : Array Nat × Array Nat} {w : World}

theorem steps_whole {x y : Step σ (Except EvalError Value)}
    (h : S.Steps d w (fun w => ResultLike w S.ok) x y) :
    S.Steps d w (fun w => UseResult.Like w S.ok) (UseResult.whole <$> x) (UseResult.whole <$> y) := by
  rw [map_eq_pure_bind, map_eq_pure_bind]
  exact Setting.Steps.bind h fun _ _ _ _ hr => Setting.Steps.pure (.whole hr)

/-- A use goes side by side with itself. -/
theorem steps_run (hH : S.HostLike H) {fuel : Nat}
    (hE : S.EngineLike (engine H fuel) (engine H fuel)) (hok : ∀ f, S.ok f)
    (hwithin : ∀ I d, S.within I d) {u : Use}
    (hu : u.Stands S w) :
    S.Steps d w (fun w => UseResult.Like w S.ok) (u.run H fuel) (u.run H fuel) := by
  cases u with
  | evaluate I e =>
    refine steps_whole ?_
    unfold evaluateClosed
    split
    · exact Setting.Steps.pure (.error (.fault (hok _)))
    · refine Setting.Steps.bind (Setting.Steps.push ⟨[]⟩ ⟨[]⟩ none none) ?_
      rintro w' hw _ _ ⟨f, g, hfg, -, rfl, rfl⟩
      exact Setting.Steps.finish hH hE (hE.eval d w' _ _ (hu w' hw f g hfg))
  | invoke c args =>
    refine steps_whole ?_
    unfold Compiled.invoke
    split
    · exact Setting.Steps.pure (.error (.fault (hok _)))
    · refine Setting.Steps.bind (Setting.Steps.push ⟨[]⟩ ⟨[]⟩ none none) ?_
      rintro w' hw _ _ ⟨f, g, hfg, -, rfl, rfl⟩
      exact Setting.Steps.finish hH hE (Setting.Runs.callClosure hE (hu.1 w' hw f g hfg)
        (hwithin _ _) (hu.2.imp fun _ _ => ValueLike.mono hw))
  | call ref args =>
    show S.Steps d w _ (UseResult.reply <$> apply H fuel ref args)
      (UseResult.reply <$> apply H fuel ref args)
    rw [map_eq_pure_bind]
    exact Setting.Steps.bind (hE.apply d w ref ref args args hu.1 hu.2) fun _ _ _ _ hr =>
      Setting.Steps.pure (.reply hr)

end Settings

/-- Anything corresponds to itself where anything may happen. -/
theorem stands_anyhow (u : Use) {w : World} (h : World.since 0 ≤ w) : u.Stands (anyhow σ) w := by
  have hplace : ∀ w', w ≤ w' → ∀ P, (anyhow σ).place w' P P := fun w' hw P =>
    ⟨le_trans h hw, .inr ⟨fun _ => trivial, rfl, rfl⟩⟩
  have heq : ∀ w', w ≤ w' → ∀ f g, w'.frames.pairs f g → f = g := fun w' hw f g hfg =>
    Pairing.eq_of_since (fun _ _ => World.le_frames (le_trans h hw)) (Nat.zero_le f) hfg
  cases u with
  | evaluate I e =>
    intro w' hw f g hfg
    obtain rfl := heq w' hw f g hfg
    exact hplace w' hw _
  | invoke c args =>
    refine ⟨fun w' hw f g hfg => ?_, .of_since h fun _ _ _ _ => trivial⟩
    obtain rfl := heq w' hw f g hfg
    refine ⟨rfl, rfl, rfl, fun w'' hw' f' g' hfg' _ => ?_⟩
    obtain rfl := heq w'' (le_trans hw hw') f' g' hfg'
    exact hplace w'' (le_trans hw hw') _
  | call ref args =>
    refine ⟨?_, .of_since h fun _ _ _ _ => trivial⟩
    cases ref with
    | hosted code => exact .hosted code
    | closure i => exact .closure (World.le_closures h rfl)

/-- A use takes nothing away from the machine. -/
theorem grown {H : Host σ} {fuel : Nat} {u : Use} {m m' : Machine σ} {r : UseResult}
    (h : u.run H fuel m = some (r, m')) : Grown (fun _ => False) m m' := by
  have hsimilar := anyhow_similar m
  have hE : (anyhow σ).EngineLike (engine H fuel) (engine H fuel) :=
    mirror_engines H.keeps_trivial fuel
  have hhost : (anyhow σ).HostLike H := mirror_host H.keeps_trivial
  obtain ⟨_, _, _, -, -, -, hgrown, -, -⟩ := steps_run hhost hE (fun _ => trivial)
    (fun _ _ => trivial) (u.stands_anyhow hsimilar.above) m m hsimilar r m' h
  exact hgrown.imp fun _ h => h.elim

theorem Runs.grown {H : Host σ} {us : List Use} {m m' : Machine σ} (h : Runs H us m m') :
    Grown (fun _ => False) m m' := by
  induction h with
  | nil m => exact .refl m
  | cons first _ ih => exact (Use.grown first).trans ih

/-- What a use is given belongs to a footprint. -/
def Known (fp : Footprint) : Use → Prop
  | evaluate _ e => e.Constants fp.Knows
  | invoke c args => c.body.Constants fp.Knows ∧ ∀ v ∈ args, fp.Knows v
  | call ref args =>
    (match ref with
      | .hosted _ => True
      | .closure i => fp.closures i) ∧ ∀ v ∈ args, fp.Knows v

section Alike

variable {fp : Footprint} {same : World → σ → σ → Prop}
  {hsame : ∀ {w w' : World}, w ≤ w' → ∀ {s t : σ}, same w s t → same w' s t}

theorem Known.stands {u : Use} (h : u.Known fp) :
    u.Stands (beside fp same hsame) (World.showing fp) := by
  cases u with
  | evaluate I e =>
    exact fun w' hw f g hfg => ⟨hw, rfl, rfl, .cons hfg .nil, .none, h⟩
  | invoke c args =>
    refine ⟨fun w' hw f g hfg => ?_, .of_knows (le_refl _) h.2⟩
    refine ⟨rfl, rfl, rfl, fun w'' hw' f' g' hfg' _ => ?_⟩
    exact ⟨le_trans hw hw', rfl, rfl, .cons hfg' (.cons (World.le_frames hw' hfg) .nil), .none, h.1⟩
  | call ref args =>
    refine ⟨?_, .of_knows (le_refl _) h.2⟩
    cases ref with
    | hosted code => exact .hosted code
    | closure i => exact .closure ⟨rfl, h.1⟩

/-- Two uses end alike: with results that differ only in what is not in the footprint, with host
states that are related again, and with bindings of the footprint's frames that are alike. -/
structure EndsAlike (fp : Footprint) (same : World → σ → σ → Prop) (w : World)
    (x y : UseResult × Machine σ) : Prop where
  above : World.showing fp ≤ w
  result : UseResult.Like w (fun _ => True) x.1 y.1
  host : same w x.2.host y.2.host
  frames : ∀ f, fp.frames f → FrameLike w (fun _ => True) (x.2.store.frame f) (y.2.store.frame f)
  depths : x.2.depths = y.2.depths

/-- What a use does on one machine, it does on any other that agrees on its footprint. -/
theorem alike {H : Host σ} (hH : (beside fp same hsame).HostLike H) {m₁ m₂ : Machine σ}
    (hagrees : fp.Agrees m₁ m₂) (hhost : same (World.showing fp) m₁.host m₂.host) {u : Use}
    (hu : u.Known fp) {fuel : Nat} {x : UseResult × Machine σ} (h : u.run H fuel m₁ = some x) :
    ∃ y w, u.run H fuel m₂ = some y ∧ EndsAlike fp same w x y := by
  have hE := (beside_lawful hH).engines (Nat.le_refl fuel)
  rw [engineWhile_always] at hE
  obtain ⟨r, m₁'⟩ := x
  obtain ⟨r', m₂', w, hrun, hw, hsim, -, -, hr⟩ := steps_run hH hE (fun _ => trivial)
    (fun _ _ => trivial) hu.stands m₁ m₂ (hagrees.similar hhost) r m₁' h
  refine ⟨(r', m₂'), w, hrun, hw, hr, hsim.host, fun f hf => ?_, ?_⟩
  · exact hsim.bindings f f (World.le_frames hw ⟨rfl, hf⟩)
  · exact hsim.depths₁.trans (hagrees.depths.trans hsim.depths₂.symm)

/-- So neither of the two uses ends alone. -/
theorem rel {H : Host σ} (hH : (beside fp same hsame).HostLike H) {m₁ m₂ : Machine σ}
    (hagrees : fp.Agrees m₁ m₂) (h₁₂ : same (World.showing fp) m₁.host m₂.host)
    (h₂₁ : same (World.showing fp) m₂.host m₁.host) {u : Use} (hu : u.Known fp) (fuel : Nat) :
    Option.Rel (fun x y => ∃ w, EndsAlike fp same w x y) (u.run H fuel m₁) (u.run H fuel m₂) := by
  cases h₁ : u.run H fuel m₁ with
  | some x =>
    obtain ⟨y, w, h₂, halike⟩ := alike hH hagrees h₁₂ hu h₁
    rw [h₂]
    exact .some ⟨w, halike⟩
  | none =>
    cases h₂ : u.run H fuel m₂ with
    | none => exact .none
    | some y =>
      obtain ⟨x, _, h, -⟩ := alike hH hagrees.symm h₂₁ hu h₂
      rw [h₁] at h
      cases h

end Alike

end Use

/-- The counting of activations is exact and never leaks. On a machine where `active` lists the
activations in progress, let any uses of its interpreters be made one after another, however they
end. Then

* the counters are what they were;
* any further use, with any fuel, is what it is to the evaluator that keeps the list of activations
  in progress, checks at every node and every call that the counters are those of the list, and
  refuses by the list;
* whenever the counters are those of the list, an activation is refused, whatever the body and the
  arguments are, if and only if as many activations of its interpreter are in progress as its
  limit says;
* a further use ends as it would have before the uses, if the host's state is the same as before
  and so are the variables that it can get at. -/
theorem call_depth_is_exact {H : Host σ} {limits : Nat → Nat} {active : List Nat} {us : List Use}
    {m m' : Machine σ} (hm : m.Registers limits) (hcounts : Counts limits m.depths active)
    (hus : ∀ u ∈ us, u.Registered limits m.depths.size) (hruns : Use.Runs H us m m') :
    m'.depths = m.depths ∧
      (∀ u fuel, Use.Registered limits m.depths.size u →
        u.runNested H limits fuel active m' = u.run H fuel m') ∧
      (∀ (k : Machine σ) active c, Counts limits k.depths active →
        Interp.Registered limits k.depths.size c.interp →
        (active.count c.interp.id = c.interp.limit ↔ ∀ E args,
          (callClosure E c args).run k =
            some (.error (.fault (.stackOverflow c.interp.limit)), k))) ∧
      ∀ fp same (hsame : ∀ {w w' : World}, w ≤ w' → ∀ {s t : σ}, same w s t → same w' s t),
        fp.Within m → (beside fp same hsame).HostLike H →
        same (World.showing fp) m.host m'.host → same (World.showing fp) m'.host m.host →
        (∀ f, fp.frames f → m'.store.frame f = m.store.frame f) →
        ∀ u fuel, Use.Known fp u →
          Option.Rel (fun x y => ∃ w, Use.EndsAlike fp same w x y) (u.run H fuel m)
            (u.run H fuel m') := by
  obtain ⟨hdepths, hregisters⟩ := hruns.depths_eq hus hm
  refine ⟨hdepths, fun u fuel hu => ?_, fun k active c hk hI => ?_, ?_⟩
  · rw [← hdepths] at hu hcounts
    exact Use.runNested_eq hu hregisters hcounts
  · exact refused_iff hk hI
  · intro fp same hsame hwithin hH h₁₂ h₂₁ hframes u fuel hu
    exact Use.rel hH (hwithin.agrees hruns.grown hframes hdepths) h₁₂ h₂₁ hu fuel

namespace Sample

/-- A compiled lambda that calls another lambda, with a limit of one activation. -/
def calling : Compiled :=
  ⟨⟨0, 1⟩, [], .mk 3 (.invoke (.mk 2 (.lambda [] (.mk 1 .empty .void)) (.func [] .void)) []) .void,
    .void⟩

/-- A machine that counts for one interpreter. -/
def counting : Machine Unit := ⟨4, .empty, #[], #[0], ()⟩

/-- A footprint of identities only. -/
def idsBelow (n : Nat) : Footprint := ⟨n, fun _ => False, fun _ => False⟩

/-- The host that answers null answers alike in every setting. -/
theorem silent_like (S : Setting Unit) : S.HostLike silent :=
  have hnull : ∀ w, ScriptLike S.state S.ok (fun w => ReplyLike w S.ok) w
      (.done (.ok .null)) (.done (.ok .null)) := fun _ => .done (ExceptLike.ok ValueLike.null)
  ⟨fun w _ _ _ _ _ _ _ _ => hnull w, fun w _ _ _ _ _ _ => hnull w,
    fun w _ _ _ _ _ _ _ _ _ => hnull w⟩

end Sample

open Sample in
/-- The second activation is refused; the counter is zero again, and the next use ends alike. -/
theorem refused_use_leaves_no_trace :
    ∃ m', (Use.invoke calling []).run silent 4 counting =
        some (.whole (.error (.fault (.stackOverflow 1))), m') ∧
      m'.depths = #[0] ∧
      (Use.invoke calling []).runNested silent (fun _ => 1) 4 [] m' =
        (Use.invoke calling []).run silent 4 m' ∧
      Option.Rel (fun x y => ∃ w, Use.EndsAlike (idsBelow 4) (fun _ => Eq) w x y)
        ((Use.invoke calling []).run silent 4 counting)
        ((Use.invoke calling []).run silent 4 m') := by
  obtain ⟨m', hrun⟩ : ∃ m', (Use.invoke calling []).run silent 4 counting =
      some (.whole (.error (.fault (.stackOverflow 1))), m') := ⟨_, rfl⟩
  have hregistered : Use.Registered (fun _ => 1) 1 (Use.invoke calling []) := ⟨Nat.one_pos, rfl⟩
  have hus : ∀ u ∈ [Use.invoke calling []], Use.Registered (fun _ => 1) counting.depths.size u :=
    List.forall_mem_singleton.mpr hregistered
  have hcounts : Counts (fun _ => 1) counting.depths [] := by decide
  obtain ⟨hdepths, hnested, -, hrel⟩ := call_depth_is_exact (H := silent) (m := counting)
    (fun i c hc => nomatch hc) hcounts hus (.cons hrun (.nil m'))
  have hwithin : (idsBelow 4).Within counting :=
    ⟨Nat.le_refl 4, fun _ h => h.elim, fun _ h => h.elim, fun _ h => h.elim⟩
  have hknown : (Use.invoke calling []).Known (idsBelow 4) := by
    -- the tree has no constants
    refine ⟨fun n hn v hv => ?_, List.forall_mem_nil _⟩
    have hnodes : calling.body.nodes = [calling.body,
        .mk 2 (.lambda [] (.mk 1 .empty .void)) (.func [] .void), .mk 1 .empty .void] := rfl
    have hn : n = calling.body ∨ n = .mk 2 (.lambda [] (.mk 1 .empty .void)) (.func [] .void) ∨
        n = .mk 1 .empty .void := by simpa [hnodes] using hn
    rcases hn with rfl | rfl | rfl <;> cases hv
  exact ⟨m', hrun, hdepths, hnested _ 4 hregistered,
    hrel (idsBelow 4) (fun _ => Eq) (fun _ _ _ h => h) hwithin (silent_like _) rfl rfl
      (fun _ h => h.elim) _ 4 hknown⟩

end CodeTree
