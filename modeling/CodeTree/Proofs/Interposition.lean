import CodeTree.Proofs.Disposal
import CodeTree.Proofs.ExtraFrame
import CodeTree.Proofs.Fuel
import CodeTree.Proofs.Stock

/-!
# A frame between a scope and the scope around it

One evaluation goes on in a scope, and another one of the same tree with one more frame between
that scope and what it opens (`Interposition`). The frame may bind variables that the tree does
not touch, or variables that the scope around binds to the same values. Then the two evaluations
go in step: reading finds the same value, and an assignment goes to corresponding frames. Closures
that were there before do not see the frame; what the tree makes sees it.

* `Interposition.layer` — one layer, whatever keeps the tree away from the variables of the frame;
* `Interposition.similar_opening` — a machine on which the frame has just been opened;
* `eval_beside` — a tree that touches none of the variables ends alike with the frame and without
  it, or ends neither way.

Evaluations only ever make scopes of frames that exist (`Machine.ScopesExist.eval`), so that a
frame which is opened later is new to all of them.
-/

namespace CodeTree

variable {σ : Type}

/-- Some node of the tree refers to the variable or assigns to it. -/
def Expr.Touches (e : Expr) (id : Nat) : Prop :=
  ∃ g ∈ e.nodes, ∃ p : Param, p.id = id ∧ (g.shape = .parameter p ∨ ∃ a, g.shape = .assign p a)

theorem Expr.Touches.of_child {e a : Expr} (ha : a ∈ e.children) {id : Nat} (h : a.Touches id) :
    e.Touches id := by
  obtain ⟨g, hg, hp⟩ := h
  exact ⟨g, mem_nodes_of_child ha hg, hp⟩

namespace Store

variable {s : Store} {scope : Scope} {id : Nat}

theorem lookup_congr {st st' : Store}
    (h : ∀ link ∈ scope.links, (st'.frame link.frame).get? id = (st.frame link.frame).get? id) :
    st'.lookup scope id = st.lookup scope id := by
  obtain ⟨links⟩ := scope
  unfold lookup
  induction links with
  | nil => rfl
  | cons link links ih =>
    rw [List.forall_mem_cons] at h
    rw [List.findSome?_cons, List.findSome?_cons, h.1, ih h.2]

/-- A new frame hides nothing from scopes that exist. -/
theorem lookup_opened (bindings : List (Param × Value))
    (h : ∀ link ∈ scope.links, link.frame < s.frames.size) :
    (s.opened bindings).lookup scope id = s.lookup scope id :=
  lookup_congr fun link hlink => by rw [frame_opened_of_ne (Nat.ne_of_lt (h link hlink))]

/-- An assignment changes no other variable, in whatever scope. -/
theorem lookup_assign_of_ne {target : Nat} (h : id ≠ target) (at_ : Scope) (v : Value) :
    (s.assign at_ target v).2.lookup scope id = s.lookup scope id := by
  unfold assign
  split
  next f howner =>
    refine lookup_congr fun link _ => ?_
    by_cases hf : link.frame = f
    · rw [hf, frame_write_self (lt_size_of_isSome_get? (isSome_of_owner? howner)), Frame.get?_set,
        if_neg h]
    · rw [frame_write_of_ne hf]
  next => rfl

/-- An assignment binds no variable anew. -/
theorem owner?_assign (at_ : Scope) (target : Nat) (v : Value) :
    (s.assign at_ target v).2.owner? scope id = s.owner? scope id := by
  unfold assign
  split
  next f howner =>
    have hbound := isSome_of_owner? howner
    unfold owner?
    refine congrArg (fun test => (scope.links.find? test).map Link.frame) (funext fun link => ?_)
    by_cases hf : link.frame = f
    · rw [hf, frame_write_self (lt_size_of_isSome_get? hbound), Frame.get?_set]
      split
      next hid => rw [hid, hbound]; rfl
      next => rfl
    · rw [frame_write_of_ne hf]
  next => rfl

/-- Nor does it change the variable where another scope finds it in another frame. -/
theorem lookup_assign_of_owner?_ne {at_ : Scope} (h : s.owner? at_ id ≠ s.owner? scope id) (v : Value) :
    (s.assign at_ id v).2.lookup scope id = s.lookup scope id := by
  rw [lookup_eq_owner?, lookup_eq_owner?, owner?_assign]
  cases hg : s.owner? scope id with
  | none => rfl
  | some g =>
    refine congrArg (fun fr : Frame => fr.get? id) ?_
    unfold assign
    split
    next f howner =>
      have hne : g ≠ f := by
        rintro rfl
        exact h (howner.trans hg.symm)
      exact frame_write_of_ne hne id v
    next => rfl

end Store

/-! ## Scopes that exist -/

/-- The first frame of the scope is the newest one. -/
def Scope.StartsNew (s : Scope) : Prop :=
  ∀ head ∈ s.links.head?, ∀ link ∈ s.links.tail, link.frame < head.frame

/-- An evaluation that starts in the scope `s`, beside itself, as far as its scopes are concerned.
The index bounds the frames that scopes may see. -/
def standing (s : Scope) : Lockstep Nat where
  both := False
  memory w st₁ st₂ := st₁ = st₂ ∧ w ≤ st₁.frames.size
  place w P Q := P = Q ∧ (∀ link ∈ P.scope.links, link.frame < w) ∧ (P.scope = s ∨ P.scope.StartsNew)
  place_mono h _ _ hP := ⟨hP.1, fun link hlink => Nat.lt_of_lt_of_le (hP.2.1 link hlink) h, hP.2.2⟩

section Standing

variable {s t : Scope} {w : Nat}

theorem standing_opens (ht : ∀ link ∈ t.links, link.frame < w) (vars : List Param) :
    (standing s).Opens w t t vars fun w' t₁ t₂ =>
      t₁ = t₂ ∧ (∀ link ∈ t₁.links, link.frame < w') ∧ t₁.StartsNew := by
  intro w' hw st₁ st₂ hst handling bindings _
  obtain ⟨rfl, hsize⟩ := hst
  have hbelow : ∀ link ∈ t.links, link.frame < st₁.frames.size := fun link hlink =>
    Nat.lt_of_lt_of_le (ht link hlink) (Nat.le_trans hw hsize)
  have hopened : st₁.frames.size + 1 ≤ (st₁.opened bindings).frames.size :=
    Nat.le_of_eq (st₁.size_opened bindings).symm
  refine ⟨st₁.frames.size + 1, Nat.le_succ_of_le hsize, ⟨rfl, hopened⟩, rfl, List.forall_mem_cons.mpr ⟨Nat.lt_succ_self _, fun link hlink => ?_⟩, ?_⟩
  · exact Nat.lt_succ_of_lt (hbelow link hlink)
  · rintro head hhead link hlink
    cases hhead
    exact hbelow link hlink

theorem standing_lawful (s : Scope) (H : Host σ) : (standing s).Lawful H := by
  rintro w P Q ⟨rfl, hbelow, hscope⟩
  refine .inl ⟨fun _ a b => a = b, rfl, rfl, Shape.like_self (fun _ _ => rfl) fun _ _ _ => rfl,
    fun _ a b hab => by rw [hab], ?_, ?_, ?_, ?_, ?_, fun _ => rfl⟩
  · rintro a b rfl
    exact ⟨rfl, hbelow, hscope⟩
  · intro q _
    refine (standing_opens hbelow q.declared).imp fun w' t₁ t₂ ht a b hab => ?_
    obtain ⟨rfl, ht⟩ := ht
    obtain rfl := hab
    exact ⟨rfl, ht.1, .inr ht.2⟩
  · intro params a b ha hb
    rw [ha] at hb
    cases hb
    rfl
  · rintro p _ _ _ st₁ st₂ ⟨rfl, -⟩
    rfl
  · rintro p a _ _ _ st₁ st₂ ⟨rfl, hsize⟩ v
    refine ⟨rfl, rfl, ?_⟩
    unfold Store.assign
    split
    · rw [Store.size_write]
      exact hsize
    · exact hsize

/-- A machine whose scopes exist, beside itself. -/
theorem standing_similar {m : Machine σ} (hm : m.ScopesExist) (s : Scope) :
    (standing s).Similar m.store.frames.size m.depths m m := by
  refine ⟨rfl, rfl, rfl, rfl, ⟨rfl, Nat.le_refl _⟩, rfl, fun i => ?_⟩
  cases hc : m.closures[i]? with
  | none => exact .none
  | some c =>
    refine .some ⟨rfl, rfl, rfl, (standing_opens (hm i c hc) c.params).imp fun _ t₁ t₂ ht => ?_⟩
    obtain ⟨rfl, ht⟩ := ht
    exact ⟨rfl, ht.1, .inr ht.2⟩

theorem Machine.ScopesExist.of_similar {made : Nat} (hs : ∀ link ∈ s.links, link.frame < made)
    (hw : made ≤ w) {d : Array Nat} {m₁ m₂ : Machine σ} (h : (standing s).Similar w d m₁ m₂) :
    m₁.ScopesExist ∧ made ≤ m₁.store.frames.size := by
  have hsize : made ≤ m₁.store.frames.size := Nat.le_trans hw h.store.2
  refine ⟨fun i c hc link hlink => ?_, hsize⟩
  have hrel := h.closures i
  rw [hc] at hrel
  generalize m₂.closures[i]? = o at hrel
  cases hrel with
  | some hclosure =>
    -- in front of its scope, a new frame would be the newest
    obtain ⟨_, _, -, -, -, hscope⟩ := hclosure.body w (Nat.le_refl w) _ _ h.store none
      (c.params.map fun p => (p, .default p.ty)) (map_fst_bound c.params _)
    rcases hscope with hscope | hnewest
    · have hhead := hs ⟨m₁.store.frames.size, none⟩ (by rw [← hscope]; exact List.mem_cons_self)
      exact absurd hhead (Nat.not_lt.mpr hsize)
    · exact hnewest _ rfl link hlink

section Kept

variable {H : Host σ} {I : Interp} {m m' : Machine σ} {r : Except Exit Value} (hm : m.ScopesExist)
  (hs : ∀ link ∈ s.links, link.frame < m.store.frames.size)

include hm hs

/-- An evaluation leaves all closures in scopes of frames that have been made, and takes no frame
back. -/
theorem Machine.ScopesExist.eval {fuel : Nat} {e : Expr}
    (hrun : (CodeTree.eval H fuel I s e).run m = some (r, m')) :
    m'.ScopesExist ∧ m.store.frames.size ≤ m'.store.frames.size := by
  have hengines : (standing s).Engines m.depths (engine H fuel) (engine H fuel) :=
    Lockstep.engines (standing_lawful s H) (Nat.le_refl fuel) (fun _ => rfl) m.depths
  obtain ⟨_, _, w, hw, hafter, -⟩ := (hengines.eval _ ⟨I, s, e⟩ ⟨I, s, e⟩ ⟨rfl, hs, .inl rfl⟩ m m
    (standing_similar hm s)).of_some hrun
  exact Machine.ScopesExist.of_similar hs hw hafter

/-- So does the run of a body. -/
theorem BodyEnds.scopesExist {body rest : List Expr} {last : Value}
    (h : BodyEnds H I s body rest last m (r, m')) :
    m'.ScopesExist ∧ m.store.frames.size ≤ m'.store.frames.size := by
  obtain ⟨n, k, hrun⟩ := h
  have hengines : (standing s).Engines m.depths (engine H n) (engine H n) :=
    Lockstep.engines (standing_lawful s H) (Nat.le_refl n) (fun _ => rfl) m.depths
  have hlike : ∀ es : List Expr, List.Forall₂ ((standing s).StatementLike m.depths
      m.store.frames.size (CodeTree.eval H n I s) (CodeTree.eval H n I s)) es es := fun es =>
    List.forall₂_same.mpr fun e _ => ⟨rfl, fun w' hw => hengines.eval w' ⟨I, s, e⟩ ⟨I, s, e⟩
      ⟨rfl, fun link hlink => Nat.lt_of_lt_of_le (hs link hlink) hw, .inl rfl⟩⟩
  have hbodies := Lockstep.Runs.runBody (Nat.le_refl k) (fun hboth : False => hboth.elim) last
    (hlike body) (hlike rest)
  obtain ⟨_, _, w, hw, hafter, -⟩ := (hbodies m m (standing_similar hm s)).of_some hrun
  exact Machine.ScopesExist.of_similar hs hw hafter

end Kept

end Standing

/-! ## The frame -/

/-- A frame that stands, for one of two evaluations, in front of a scope. -/
structure Interposition where
  /-- The number of the frame. -/
  frame : Nat
  extra : Frame
  /-- The scope around it. -/
  outer : Scope
  /-- Whether the scope around binds the variables of the frame to the same values. -/
  shared : Prop
  below : ∀ link ∈ outer.links, link.frame < frame

namespace Interposition

variable (X : Interposition)

/-- The right store has the frame too. -/
structure Memory (st₁ st₂ : Store) : Prop where
  exceeds : Store.Exceeds X.frame X.extra st₂ st₁
  agrees : X.shared → ∀ id v, X.extra.get? id = some v → st₁.lookup X.outer id = some v

/-- The right scope sees the frame where the left one goes on to the scope around. -/
def Sees (s₁ s₂ : Scope) : Prop :=
  ∃ front : List Link, s₁.links = front ++ X.outer.links ∧
    s₂.links = front.map (Link.raise X.frame) ++ ⟨X.frame, none⟩ :: X.outer.links

/-- Where two evaluations are: at the same place but for the numbers of frames, or in scopes of
which the right one sees the frame. -/
inductive Placed (spares : Expr → Prop) (P Q : Place) : Prop
  | outside (interp : P.interp = Q.interp) (tree : P.tree = Q.tree)
      (scope : Q.scope = P.scope.raise X.frame)
  | inside (interp : P.interp = Q.interp) (tree : P.tree = Q.tree) (spared : spares P.tree)
      (scope : X.Sees P.scope Q.scope)

/-- Evaluations without the frame and with it. -/
def lockstep (both : Prop) (spares : Expr → Prop) : Lockstep Still where
  both := both
  memory _ := X.Memory
  place _ := X.Placed spares
  place_mono _ _ _ h := h

variable {X} {both : Prop} {spares : Expr → Prop} {st₁ st₂ : Store} {s₁ s₂ : Scope} {id : Nat}

theorem raise_outer : X.outer.links.map (Link.raise X.frame) = X.outer.links :=
  congrArg Scope.links (Scope.raise_eq X.below)

/-- The scope around, with the frame in front of it. -/
theorem sees_opened : X.Sees X.outer (X.outer.extended X.frame none) := ⟨[], rfl, rfl⟩

namespace Sees

variable (h : X.Sees s₁ s₂)

include h

theorem shows : s₂.Shows X.frame Set.univ s₁ := by
  obtain ⟨front, h₁, h₂⟩ := h
  refine ⟨front, X.outer.links, h₁, ?_, fun _ _ => Set.mem_univ _⟩
  rw [raise_outer]
  exact h₂

theorem extended (f : Nat) (handling : Option Value) :
    X.Sees (s₁.extended f handling) (s₂.extended (raise X.frame f) handling) := by
  obtain ⟨front, h₁, h₂⟩ := h
  exact ⟨⟨f, handling⟩ :: front, congrArg (List.cons _) h₁, congrArg (List.cons _) h₂⟩

end Sees

/-- A variable that is found elsewhere than from the scope around is found in front of the frame. -/
theorem Sees.owner?_of_ne (h : X.Sees s₁ s₂) (hst : Store.Exceeds X.frame X.extra st₂ st₁)
    (hne : st₁.owner? s₁ id ≠ st₁.owner? X.outer id) :
    st₂.owner? s₂ id = (st₁.owner? s₁ id).map (raise X.frame) := by
  obtain ⟨front, h₁, h₂⟩ := h
  rw [Store.owner?, h₁, List.find?_append] at hne
  rw [Store.owner?, Store.owner?, h₁, h₂, List.find?_append, List.find?_append, hst.find?_raise]
  cases hfound : front.find? fun link => ((st₁.frame link.frame).get? id).isSome with
  | none =>
    rw [hfound] at hne
    exact absurd rfl hne
  | some link => rfl

/-- A variable that is found elsewhere than from the frame is found in front of it. -/
theorem Sees.owner?_of_framed (h : X.Sees s₁ s₂) (hst : Store.Exceeds X.frame X.extra st₂ st₁)
    (hne : st₂.owner? s₂ id ≠ st₂.owner? (X.outer.extended X.frame none) id) :
    st₂.owner? s₂ id = (st₁.owner? s₁ id).map (raise X.frame) := by
  cases hid : X.extra.get? id with
  | none => exact hst.owner?_shows h.shows hid
  | some v =>
    obtain ⟨front, h₁, h₂⟩ := h
    rw [Store.owner?, Store.owner?, h₂, List.find?_append, hst.find?_raise] at hne
    rw [Store.owner?, Store.owner?, h₁, h₂, List.find?_append, List.find?_append, hst.find?_raise]
    cases hfound : front.find? fun link => ((st₁.frame link.frame).get? id).isSome with
    | none =>
      rw [hfound] at hne
      exact absurd rfl hne
    | some link => rfl

/-- The scope around finds a variable in corresponding frames. -/
theorem owner?_outer (hst : Store.Exceeds X.frame X.extra st₂ st₁) :
    st₂.owner? X.outer id = (st₁.owner? X.outer id).map (raise X.frame) := by
  have h := hst.owner?_raise X.outer id
  rwa [Scope.raise_eq X.below] at h

namespace Memory

variable (h : X.Memory st₁ st₂)

include h

theorem opened (bindings : List (Param × Value)) :
    X.Memory (st₁.opened bindings) (st₂.opened bindings) where
  exceeds := h.exceeds.opened bindings
  agrees hshared id v hv := by
    rw [Store.lookup_opened]
    · exact h.agrees hshared id v hv
    · exact fun link hlink => Nat.lt_of_lt_of_le (X.below link hlink) h.exceeds.made

/-- An assignment to a variable that is found in corresponding frames, and where the frame shares it
not in the one in which the scope around finds it. -/
theorem assign (howner : st₂.owner? s₂ id = (st₁.owner? s₁ id).map (raise X.frame))
    (hid : X.shared → (X.extra.get? id).isSome → st₁.owner? s₁ id ≠ st₁.owner? X.outer id) (v : Value) :
    (st₁.assign s₁ id v).1 = (st₂.assign s₂ id v).1 ∧
      X.Memory (st₁.assign s₁ id v).2 (st₂.assign s₂ id v).2 := by
  obtain ⟨hfound, hexceeds⟩ := h.exceeds.assign howner v
  refine ⟨hfound.symm, hexceeds, fun hshared id' v' hv' => ?_⟩
  rw [← h.agrees hshared id' v' hv']
  by_cases heq : id' = id
  · subst heq
    exact Store.lookup_assign_of_owner?_ne (hid hshared (by rw [hv']; rfl)) v
  · exact Store.lookup_assign_of_ne heq s₁ v

/-- A variable that the scope around shares has the same value with the frame and without it. -/
theorem lookup_shared (hs : X.Sees s₁ s₂) (hshared : X.shared) :
    st₁.lookup s₁ id = st₂.lookup s₂ id := by
  cases hid : X.extra.get? id with
  | none => exact (h.exceeds.lookup (h.exceeds.owner?_shows hs.shows hid)).symm
  | some v =>
    obtain ⟨front, h₁, h₂⟩ := hs
    have hfront : (front.map (Link.raise X.frame)).findSome?
        (fun link => (st₂.frame link.frame).get? id) =
          front.findSome? fun link => (st₁.frame link.frame).get? id := by
      rw [List.findSome?_map]
      refine congrArg (fun f => front.findSome? f) (funext fun link => ?_)
      exact congrArg (fun fr : Frame => fr.get? id) (h.exceeds.frames link.frame)
    have houter : X.outer.links.findSome? (fun link => (st₁.frame link.frame).get? id) = some v :=
      h.agrees hshared id v hid
    rw [Store.lookup, Store.lookup, h₁, h₂, List.findSome?_append, List.findSome?_append, hfront,
      houter, List.findSome?_cons, h.exceeds.extra, hid]

end Memory

namespace Placed

variable {spares : Expr → Prop} {P Q : Place} (h : X.Placed spares P Q) (hst : X.Memory st₁ st₂)

include h hst

/-- An assignment to a variable that is not in the frame, or that is found elsewhere than from the
scope around. -/
theorem assign (hfree : X.extra.get? id = none ∨ st₁.owner? P.scope id ≠ st₁.owner? X.outer id)
    (v : Value) :
    (st₁.assign P.scope id v).1 = (st₂.assign Q.scope id v).1 ∧
      X.Memory (st₁.assign P.scope id v).2 (st₂.assign Q.scope id v).2 := by
  refine hst.assign ?_ (fun _ hbound => ?_) v
  · cases h with
    | outside _ _ scope =>
      rw [scope]
      exact hst.exceeds.owner?_raise P.scope id
    | inside _ _ _ scope =>
      rcases hfree with hnone | hne
      · exact hst.exceeds.owner?_shows scope.shows hnone
      · exact scope.owner?_of_ne hst.exceeds hne
  · rcases hfree with hnone | hne
    · rw [hnone] at hbound
      cases hbound
    · exact hne

/-- A variable that is found, with the frame, elsewhere than from the frame and than from the
scope around is found elsewhere without it. -/
theorem apart_of_framed
    (hframe : st₂.owner? Q.scope id ≠ st₂.owner? (X.outer.extended X.frame none) id)
    (houter : st₂.owner? Q.scope id ≠ st₂.owner? X.outer id) :
    st₁.owner? P.scope id ≠ st₁.owner? X.outer id := by
  have howner : st₂.owner? Q.scope id = (st₁.owner? P.scope id).map (raise X.frame) := by
    cases h with
    | outside _ _ scope =>
      rw [scope]
      exact hst.exceeds.owner?_raise P.scope id
    | inside _ _ _ scope => exact scope.owner?_of_framed hst.exceeds hframe
  intro heq
  exact houter (by rw [howner, heq, owner?_outer hst.exceeds])

end Placed

/-! ## One layer -/

theorem opens (vars : List Param) {T : Still → Scope → Scope → Prop}
    (hT : ∀ (st₁ st₂ : Store) handling, X.Memory st₁ st₂ →
      T ⟨⟩ (s₁.extended st₁.frames.size handling)
        (s₂.extended (raise X.frame st₁.frames.size) handling)) :
    (X.lockstep both spares).Opens ⟨⟩ s₁ s₂ vars T := by
  intro _ _ st₁ st₂ hst handling bindings _
  have hst : X.Memory st₁ st₂ := hst
  refine ⟨⟨⟩, trivial, hst.opened bindings, ?_⟩
  rw [← hst.exceeds.raise_size]
  exact hT st₁ st₂ handling hst

/-- A layer beside itself. A node that reads a variable of the frame has to share it, and a node
that assigns to one must not be there. -/
theorem layer {P Q : Place} (h : X.Placed spares P Q)
    (hread : ∀ p, P.tree.shape = .parameter p → spares P.tree → X.shared ∨ X.extra.get? p.id = none)
    (hassign : ∀ p a, P.tree.shape = .assign p a → spares P.tree ∨ X.shared →
      X.extra.get? p.id = none)
    (hchildren : ∀ a ∈ P.tree.children, spares P.tree → spares a) :
    (X.lockstep both spares).LayerLike ⟨⟩ P Q fun _ a b => a = b ∧ a ∈ P.tree.children := by
  obtain ⟨I, s₁, e⟩ := P
  obtain ⟨I', s₂, e'⟩ := Q
  have hparts : I = I' ∧ e = e' := by cases h <;> exact ⟨‹_›, ‹_›⟩
  obtain ⟨rfl, rfl⟩ := hparts
  have hplaced : ∀ a ∈ e.children, X.Placed spares ⟨I, s₁, a⟩ ⟨I, s₂, a⟩ := by
    intro a ha
    cases h with
    | outside _ _ scope => exact .outside rfl rfl scope
    | inside _ _ spared scope => exact .inside rfl rfl (hchildren a ha spared) scope
  have howner : ∀ id, (spares e → X.extra.get? id = none) → ∀ st₁ st₂, X.Memory st₁ st₂ →
      st₂.owner? s₂ id = (st₁.owner? s₁ id).map (raise X.frame) := by
    intro id hid st₁ st₂ hst
    cases h with
    | outside _ _ scope =>
      rw [show s₂ = s₁.raise X.frame from scope]
      exact hst.exceeds.owner?_raise s₁ id
    | inside _ _ spared scope => exact hst.exceeds.owner?_shows scope.shows (hid spared)
  refine ⟨rfl, rfl, Shape.like_self (fun _ _ => rfl) fun q a ha =>
    ⟨rfl, Shape.mem_children_of_mem_positions ha⟩, fun _ a b hab => by rw [hab.1],
    ?_, ?_, ?_, ?_, ?_, ?_⟩
  · rintro a b ⟨rfl, ha⟩
    exact hplaced a ha
  · intro q _
    refine opens q.declared ?_
    rintro st₁ st₂ handling hst a b ⟨rfl, ha⟩
    cases h with
    | outside _ _ scope =>
      refine .outside rfl rfl ?_
      rw [show s₂ = s₁.raise X.frame from scope]
      rfl
    | inside _ _ spared scope =>
      exact .inside rfl rfl (hchildren a ha spared) (scope.extended _ handling)
  · intro params a b ha hb
    rw [show e.shape = .lambda params a from ha] at hb
    cases hb
    rfl
  · intro p hp _ _ st₁ st₂ hst
    have hst : X.Memory st₁ st₂ := hst
    cases h with
    | outside _ _ scope =>
      rw [show s₂ = s₁.raise X.frame from scope]
      exact (hst.exceeds.lookup (hst.exceeds.owner?_raise s₁ p.id)).symm
    | inside _ _ spared scope =>
      rcases hread p hp spared with hshared | hnone
      · exact hst.lookup_shared scope hshared
      · exact (hst.exceeds.lookup (hst.exceeds.owner?_shows scope.shows hnone)).symm
  · intro p a ha _ _ st₁ st₂ hst v
    have hst : X.Memory st₁ st₂ := hst
    refine hst.assign (howner p.id (fun spared => hassign p a ha (.inl spared)) st₁ st₂ hst)
      (fun hshared hid => ?_) v
    rw [hassign p a ha (.inr hshared)] at hid
    cases hid
  · intro _
    cases h with
    | outside _ _ scope =>
      rw [show s₂ = s₁.raise X.frame from scope]
      exact (Scope.currentException?_raise X.frame s₁).symm
    | inside _ _ _ scope => exact scope.shows.currentException?.symm

/-- The frame that has just been opened in front of a scope. -/
def opening (st : Store) (bindings : List (Param × Value)) (outer : Scope) (shared : Prop)
    (below : ∀ link ∈ outer.links, link.frame < st.frames.size) : Interposition :=
  ⟨st.frames.size, Frame.setAll [] bindings, outer, shared, below⟩

/-- A machine, and the same machine once the frame has been opened. -/
theorem similar_opening {m : Machine σ} (hm : m.ScopesExist) {bindings : List (Param × Value)}
    {outer : Scope} {shared : Prop} (below : ∀ link ∈ outer.links, link.frame < m.store.frames.size)
    (hagrees : shared → ∀ id v, (Frame.setAll [] bindings).get? id = some v →
      m.store.lookup outer id = some v) :
    ((opening m.store bindings outer shared below).lockstep both spares).Similar ⟨⟩ m.depths m
      { m with store := m.store.opened bindings } where
  next := rfl
  host := rfl
  depths₁ := rfl
  depths₂ := rfl
  store := ⟨m.store.exceeds_opened bindings, hagrees⟩
  made := rfl
  closures i := by
    show Option.Rel _ m.closures[i]? m.closures[i]?
    cases hc : m.closures[i]? with
    | none => exact .none
    | some c =>
      have hraise : c.scope.raise m.store.frames.size = c.scope := Scope.raise_eq (hm i c hc)
      refine .some ⟨rfl, rfl, rfl, opens c.params fun st₁ st₂ handling hst => .outside rfl rfl ?_⟩
      show _ = (c.scope.extended st₁.frames.size handling).raise m.store.frames.size
      rw [Scope.raise_extended, hraise]
      rfl

/-! ## Evaluations that have ended -/

/-- Closures that are the same but for the frame. -/
structure ClosureBeside (X : Interposition) (c₁ c₂ : Closure) : Prop where
  params : c₁.params = c₂.params
  ret : c₁.ret = c₂.ret
  interp : c₁.interp = c₂.interp
  body : c₁.body = c₂.body
  scope : c₂.scope = c₁.scope.raise X.frame ∨ X.Sees c₁.scope c₂.scope

/-- Evaluations without the frame and with it that have ended alike: with one outcome, the same
effects on the host, the same identities drawn, and the same machines but for the frame. -/
structure EndsBeside (X : Interposition) (x y : Except Exit Value × Machine σ) : Prop where
  outcome : x.1 = y.1
  host : x.2.host = y.2.host
  next : x.2.next = y.2.next
  depths : x.2.depths = y.2.depths
  closures : ∀ i : Nat, Option.Rel X.ClosureBeside x.2.closures[i]? y.2.closures[i]?
  store : Store.Exceeds X.frame X.extra y.2.store x.2.store

theorem ClosureBeside.of_like {c₁ c₂ : Closure} (hst : X.Memory st₁ st₂)
    (h : (X.lockstep both spares).ClosureLike ⟨⟩ c₁ c₂) : X.ClosureBeside c₁ c₂ := by
  obtain ⟨_, hplace⟩ := h.place hst
  cases hplace with
  | outside _ tree scope =>
    exact ⟨h.params, h.ret, h.interp, tree, .inl (congrArg Scope.mk
      (List.cons.inj (congrArg Scope.links scope)).2)⟩
  | inside _ tree _ scope =>
    refine ⟨h.params, h.ret, h.interp, tree, .inr ?_⟩
    obtain ⟨front, h₁, h₂⟩ := scope
    cases front with
    | nil =>
      -- the newest frame of the right store is not the one between
      have hlink : st₂.frames.size = X.frame :=
        congrArg Link.frame (List.cons.inj h₂).1
      have := hst.exceeds.size
      have := hst.exceeds.made
      omega
    | cons link front => exact ⟨front, (List.cons.inj h₁).2, (List.cons.inj h₂).2⟩

theorem EndsBeside.of_similar {d : Array Nat} {r : Except Exit Value} {m₁ m₂ : Machine σ}
    (h : (X.lockstep both spares).Similar ⟨⟩ d m₁ m₂) : X.EndsBeside (r, m₁) (r, m₂) where
  outcome := rfl
  host := h.host
  next := h.next
  depths := h.depths₁.trans h.depths₂.symm
  closures i := optionRel_imp (fun _ _ => ClosureBeside.of_like h.store) (h.closures i)
  store := Memory.exceeds h.store

/-- Frames that were there before the frame are the same. -/
theorem EndsBeside.frame_eq {x y : Except Exit Value × Machine σ} (h : X.EndsBeside x y) {f : Nat}
    (hf : f < X.frame) : y.2.store.frame f = x.2.store.frame f := by
  have hraised := h.store.frames f
  rwa [raise_of_lt hf] at hraised

/-! ## Trees that touch none of the variables -/

/-- The tree touches no variable of the frame. -/
def Untouched (X : Interposition) (e : Expr) : Prop := ∀ id, e.Touches id → X.extra.get? id = none

theorem lawful_untouched (hshared : ¬X.shared) (H : Host σ) :
    (X.lockstep both X.Untouched).Lawful H := by
  intro _ P Q hplace
  have hself : ∀ p : Param, (P.tree.shape = .parameter p ∨ ∃ a, P.tree.shape = .assign p a) →
      X.Untouched P.tree → X.extra.get? p.id = none := fun p hp h =>
    h p.id ⟨P.tree, P.tree.mem_nodes_self, p, rfl, hp⟩
  exact .inl ⟨_, layer hplace (fun p hp h => .inr (hself p (.inl hp) h))
    (fun p a ha h => hself p (.inr ⟨a, ha⟩) (h.resolve_right hshared))
    fun a ha h id hid => h id (hid.of_child ha)⟩

end Interposition

/-- A tree that touches none of the variables which a new frame binds ends in front of the frame
as it does without it, or does not end either way. -/
theorem eval_beside (H : Host σ) {m : Machine σ} (hm : m.ScopesExist) {scope : Scope}
    (below : ∀ link ∈ scope.links, link.frame < m.store.frames.size)
    {bindings : List (Param × Value)} {e : Expr} (hfree : ∀ b ∈ bindings, ¬e.Touches b.1.id)
    (I : Interp) (fuel : Nat) :
    Option.Rel (Interposition.opening m.store bindings scope False below).EndsBeside
      ((eval H fuel I scope e).run m)
      ((eval H fuel I (scope.extended m.store.frames.size none) e).run
        { m with store := m.store.opened bindings }) := by
  let X := Interposition.opening m.store bindings scope False below
  have huntouched : X.Untouched e := by
    intro id hid
    refine Frame.get?_setAll_of_ne fun b hb hbid => hfree b hb ?_
    rw [hbid]
    exact hid
  have hengines : (X.lockstep True X.Untouched).Engines m.depths (engine H fuel) (engine H fuel) :=
    Lockstep.engines (Interposition.lawful_untouched (fun h => h) H) (Nat.le_refl fuel)
      (fun _ => rfl) m.depths
  have hrun := hengines.eval ⟨⟩ ⟨I, scope, e⟩ ⟨I, scope.extended m.store.frames.size none, e⟩
    (.inside rfl rfl huntouched X.sees_opened) m _ (Interposition.similar_opening hm below nofun)
  refine optionRel_imp (fun x y h => ?_) (hrun.rel trivial)
  obtain ⟨_, _, hsimilar, hr⟩ := h
  obtain ⟨r, m₁⟩ := x
  obtain ⟨r', m₂⟩ := y
  obtain rfl : r = r' := hr.eq
  exact .of_similar hsimilar

section Beside

variable {H : Host σ} {I : Interp} {m : Machine σ} (hm : m.ScopesExist) {scope : Scope}
  (below : ∀ link ∈ scope.links, link.frame < m.store.frames.size) {bindings : List (Param × Value)}
  {e : Expr} (hfree : ∀ b ∈ bindings, ¬e.Touches b.1.id) {r : Except Exit Value} {m' : Machine σ}

include hm hfree

/-- What such a tree ends with in front of the frame is what it ends with without it. -/
theorem Evaluates.without_frame (h : Evaluates H I (scope.extended m.store.frames.size none) e
      { m with store := m.store.opened bindings } (r, m')) :
    ∃ m₀, Evaluates H I scope e m (r, m₀) ∧
      (Interposition.opening m.store bindings scope False below).EndsBeside (r, m₀) (r, m') := by
  obtain ⟨n, hn⟩ := h
  have hrel := eval_beside H hm below hfree I n
  rw [show (eval H n I _ e).run _ = _ from hn] at hrel
  generalize hrun : (eval H n I scope e).run m = o at hrel
  cases hrel with
  | @some x _ h =>
    obtain ⟨r₀, m₀⟩ := x
    obtain rfl : r₀ = r := h.outcome
    exact ⟨m₀, ⟨n, hrun⟩, h⟩

/-- What it ends with without the frame is what it ends with in front of it. -/
theorem Evaluates.with_frame (h : Evaluates H I scope e m (r, m')) :
    ∃ m₀, Evaluates H I (scope.extended m.store.frames.size none) e
        { m with store := m.store.opened bindings } (r, m₀) ∧
      (Interposition.opening m.store bindings scope False below).EndsBeside (r, m') (r, m₀) := by
  obtain ⟨n, hn⟩ := h
  have hrel := eval_beside H hm below hfree I n
  rw [show (eval H n I scope e).run m = _ from hn] at hrel
  generalize hrun : (eval H n I (scope.extended m.store.frames.size none) e).run
    { m with store := m.store.opened bindings } = o at hrel
  cases hrel with
  | @some _ x h =>
    obtain ⟨r₀, m₀⟩ := x
    obtain rfl : r = r₀ := h.outcome
    exact ⟨m₀, ⟨n, hrun⟩, h⟩

end Beside

end CodeTree
