import CodeTree.Proofs.Description

/-!
# Captured trees stay as they are

A closure body uses a captured tree through a read that is converted out of the wrapper type. Where
a read of a tree of its own type stands, the described node holds that tree, and nothing in the tree
is touched. `Spliced` says so position by position: a node of the body gives way to the tree that it
reads, or it is kept with its children in place; conversions may go away and thunks are replaced by
what they describe.

Three positions are left out, since the tree is not put there or does not stay as it is:

* the target of an invocation that is described, which is kept as it is in the body;
* the receiver of a call to which an instance is bound, where no read is resolved;
* with an instance and a body that is no construction, call or invocation, trees that refer to a
  variable of the instance's type: the instance is put into the result, and so into them.

Main statement: `captured_trees_spliced`. The last of the three positions is real:
`captured_variable_replaced`.
-/

namespace CodeTree

variable {σ : Type}

/-! ## Reads of captured trees -/

namespace Expr

/-- The captured tree of the node's own type that it reads. -/
def splicedTree? (e : Expr) : Option Expr := e.capturedTree?.filter (·.ty == e.ty)

/-- The captured trees that a tree reads. -/
def splicedTrees (e : Expr) : List Expr := e.nodes.filterMap splicedTree?

/-- No captured tree is read in a tree. -/
def Silent (e : Expr) : Prop := ∀ n ∈ e.nodes, n.splicedTree? = none

theorem splicedTree?_eq_some {e tree : Expr} (h : e.splicedTree? = some tree) :
    e.capturedTree? = some tree ∧ (tree.ty == e.ty) = true := by
  obtain ⟨hread, hty⟩ := Option.filter_eq_some_iff.mp h
  exact ⟨hread, hty⟩

theorem silent_iff {e : Expr} : e.Silent ↔ e.splicedTree? = none ∧ ∀ a ∈ e.children, a.Silent := by
  constructor
  · intro h
    exact ⟨h e e.mem_nodes_self, fun a ha n hn => h n (mem_nodes_of_child ha hn)⟩
  · intro h n hn
    rcases mem_nodes.mp hn with rfl | ⟨a, ha, hn⟩
    · exact h.1
    · exact h.2 a ha n hn

end Expr

/-- A read through a capture record gives the tree that was captured under its name. -/
theorem Captures.capturedTree?_node (c : Captures) {name : String} {tree : Expr}
    (h : c.members.lookup name = some (.node tree)) (ty : Ty) (next next' : Nat) :
    (((c.seal.run next).1.node name ty).run next').1.capturedTree? = some tree := by
  show (c.members.lookup name).bind Value.asNode? = some tree
  rw [h]
  rfl

/-! ## Trees in their places -/

/-- What a node of a closure body becomes, given what its children become (`N`) and which nodes
thunks describe (`D`). -/
inductive SplicedBy (N D : Expr → Expr → Prop) (e r : Expr) : Prop
  /-- The tree that is read takes the place of the read. -/
  | tree {n : Expr} (read : e.splicedTree? = some n) (result : r = n)
  /-- Nothing is said where no tree is read. -/
  | silent (silent : e.Silent)
  | kept (read : e.splicedTree? = none)
      (result : Shape.Like Eq (fun _ => N) e.shape r.shape)
  | converted {kind : ConvertKind} {operand u : Expr} (read : e.splicedTree? = none)
      (shape : e.shape = .convert kind operand) (operand : N operand u)
      (result : r = u ∨ r.shape = .convert .cast u)
  | thunk {body : Expr} (shape : e.shape = .lambda [] body) (result : D body r)

/-- The node that a closure with this body describes. -/
inductive SplicedBodyBy (N D : Expr → Expr → Prop) (e r : Expr) : Prop
  | construct {ctor : Ctor} {args args' : List Expr} (shape : e.shape = .construct ctor args)
      (args : List.Forall₂ N args args') (result : r.shape = .construct ctor args')
  | call {receiver receiver' : Option Expr} {method : Method} {args args' : List Expr}
      (shape : e.shape = .call receiver method args)
      (receiver : if method.isStatic then receiver' = none
        else Option.Rel (fun a b => ∃ u, N a u ∧ (b = u ∨ b.shape = .convert .cast u)) receiver
          receiver')
      (args : List.Forall₂ N args args') (result : r.shape = .call receiver' method args')
  | invoke {target target' : Expr} {args args' : List Expr} (shape : e.shape = .invoke target args)
      (args : List.Forall₂ N args args') (result : r.shape = .invoke target' args')
  | other (shape : e.isDescribed = false) (result : SplicedBy N D e r)

/-- Relations that hold only where a step gives them again. -/
structure Splicing (N D : Expr → Expr → Prop) : Prop where
  node : ∀ e r, N e r → SplicedBy N D e r
  body : ∀ e r, D e r → SplicedBodyBy N D e r

/-- A node with all captured trees in their places. -/
def Spliced (e r : Expr) : Prop := ∃ N D, Splicing N D ∧ N e r

/-- What a closure body describes, with all captured trees in their places. -/
def SplicedBody (e r : Expr) : Prop := ∃ N D, Splicing N D ∧ D e r

/-- The node that a closure body describes for an instance or none: with an instance, the receiver
of a call is left open. -/
def SplicedFor (instance? : Option Expr) (body r : Expr) : Prop :=
  match instance?, body.shape with
  | some _, .call _ method args =>
    ∃ receiver' args', r.shape = .call receiver' method args' ∧ List.Forall₂ Spliced args args'
  | _, _ => SplicedBody body r

/-! ## Trees without reads -/

namespace Expr

/-- What a closed tree reads is no tree. -/
theorem silent_of_isClosed {e : Expr} (h : e.isClosed) : e.Silent := by
  have hplain : e.someNode (·.ty.isNode) = false := by
    rw [isClosed, Bool.and_eq_true, Bool.not_eq_true'] at h
    exact h.2
  clear h
  induction e using Expr.induction with
  | step e ih =>
    refine silent_iff.mpr ⟨?_, fun a ha => ih a ha (someNode_child hplain ha)⟩
    refine Option.eq_none_iff_forall_ne_some.mpr fun tree htree => ?_
    obtain ⟨kind, operand, _, _, hshape, hnode, _⟩ :=
      capturedTree?_eq_some (splicedTree?_eq_some htree).1
    have hmem : operand ∈ e.children := (mem_children hshape).mpr List.mem_cons_self
    have hoperand := someNode_self (someNode_child hplain hmem)
    rw [hnode] at hoperand
    cases hoperand

/-- A read on a constant reads no tree below. -/
theorem silent_of_constant {e target : Expr} {read : Member}
    (hshape : e.shape = .member (some target) read) (h : target.asConstant?.isSome) : e.Silent := by
  obtain ⟨v, htarget⟩ := Option.isSome_iff_exists.mp h
  replace htarget := shape_of_asConstant? htarget
  refine silent_iff.mpr ⟨by rw [splicedTree?, capturedTree?, hshape]; rfl, fun a ha => ?_⟩
  obtain rfl : a = target := List.mem_singleton.mp ((mem_children hshape).mp ha)
  refine silent_iff.mpr ⟨by rw [splicedTree?, capturedTree?, htarget]; rfl, fun b hb => ?_⟩
  cases (mem_children htarget).mp hb

/-- A variable reads no tree. -/
theorem silent_of_parameter {e : Expr} {p : Param} (h : e.asParameter? = some p) : e.Silent := by
  have hshape := shape_of_asParameter? h
  refine silent_iff.mpr ⟨by rw [splicedTree?, capturedTree?, hshape]; rfl, fun a ha => ?_⟩
  cases (mem_children hshape).mp ha

/-- Putting trees into another one removes no read. -/
theorem Substituted.silent {pool : List Expr} (a : Expr) : ∀ {bound : List Param} {b : Expr},
    a.Substituted pool bound b → b.Silent → a.Silent := by
  induction a using Expr.induction with
  | step a ih =>
    intro bound b h hb
    cases ha : a.asParameter? with
    | some p => exact silent_of_parameter ha
    | none =>
      cases hread : a.splicedTree? with
      | some tree =>
        rw [h.eq_of_capturedTree? (splicedTree?_eq_some hread).1] at hb
        exact hb
      | none =>
        rw [substituted_of_none ha] at h
        refine silent_iff.mpr ⟨hread, fun c hc => ?_⟩
        obtain ⟨d, hd, hcd⟩ := exists_right_of_forall₂ h.shape.children c hc
        exact ih c hc hcd ((silent_iff.mp hb).2 d hd)

end Expr

/-! ## Trees stay in their places -/

section Steps

variable {A : Value → Prop} {options : Normalization} {pool : List Expr}

theorem Expr.isDescribed_of_parameter {e : Expr} {p : Param} (h : e.asParameter? = some p) :
    e.isDescribed = false := by
  rw [isDescribed, shape_of_asParameter? h]

theorem Expr.Resembles.isDescribed {e r : Expr} (h : e.Resembles r) :
    r.isDescribed = e.isDescribed := by
  obtain ⟨id, s, ty⟩ := e
  obtain ⟨id', t, ty'⟩ := r
  cases h.shape <;> rfl

theorem ResolvesBy.eq_of_splicedTree? {e r tree : Expr}
    (h : ResolvesBy A options (Resolves A options) (Describes A options) e r)
    (hread : e.splicedTree? = some tree) : r = tree := by
  obtain ⟨hread, hty⟩ := Expr.splicedTree?_eq_some hread
  have hunwrapped := h.of_capturedTree? (fun _ _ => Resolves.dest) hread
  rwa [Expr.UnwrappedTo, Expr.UpcastTo, if_pos hty, ite_self] at hunwrapped

/-- What a node becomes when trees are put into it before it is normalized. -/
def BoundNormal (A : Value → Prop) (options : Normalization) (pool : List Expr) (a r : Expr) : Prop :=
  ∃ b bound, a.Substituted pool bound b ∧ Resolves A options b r

/-- What a body describes when trees are put into it before. -/
def BoundBody (A : Value → Prop) (options : Normalization) (pool : List Expr) (a r : Expr) : Prop :=
  ∃ b bound, a.Substituted pool bound b ∧ Describes A options b r

theorem SplicedBy.of_bound {a b r : Expr} {bound : List Param} (hsub : a.Substituted pool bound b)
    (h : ResolvesBy A options (Resolves A options) (Describes A options) b r) :
    SplicedBy (BoundNormal A options pool) (BoundBody A options pool) a r := by
  cases ha : a.asParameter? with
  | some p => exact .silent (Expr.silent_of_parameter ha)
  | none =>
    have hkeeps := (Expr.substituted_of_none ha bound b).mp hsub
    cases hread : a.splicedTree? with
    | some tree =>
      have hsame : b = a := hsub.eq_of_capturedTree? (Expr.splicedTree?_eq_some hread).1
      exact .tree hread ((hsame ▸ h).eq_of_splicedTree? hread)
    | none =>
      cases h with
      | answered folds shape closed answer result =>
        exact .silent (hsub.silent a (Expr.silent_of_isClosed closed))
      | captured shape kind found result =>
        exact .silent (hsub.silent a (Expr.silent_of_constant shape (Expr.isSome_of_field? found)))
      | read shape unknown constant answer result =>
        exact .silent (hsub.silent a (Expr.silent_of_constant shape constant))
      | unwrapped shape node operand result =>
        obtain ⟨c, hshape, hc⟩ := (shape ▸ hkeeps.shape).of_convert
        exact .converted hread hshape ⟨_, _, hc, operand⟩ result.cases
      | wrapped shape plain node result =>
        obtain ⟨c, hshape, hc⟩ := (shape ▸ hkeeps.shape).of_convert
        exact .converted hread hshape ⟨_, _, hc, result⟩ (.inl rfl)
      | thunk flattens shape result =>
        obtain ⟨c, hshape, hc⟩ := (shape ▸ hkeeps.shape).of_lambda
        exact .thunk hshape ⟨_, _, hc, result⟩
      | kept unresolved result =>
        refine .kept hread ((hkeeps.shape.comp result.shape).imp (fun _ _ h => h) fun _ c r h => ?_)
        obtain ⟨d, hcd, hdr⟩ := h
        exact ⟨d, _, hcd, hdr⟩

theorem SplicedBodyBy.of_bound {a b r : Expr} {bound : List Param}
    (hsub : a.Substituted pool bound b)
    (h : DescribesBy A options (Resolves A options) (Describes A options) b r) :
    SplicedBodyBy (BoundNormal A options pool) (BoundBody A options pool) a r := by
  have hargs : ∀ {as bs cs : List Expr} {bound},
      List.Forall₂ (fun a b => a.Substituted pool bound b) as bs →
      List.Forall₂ (Resolves A options) bs cs → List.Forall₂ (BoundNormal A options pool) as cs :=
    fun h h' => (forall₂_comp h h').imp fun _ _ ⟨b, hab, hbc⟩ => ⟨b, _, hab, hbc⟩
  cases ha : a.asParameter? with
  | some p => exact .other (Expr.isDescribed_of_parameter ha) (.silent (Expr.silent_of_parameter ha))
  | none =>
    have hkeeps := (Expr.substituted_of_none ha bound b).mp hsub
    cases h with
    | construct shape args result ty =>
      obtain ⟨as, hshape, has⟩ := (shape ▸ hkeeps.shape).of_construct
      exact .construct hshape (hargs has args) result
    | call shape receiver args result =>
      obtain ⟨o, as, hshape, ho, has⟩ := (shape ▸ hkeeps.shape).of_call
      obtain ⟨-, receiver', hresult, hreceiver'⟩ := result
      refine .call hshape ?_ (hargs has args) hresult
      split
      next hstatic => rwa [if_pos hstatic] at hreceiver'
      next hinstance =>
        rw [if_neg hinstance] at hreceiver'
        refine optionRel_imp ?_ (optionRel_comp (optionRel_comp ho receiver) hreceiver')
        rintro c d ⟨u, ⟨b', hcb, hbu⟩, hud⟩
        exact ⟨u, ⟨b', _, hcb, hbu⟩, hud.cases⟩
    | invoke shape args result ty =>
      obtain ⟨_, as, hshape, -, has⟩ := (shape ▸ hkeeps.shape).of_invoke
      exact .invoke hshape (hargs has args) result
    | other shape result =>
      exact .other (hkeeps.resembles.isDescribed ▸ shape) (.of_bound hsub result)

/-- Trees that are put in before normalization leave captured trees alone. -/
theorem splicing_bound : Splicing (BoundNormal A options pool) (BoundBody A options pool) where
  node := fun _ _ ⟨_, _, hsub, h⟩ => .of_bound hsub h.dest
  body := fun _ _ ⟨_, _, hsub, h⟩ => .of_bound hsub h.dest

/-- The captured trees that a tree reads refer to no variable that the pool replaces. -/
def Expr.Undisturbed (pool : List Expr) (e : Expr) : Prop :=
  ∀ tree ∈ e.splicedTrees, ∀ p, tree.Refers p [] → Expr.Spared pool p

theorem Expr.Undisturbed.child {e a : Expr} (h : e.Undisturbed pool) (ha : a ∈ e.children) :
    a.Undisturbed pool := by
  intro tree htree
  obtain ⟨n, hn, hread⟩ := List.mem_filterMap.mp htree
  exact h tree (List.mem_filterMap.mpr ⟨n, mem_nodes_of_child ha hn, hread⟩)

/-- What a node becomes when trees are put into it after it is normalized. -/
def NormalBound (A : Value → Prop) (options : Normalization) (pool : List Expr) (a r : Expr) : Prop :=
  a.Undisturbed pool ∧ ∃ e bound, Resolves A options a e ∧ e.Substituted pool bound r

/-- What a body describes when trees are put into the description. -/
def BodyBound (A : Value → Prop) (options : Normalization) (pool : List Expr) (a r : Expr) : Prop :=
  a.Undisturbed pool ∧ ∃ e bound, Describes A options a e ∧ e.Substituted pool bound r

/-- Trees are put into a conversion by way of its operand. -/
theorem Expr.Substituted.of_converted {u b c : Expr} {bound : List Param}
    (hb : b = u ∨ b.shape = .convert .cast u) (h : b.Substituted pool bound c) :
    ∃ u' bound', u.Substituted pool bound' u' ∧ (c = u' ∨ c.shape = .convert .cast u') := by
  rcases hb with rfl | hshape
  · exact ⟨c, bound, h, .inl rfl⟩
  · rw [substituted_of_none (by rw [asParameter?, hshape])] at h
    obtain ⟨u', hc, hu⟩ := (hshape ▸ h.shape).to_convert
    exact ⟨u', _, hu, .inr hc⟩

theorem SplicedBy.of_normal {a e r : Expr} {bound : List Param} (hspared : a.Undisturbed pool)
    (h : ResolvesBy A options (Resolves A options) (Describes A options) a e)
    (hsub : e.Substituted pool bound r) :
    SplicedBy (NormalBound A options pool) (BodyBound A options pool) a r := by
  cases hread : a.splicedTree? with
  | some tree =>
    -- the tree is there after normalization, and has nothing to replace in it
    obtain rfl := h.eq_of_splicedTree? hread
    have hmem : e ∈ a.splicedTrees := List.mem_filterMap.mpr ⟨a, a.mem_nodes_self, hread⟩
    refine .tree hread (hsub.eq e fun p hp => hspared e hmem p ?_)
    exact Expr.Refers.of_subset e (fun _ h => nomatch h) hp
  | none =>
    cases h with
    | answered folds shape closed answer result => exact .silent (Expr.silent_of_isClosed closed)
    | captured shape kind found result =>
      exact .silent (Expr.silent_of_constant shape (Expr.isSome_of_field? found))
    | read shape unknown constant answer result =>
      exact .silent (Expr.silent_of_constant shape constant)
    | unwrapped shape node operand result =>
      obtain ⟨u', bound', hu, hr⟩ := hsub.of_converted result.cases
      have hmem := (Expr.mem_children shape).mpr List.mem_cons_self
      exact .converted hread shape ⟨hspared.child hmem, _, bound', operand, hu⟩ hr
    | wrapped shape plain node result =>
      have hmem := (Expr.mem_children shape).mpr List.mem_cons_self
      exact .converted hread shape ⟨hspared.child hmem, e, bound, result, hsub⟩ (.inl rfl)
    | thunk flattens shape result =>
      have hmem := (Expr.mem_children shape).mpr List.mem_cons_self
      exact .thunk shape ⟨hspared.child hmem, e, bound, result, hsub⟩
    | kept unresolved result =>
      cases ha : a.asParameter? with
      | some p => exact .silent (Expr.silent_of_parameter ha)
      | none =>
        have he : e.asParameter? = none := result.resembles.asParameter?.trans ha
        have hkeeps := (Expr.substituted_of_none he bound r).mp hsub
        refine .kept hread ((result.shape.with_mem.comp hkeeps.shape).imp (fun _ _ h => h) ?_)
        rintro - c d ⟨u, ⟨hc, hcu⟩, hud⟩
        exact ⟨hspared.child hc, u, _, hcu, hud⟩

theorem SplicedBodyBy.of_normal {a e r : Expr} {bound : List Param} (hspared : a.Undisturbed pool)
    (h : DescribesBy A options (Resolves A options) (Describes A options) a e)
    (hsub : e.Substituted pool bound r) :
    SplicedBodyBy (NormalBound A options pool) (BodyBound A options pool) a r := by
  have hargs : ∀ {as bs cs : List Expr} {bound}, (∀ c ∈ as, c ∈ a.children) →
      List.Forall₂ (Resolves A options) as bs →
      List.Forall₂ (fun a b => a.Substituted pool bound b) bs cs →
      List.Forall₂ (NormalBound A options pool) as cs := by
    intro as bs cs bound hmem h h'
    refine (forall₂_comp ((List.forall₂_and_left as bs).mpr ⟨hmem, h⟩) h').imp ?_
    rintro c d ⟨u, ⟨hc, hcu⟩, hud⟩
    exact ⟨hspared.child hc, u, bound, hcu, hud⟩
  cases h with
  | construct shape args result ty =>
    rw [Expr.substituted_of_none (by rw [Expr.asParameter?, result])] at hsub
    obtain ⟨bs, hr, hbs⟩ := (result ▸ hsub.shape).to_construct
    exact .construct shape (hargs (fun c => (Expr.mem_children shape).mpr) args hbs) hr
  | call shape receiver args result =>
    obtain ⟨-, receiver', hresult, hreceiver'⟩ := result
    rw [Expr.substituted_of_none (by rw [Expr.asParameter?, hresult])] at hsub
    obtain ⟨o, bs, hr, ho, hbs⟩ := (hresult ▸ hsub.shape).to_call
    have hmem : ∀ c, c ∈ _ ++ _ → c ∈ a.children := fun c => (Expr.mem_children shape).mpr
    refine .call shape ?_ (hargs (fun c hc => hmem c (List.mem_append_right _ hc)) args hbs) hr
    split
    next hstatic =>
      rw [if_pos hstatic] at hreceiver'
      subst hreceiver'
      cases ho
      rfl
    next hinstance =>
      rw [if_neg hinstance] at hreceiver'
      cases receiver with
      | none =>
        cases hreceiver'
        cases ho
        exact .none
      | some hreceiver =>
        cases hreceiver' with
        | some hupcast =>
          cases ho with
          | some ho =>
            obtain ⟨u', bound', hu, hd⟩ := ho.of_converted hupcast.cases
            have hc := hmem _ (List.mem_append_left _ List.mem_cons_self)
            exact .some ⟨u', ⟨hspared.child hc, _, bound', hreceiver, hu⟩, hd⟩
  | invoke shape args result ty =>
    rw [Expr.substituted_of_none (by rw [Expr.asParameter?, result])] at hsub
    obtain ⟨_, bs, hr, -, hbs⟩ := (result ▸ hsub.shape).to_invoke
    have hmem : ∀ c, c ∈ _ :: _ → c ∈ a.children := fun c => (Expr.mem_children shape).mpr
    exact .invoke shape (hargs (fun c hc => hmem c (List.mem_cons_of_mem _ hc)) args hbs) hr
  | other shape result => exact .other shape (.of_normal hspared result hsub)

/-- Trees that are put in after normalization leave captured trees alone that have nothing to
replace in them. -/
theorem splicing_normal : Splicing (NormalBound A options pool) (BodyBound A options pool) where
  node := fun _ _ ⟨hspared, _, _, h, hsub⟩ => .of_normal hspared h.dest hsub
  body := fun _ _ ⟨hspared, _, _, h, hsub⟩ => .of_normal hspared h.dest hsub

end Steps

/-! ## Closures -/

theorem SplicedFor.of_body {instance? : Option Expr} {body r : Expr}
    (hshape : ∀ receiver method args, body.shape ≠ .call receiver method args)
    (h : SplicedBody body r) : SplicedFor instance? body r := by
  unfold SplicedFor
  split
  next hcall => exact absurd hcall (hshape _ _ _)
  next => exact h

/-- A body describes a node in which the captured trees are in their places. -/
theorem SplicedBody.of_describes {A : Value → Prop} {options : Normalization} {body r : Expr}
    (h : Describes A options body r) : SplicedBody body r := by
  have hself : body.Substituted [] [] body := .self body fun p _ tree hfound => by cases hfound
  exact ⟨_, _, splicing_bound, body, [], hself, h⟩

/-- Captured trees stay as they are. Whatever host code answers, and whatever the shape of the
closure body is, the node that the closure describes holds each captured tree where it is read
(see `SplicedFor` for the positions). Where an instance is bound to a body that is no construction,
call or invocation, this takes that no variable in those trees has the type of the instance, unless
the instance is a reference to that very variable. -/
theorem captured_trees_spliced {L : Ledger σ} {H : Host σ} {fuel : Nat} {options : Normalization}
    {S : Set Expr} {m m' : Machine σ} {instance? : Option Expr} {closure r : Expr}
    (h : L.Starts H fuel (fun _ => True) S m instance? closure)
    (hspared : closure.closureBody.isDescribed = false → ∀ self ∈ instance?,
      ∀ tree ∈ closure.closureBody.splicedTrees, ∀ p, tree.Refers p [] → self.ty == p.ty →
      self.asParameter? == some p)
    (hrun : describedClosure H fuel options closure instance? m = some (r, m') ∨
      ∃ self access, instance? = some self ∧
        describedMember H fuel options self closure access m = some (.ok r, m')) :
    SplicedFor instance? closure.closureBody r := by
  have hdescribes : DescribesFor (fun _ => True) options instance? closure.closureBody r := by
    rcases hrun with hrun | ⟨self, access, rfl, hrun⟩
    · exact h.describes hrun
    · exact h.describesMember hrun
  cases instance? with
  | none =>
    have hbody : SplicedBody closure.closureBody r := .of_describes hdescribes
    unfold SplicedFor
    exact hbody
  | some self =>
    cases hdescribes with
    | described top result =>
      refine .of_body (fun receiver method args hcall => ?_) (.of_describes result)
      rcases top with ⟨ctor, args, hshape⟩ | ⟨target, args, hshape⟩ <;> cases hcall.symm.trans hshape
    | call shape receiver args result =>
      obtain ⟨-, receiver', hresult, -⟩ := result
      unfold SplicedFor
      rw [shape]
      refine ⟨receiver', _, hresult, args.imp fun a b hab => ?_⟩
      obtain ⟨bound, hsub, hnormal⟩ := hab
      exact ⟨_, _, splicing_bound, bound, [], hsub, hnormal⟩
    | other shape normal result =>
      have hundisturbed : closure.closureBody.Undisturbed [self] := fun tree htree p hp =>
        Expr.spared_singleton (hspared shape self rfl tree htree p hp)
      refine .of_body (fun receiver method args hcall => ?_) ⟨_, _, splicing_normal, hundisturbed,
        _, [], .fold (.other shape normal.dest), result⟩
      rw [Expr.isDescribed, hcall] at shape
      cases shape

namespace Sample

theorem adding_starts :
    (Ledger.plain Unit).Starts mute 1 (fun _ => True) (nodesOf [adding floored, seven, floored])
      (shelf 13) (some seven) (adding floored) where
  holds := coherent_nodesOf (by decide) (by decide)
  tree := by
    refine within_nodesOf List.mem_cons_self fun tree htree => ?_
    obtain rfl : tree = floored := List.mem_singleton.mp htree
    exact .tail _ (.tail _ List.mem_cons_self)
  self := by
    rintro _ ⟨⟩
    exact within_nodesOf (.tail _ List.mem_cons_self) fun _ h => nomatch h
  answers := by
    rintro _ rfl
    exact .of_asksHost _ rfl

end Sample

/-- The tree is in its place, beside the instance. -/
theorem adding_spliced :
    describedClosure Sample.mute 1 {} (Sample.adding Sample.floored) (some Sample.seven)
        (Sample.shelf 13) =
      some (.mk 14 (.binary .add Sample.seven Sample.floored) .int, Sample.shelf 15) ∧
    SplicedFor (some Sample.seven) (Sample.adding Sample.floored).closureBody
      (.mk 14 (.binary .add Sample.seven Sample.floored) .int) := by
  have hrun : describedClosure Sample.mute 1 {} (Sample.adding Sample.floored) (some Sample.seven)
      (Sample.shelf 13) =
        some (.mk 14 (.binary .add Sample.seven Sample.floored) .int, Sample.shelf 15) := rfl
  refine ⟨hrun, captured_trees_spliced Sample.adding_starts ?_ (.inl hrun)⟩
  rintro - _ ⟨⟩ tree htree p hp hty
  obtain rfl : tree = Sample.floored := List.mem_singleton.mp htree
  -- the one variable in the tree is a `float`
  obtain ⟨a, ha, hp⟩ := (Expr.refers_of_none (e := Sample.floored) rfl []).mp hp
  obtain rfl : a = Sample.outer .float := List.mem_singleton.mp ha
  obtain ⟨rfl, -⟩ := (Expr.refers_of_some (e := Sample.outer .float) rfl _).mp hp
  cases hty

/-- A variable of the instance's type in a captured tree is replaced: the closure reads `y`, and
describes `7 + 7`. -/
theorem captured_variable_replaced :
    (Sample.heldUse (Sample.outer .int)).splicedTree? = some (Sample.outer .int) ∧
    describedClosure Sample.mute 1 {} (Sample.adding (Sample.outer .int)) (some Sample.seven)
        (Sample.shelf 12) =
      some (.mk 13 (.binary .add Sample.seven Sample.seven) .int, Sample.shelf 14) ∧
    ¬SplicedFor (some Sample.seven) (Sample.adding (Sample.outer .int)).closureBody
      (.mk 13 (.binary .add Sample.seven Sample.seven) .int) := by
  have hread : (Sample.heldUse (Sample.outer .int)).splicedTree? = some (Sample.outer .int) := rfl
  refine ⟨hread, rfl, ?_⟩
  rintro ⟨N, D, hstep, hbody⟩
  -- the use of the tree would have become the instance
  have huse : ¬N (Sample.heldUse (Sample.outer .int)) Sample.seven := by
    intro h
    cases hstep.node _ _ h with
    | tree read result =>
      cases hread.symm.trans read
      cases result
    | silent silent => cases hread.symm.trans (silent _ (Expr.mem_nodes_self _))
    | kept read => cases hread.symm.trans read
    | converted read => cases hread.symm.trans read
    | thunk shape => cases shape
  cases hstep.body _ _ hbody with
  | construct shape | call shape | invoke shape => cases shape
  | other _ result =>
    cases result with
    | tree read => cases read
    | silent silent =>
      cases hread.symm.trans ((Expr.silent_iff.mp silent).2 _ (.tail _ List.mem_cons_self) _
        (Expr.mem_nodes_self _))
    | kept _ result =>
      cases result with
      | binary _ _ huse' => exact huse huse'
    | converted _ shape | thunk shape => cases shape

end CodeTree
