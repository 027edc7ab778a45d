import CodeTree.Capture
import CodeTree.Proofs.Resolution
import Mathlib.Data.List.Nodup

/-!
# What a closure describes

`DescribesFor` says which node a closure body describes when an instance is bound to its
parameter, or none:

* without an instance, and for a construction or an invocation, the node that the body describes
  by itself;
* for a call, the instance is put into the receiver and the arguments, and the arguments are
  normalized after that;
* anything else is normalized first, and the instance is put into the result.

Main statements: `Ledger.Starts.describes` and `Ledger.Starts.describesMember`.
-/

namespace CodeTree

variable {σ : Type}

theorem Expr.Resembles.asConstant? {e r : Expr} (h : e.Resembles r) :
    r.asConstant? = e.asConstant? := by
  obtain ⟨id, s, ty⟩ := e
  obtain ⟨id', t, ty'⟩ := r
  cases h.shape with
  | constant value => exact congrArg some value.symm
  | _ => rfl

theorem Expr.Resembles.members {e r : Expr} (h : e.Resembles r) : r.members = e.members := by
  rw [Expr.members, Expr.members, h.asConstant?]

/-- The records of a tree with another one put into it are records of the two. -/
theorem Expr.Substituted.capturedTrees {pool : List Expr} {e r tree : Expr} {bound : List Param}
    (h : e.Substituted pool bound r) (htree : tree ∈ r.capturedTrees) :
    (∃ t ∈ pool, tree ∈ t.capturedTrees) ∨ tree ∈ e.capturedTrees := by
  obtain ⟨n, hn, htree⟩ := List.mem_flatMap.mp htree
  rcases h.nodes e n hn with ⟨t, ht, hn⟩ | ⟨n₀, hn₀, hlike⟩
  · exact .inl ⟨t, ht, List.mem_flatMap.mpr ⟨n, hn, htree⟩⟩
  · rw [Expr.heldTrees, hlike.members] at htree
    exact .inr (List.mem_flatMap.mpr ⟨n₀, hn₀, htree⟩)

/-- A tree with another one put into it exists, and so do the trees that its records hold. -/
theorem Expr.Substituted.within {S : Set Expr} {next : Nat} (hS : Coherent S next)
    {pool : List Expr} (hpool : ∀ t ∈ pool, t.Within S) {e r : Expr} {bound : List Param}
    (he : e.Within S) (h : e.Substituted pool bound r) (hr : r ∈ S) : r.Within S := by
  refine ⟨hS.nodes_mem r hr, fun tree htree => ?_⟩
  rcases h.capturedTrees htree with ⟨t, ht, htree⟩ | htree
  · exact (hpool t ht).captured tree htree
  · exact he.captured tree htree

/-! ## Reads of captured trees -/

namespace Expr

/-- The captured tree that a node reads and takes out of its wrapper. -/
def capturedTree? (e : Expr) : Option Expr :=
  match e.shape with
  | .convert _ operand =>
    match operand.ty, operand.shape with
    | .node _, .member (some target) ⟨name, _, _, .field⟩ => (target.field? name).bind Value.asNode?
    | _, _ => none
  | _ => none

theorem capturedTree?_eq_some {e tree : Expr} (h : e.capturedTree? = some tree) :
    ∃ kind operand target read, e.shape = .convert kind operand ∧ operand.ty.isNode ∧
      operand.shape = .member (some target) read ∧ read.kind = .field ∧
      target.field? read.name = some (.node tree) := by
  unfold capturedTree? at h
  split at h
  next kind operand hshape =>
    split at h
    next inner target name declaring ty hty hoperand =>
      obtain ⟨v, hfield, hv⟩ := Option.bind_eq_some_iff.mp h
      rw [Value.asNode?_eq_some hv] at hfield
      exact ⟨kind, operand, target, _, hshape, by rw [hty]; rfl, hoperand, rfl, hfield⟩
    next => cases h
  next => cases h

theorem shape_of_asConstant? {e : Expr} {v : Value} (h : e.asConstant? = some v) :
    e.shape = .constant v := by
  unfold asConstant? at h
  split at h
  next w hshape =>
    cases h
    exact hshape
  next => cases h

theorem isSome_of_field? {e : Expr} {name : String} {v : Value} (h : e.field? name = some v) :
    e.asConstant?.isSome := by
  rw [field?, members] at h
  split at h
  next hconstant => rw [hconstant]; rfl
  next => cases h

/-- A read of a captured tree has no variables in it. -/
theorem not_refers_of_capturedTree? {e tree : Expr} (h : e.capturedTree? = some tree) (p : Param)
    (bound : List Param) : ¬e.Refers p bound := by
  obtain ⟨kind, operand, target, read, hshape, -, hoperand, -, hfield⟩ := capturedTree?_eq_some h
  obtain ⟨v, htarget⟩ := Option.isSome_iff_exists.mp (isSome_of_field? hfield)
  replace htarget := shape_of_asConstant? htarget
  rw [refers_of_none (by rw [asParameter?, hshape])]
  simp only [children, hshape, Shape.children, List.mem_singleton, exists_eq_left]
  rw [refers_of_none (by rw [asParameter?, hoperand])]
  simp only [children, hoperand, Shape.children, Option.toList, List.mem_singleton, exists_eq_left]
  rw [refers_of_none (by rw [asParameter?, htarget])]
  simp only [children, htarget, Shape.children, List.not_mem_nil, false_and, exists_false,
    not_false_eq_true]

/-- A read of a captured tree stays when trees are put in. -/
theorem Substituted.eq_of_capturedTree? {pool : List Expr} {e r tree : Expr} {bound : List Param}
    (h : e.Substituted pool bound r) (hread : e.capturedTree? = some tree) : r = e :=
  h.eq e fun p hp => absurd hp (not_refers_of_capturedTree? hread p bound)

theorem UpcastTo.cases {ty : Ty} {u r : Expr} (h : u.UpcastTo ty r) :
    r = u ∨ r.shape = .convert .cast u := by
  unfold UpcastTo at h
  split at h
  · exact .inl h
  · exact .inr h.1

theorem UnwrappedTo.cases {ty : Ty} {u r : Expr} (h : u.UnwrappedTo ty r) :
    r = u ∨ r.shape = .convert .cast u := by
  unfold UnwrappedTo at h
  split at h
  · exact .inl h
  · exact UpcastTo.cases h

end Expr

section Captured

variable {A : Value → Prop} {options : Normalization} {N D : Expr → Expr → Prop} {e r tree : Expr}

/-- A read of a record that holds a tree gives the tree. -/
theorem ResolvesBy.of_field {target : Expr} {read : Member}
    (hshape : e.shape = .member (some target) read) (hkind : read.kind = .field)
    (hfield : target.field? read.name = some (.node tree)) (h : ResolvesBy A options N D e r) :
    r = tree := by
  cases h with
  | captured shape kind found result =>
    cases hshape.symm.trans shape
    cases hfield.symm.trans found
    exact result
  | read shape unknown =>
    cases hshape.symm.trans shape
    cases hfield.symm.trans unknown
  | kept unresolved =>
    rw [Expr.isResolvable, hshape] at unresolved
    simp [hkind, hfield] at unresolved
  | answered _ shape | unwrapped shape | wrapped shape | thunk _ shape =>
    cases hshape.symm.trans shape

/-- A captured tree is taken out of its wrapper where it is read. -/
theorem ResolvesBy.of_capturedTree? (hN : ∀ a b, N a b → ResolvesBy A options N D a b)
    (hread : e.capturedTree? = some tree) (h : ResolvesBy A options N D e r) :
    tree.UnwrappedTo e.ty r := by
  obtain ⟨kind, operand, target, read, hshape, hnode, hoperand, hkind, hfield⟩ :=
    Expr.capturedTree?_eq_some hread
  cases h with
  | unwrapped shape node inner result =>
    cases hshape.symm.trans shape
    rw [(hN _ _ inner).of_field hoperand hkind hfield] at result
    exact result
  | wrapped shape plain =>
    cases hshape.symm.trans shape
    rw [hnode] at plain
    cases plain
  | kept unresolved =>
    rw [Expr.isResolvable, hshape] at unresolved
    simp [hnode] at unresolved
  | answered _ shape | captured shape | read shape | thunk _ shape =>
    cases hshape.symm.trans shape

end Captured

/-! ## Binding an instance -/

section Relations

variable (A : Value → Prop) (options : Normalization)

/-- The node that a closure body describes with an instance in the place of its parameter. -/
inductive BindsTo (self body r : Expr) : Prop
  | described (top : (∃ ctor args, body.shape = .construct ctor args) ∨
        ∃ target args, body.shape = .invoke target args) (result : Describes A options body r)
  | call {receiver receiver' : Option Expr} {method : Method} {args args' : List Expr}
      (shape : body.shape = .call receiver method args)
      (receiver : Option.Rel (fun a b => a.Substituted [self] [] b) receiver receiver')
      (args : List.Forall₂ (fun a b => ∃ bound, a.Substituted [self] [] bound ∧
        Resolves A options bound b) args args')
      (result : Expr.SettledAs receiver' method args' r)
  | other {e : Expr} (shape : body.isDescribed = false) (normal : Resolves A options body e)
      (result : e.Substituted [self] [] r)

/-- The node that a closure body describes, with an instance or without. -/
def DescribesFor (instance? : Option Expr) (body r : Expr) : Prop :=
  match instance? with
  | none => Describes A options body r
  | some self => BindsTo A options self body r

end Relations

/-- The trees that are normalized on the way: the arguments of a call once the instance is in them,
else the body. -/
def NormalizedFor (instance? : Option Expr) (body e : Expr) : Prop :=
  match instance?, body.shape with
  | some self, .call _ _ args => ∃ a ∈ args, a.Substituted [self] [] e
  | _, _ => e = body

theorem Expr.Within.closureBody {S : Set Expr} {closure : Expr} (h : closure.Within S) :
    closure.closureBody.Within S := by
  obtain ⟨id, s, ty⟩ := closure
  cases s with
  | lambda params body => exact h.child List.mem_cons_self
  | _ => exact h

/-- A closure that passes the check for a member read has one for its body. -/
theorem MemberAccess.shape_of_check {access : MemberAccess} {closure : Expr}
    (h : access.check closure = .ok ()) :
    ∃ target read, closure.closureBody.shape = .member target read := by
  unfold check at h
  split at h
  next target read hshape => exact ⟨target, read, hshape⟩
  next => cases h

namespace Ledger

variable {L : Ledger σ} {H : Host σ} {fuel : Nat} {A : Value → Prop} {options : Normalization}
  {S : Set Expr}

theorem Gives.coherently {α : Type} {Q : Set Expr → α → Prop} {x : Step σ α}
    (h : ∀ next, Coherent S next → L.Gives S Q x) : L.Gives S Q x :=
  fun k a k' hk hx => h k.next (L.coherent hk) k a k' hk hx

theorem normalize_gives {e : Expr} (he : e.Within S) (hH : L.Answers H fuel A e) :
    L.Gives S (fun S' r => r ∈ S' ∧ Resolves A options e r) (normalize H fuel options e) :=
  (analyse_gives e he hH).1

/-- An instance put into a tree. -/
theorem Gives.bound {self e : Expr} (hself : self ∈ S) (he : e ∈ S) :
    L.Gives S (fun S' r => r ∈ S' ∧ e.Substituted [self] [] r)
      (Step.make (e.replaceParameters [self])) :=
  make (Expr.replaceParameters_gives he (List.forall_mem_singleton.mpr hself))

/-- A tree that is normalized before an instance is put into it. -/
theorem Gives.normalThenBound {self e : Expr} (hself : self ∈ S) (he : e.Within S)
    (hH : L.Answers H fuel A e) :
    L.Gives S (fun S' r => r ∈ S' ∧ ∃ e', Resolves A options e e' ∧ e'.Substituted [self] [] r)
      (do
        let e' ← normalize H fuel options e
        Step.make (e'.replaceParameters [self])) :=
  bind (normalize_gives he hH) fun _ e' h₁ he' =>
    (bound (h₁ hself) he'.1).imp fun _ _ _ h => ⟨h.1, e', he'.2, h.2⟩

/-- A tree that is normalized with an instance in it. -/
theorem Gives.boundThenNormal {self e : Expr} (hself : self.Within S) (he : e.Within S)
    (hH : ∀ b, e.Substituted [self] [] b → L.Answers H fuel A b) :
    L.Gives S (fun S' r => r ∈ S' ∧ ∃ b, e.Substituted [self] [] b ∧ Resolves A options b r)
      (do
        let b ← Step.make (e.replaceParameters [self])
        normalize H fuel options b) := by
  refine bind (bound (hself.nodes self self.mem_nodes_self) (he.nodes e e.mem_nodes_self))
    fun S₁ b h₁ hb => coherently fun next hS => ?_
  have hpool : ∀ t ∈ [self], t.Within S₁ := List.forall_mem_singleton.mpr (hself.mono h₁)
  have hin : b.Within S₁ := hb.2.within hS hpool (he.mono h₁) hb.1
  exact (normalize_gives hin (hH b hb.2)).imp fun _ _ _ h => ⟨h.1, b, hb.2, h.2⟩

/-- What a closure body describes, for an instance or none. -/
theorem describedCall_gives {body : Expr} {instance? : Option Expr} (hbody : body.Within S)
    (hself : ∀ self ∈ instance?, self.Within S)
    (hH : ∀ e, NormalizedFor instance? body e → L.Answers H fuel A e) :
    L.Gives S (fun S' r => r ∈ S' ∧ DescribesFor A options instance? body r)
      (describedCall H fuel options body instance?) := by
  cases instance? with
  | none => exact (analyse_gives body hbody (hH body rfl)).2
  | some self =>
    have hin := hself self rfl
    have hmem := hin.nodes self self.mem_nodes_self
    obtain ⟨id, s, ty⟩ := body
    cases s with
    | construct ctor args =>
      exact (analyse_gives _ hbody (hH _ rfl)).2.imp fun _ _ _ h =>
        ⟨h.1, .described (.inl ⟨ctor, args, rfl⟩) h.2⟩
    | invoke target args =>
      exact (analyse_gives _ hbody (hH _ rfl)).2.imp fun _ _ _ h =>
        ⟨h.1, .described (.inr ⟨target, args, rfl⟩) h.2⟩
    | call receiver method args =>
      have hchild : ∀ a ∈ receiver.toList ++ args, a.Within S := fun a ha => hbody.child ha
      refine Gives.bind (Gives.mapM_option fun a ha S' hS => Gives.bound (hS hmem)
        (hS ((hchild a (List.mem_append_left args ha)).nodes a a.mem_nodes_self)))
        fun S₁ receiver' h₁ hreceiver => ?_
      refine Gives.bind (Gives.mapM_list fun a ha S' hS =>
        Gives.boundThenNormal (hin.mono (h₁.trans hS))
          ((hchild a (List.mem_append_right _ ha)).mono (h₁.trans hS)) fun b hb => hH b ⟨a, ha, hb⟩)
        fun S₂ args' h₂ hargs => ?_
      have hmem₂ : ∀ a ∈ receiver', a ∈ S₂ := fun a ha => h₂ (hreceiver.1 a ha)
      refine (Gives.make (.settledCall hmem₂ method hargs.1)).imp fun _ r _ hr => ⟨hr.1, ?_⟩
      exact .call rfl hreceiver.2 hargs.2 hr.2
    | _ =>
      refine (Gives.normalThenBound hmem hbody (hH _ rfl)).imp fun _ _ _ h => ⟨h.1, ?_⟩
      obtain ⟨-, e', hnormal, hresult⟩ := h
      exact .other rfl hnormal hresult

/-- What describing a closure starts from: the closure and the instance exist, with the trees that
their records hold, and host code answers. -/
structure Starts (L : Ledger σ) (H : Host σ) (fuel : Nat) (A : Value → Prop) (S : Set Expr)
    (m : Machine σ) (instance? : Option Expr) (closure : Expr) : Prop where
  holds : L.Holds S m
  tree : closure.Within S
  self : ∀ self ∈ instance?, self.Within S
  answers : ∀ e, NormalizedFor instance? closure.closureBody e → L.Answers H fuel A e

variable {m m' : Machine σ} {instance? : Option Expr} {self closure r : Expr}

/-- What a closure describes. -/
theorem Starts.describes (h : L.Starts H fuel A S m instance? closure)
    (hrun : describedClosure H fuel options closure instance? m = some (r, m')) :
    DescribesFor A options instance? closure.closureBody r := by
  obtain ⟨S', -, -, -, hr⟩ :=
    describedCall_gives h.tree.closureBody h.self h.answers m r m' h.holds hrun
  exact hr

/-- What a closure that reads a member describes. -/
theorem Starts.describesMember (h : L.Starts H fuel A S m (some self) closure) {access : MemberAccess}
    (hrun : describedMember H fuel options self closure access m = some (.ok r, m')) :
    DescribesFor A options (some self) closure.closureBody r := by
  have hgives : L.Gives S
      (fun _ out => ∀ r, out = .ok r → DescribesFor A options (some self) closure.closureBody r)
      (describedMember H fuel options self closure access) := by
    unfold describedMember
    cases hcheck : access.check closure with
    | error error => exact .pure fun _ h => nomatch h
    | ok _ =>
      obtain ⟨target, read, hshape⟩ := access.shape_of_check hcheck
      have hself := h.self self rfl
      have hanswers : L.Answers H fuel A closure.closureBody := by
        refine h.answers _ ?_
        simp only [NormalizedFor, hshape]
      refine .bind (normalize_gives h.tree.closureBody hanswers) fun S₁ e h₁ he => ?_
      refine .bind (.bound (h₁ (hself.nodes self self.mem_nodes_self)) he.1) fun S₂ r _ hr => .pure ?_
      rintro _ ⟨⟩
      exact .other (by rw [Expr.isDescribed, hshape]) he.2 hr.2
  obtain ⟨S', -, -, hr⟩ := hgives m (.ok r) m' h.holds hrun
  exact hr r rfl

end Ledger

/-! ## Small trees -/

/-- The nodes of some trees. -/
def nodesOf (roots : List Expr) : Set Expr := { n | n ∈ roots.flatMap Expr.nodes }

theorem mem_nodesOf {roots : List Expr} {e : Expr} (he : e ∈ roots) : e ∈ nodesOf roots :=
  List.mem_flatMap.mpr ⟨e, he, e.mem_nodes_self⟩

/-- Trees that share no node are coherent. -/
theorem coherent_nodesOf {roots : List Expr} {next : Nat}
    (hunique : ((roots.flatMap Expr.nodes).map Expr.id).Nodup)
    (hknown : ∀ id ∈ (roots.flatMap Expr.nodes).map Expr.id, id < next) :
    Coherent (nodesOf roots) next where
  children e he a ha := by
    obtain ⟨root, hroot, he⟩ := List.mem_flatMap.mp he
    refine List.mem_flatMap.mpr ⟨root, hroot, ?_⟩
    clear hunique hknown hroot
    induction root using Expr.induction with
    | step root ih =>
      rcases Expr.mem_nodes.mp he with rfl | ⟨c, hc, he⟩
      · exact Expr.mem_nodes_of_child ha a.mem_nodes_self
      · exact Expr.mem_nodes_of_child hc (ih c hc he)
  known e he := hknown e.id (List.mem_map_of_mem he)
  unique _ ha _ hb hid := List.inj_on_of_nodup_map hunique ha hb hid

theorem within_nodesOf {roots : List Expr} {e : Expr} (he : e ∈ roots)
    (hcaptured : ∀ tree ∈ e.capturedTrees, tree ∈ roots) : e.Within (nodesOf roots) :=
  ⟨fun _ hn => List.mem_flatMap.mpr ⟨e, he, hn⟩,
    fun tree htree => List.mem_flatMap.mpr ⟨tree, hcaptured tree htree, tree.mem_nodes_self⟩⟩

/-- Whether a tree has calls in it, or constants whose members are host code. -/
def Expr.asksHost : Expr → Bool :=
  someNode fun n =>
    match n.shape with
    | .call .. => true
    | .constant (.object _ _ (.hosted _)) => true
    | _ => false

theorem Expr.Substituted.asksHost {pool : List Expr} {e r : Expr} {bound : List Param}
    (he : e.asksHost = false) (hpool : ∀ t ∈ pool, t.asksHost = false)
    (h : e.Substituted pool bound r) : r.asksHost = false := by
  refine h.someNode (fun n n' hlike => ?_) he hpool
  obtain ⟨id, s, ty⟩ := n
  obtain ⟨id', t, ty'⟩ := n'
  cases hlike.shape with
  | constant value => cases value; rfl
  | _ => rfl

/-- A tree that asks nothing of host code gets no answers. -/
theorem Ledger.Answers.of_asksHost {L : Ledger σ} {H : Host σ} {fuel : Nat} {A : Value → Prop}
    (e : Expr) (h : e.asksHost = false) : L.Answers H fuel A e := by
  have hnodes := Expr.someNode_eq_false_iff.mp h
  refine ⟨fun c hc receiver method args hshape => ?_, fun c hc id cls handle hconstant => ?_⟩
  · have hself := hnodes c hc
    simp only [hshape] at hself
    cases hself
  · have hself := hnodes c hc
    simp only [Expr.shape_of_asConstant? hconstant] at hself
    cases hself

namespace Sample

/-- A host that does nothing. -/
def mute : Host Unit where
  run _ _ _ := .done (.ok .null)
  get _ _ _ := .done (.ok .null)
  invoke _ _ _ _ := .done (.ok .null)

/-- The parameter of a closure. -/
def closureVar : Param := ⟨1, some "o", .int⟩

/-- A capture record that holds a tree. -/
def holding (tree : Expr) : Expr :=
  .mk 4 (.constant (.object 3 .captureRecord (.fields [("n", .node tree)]))) .captureRecord

/-- A use of the tree. -/
def heldUse (tree : Expr) : Expr :=
  .mk 6 (.convert .cast
    (.mk 5 (.member (some (holding tree)) ⟨"n", .captureRecord, .node tree.ty, .field⟩)
      (.node tree.ty))) tree.ty

/-- A closure that adds the tree to its parameter. -/
def adding (tree : Expr) : Expr :=
  .mk 8 (.lambda [closureVar]
    (.mk 7 (.binary .add (.mk 2 (.parameter closureVar) .int) (heldUse tree)) .int))
    (.func [.int] .int)

def bake : Method := .static "bake" .object [.int] .int 0

/-- A closure that passes the sum of its parameter and the tree on. -/
def passing (tree : Expr) : Expr :=
  .mk 14 (.lambda [closureVar] (.mk 13 (.call none bake [(adding tree).closureBody]) .int))
    (.func [.int] .int)

def seven : Expr := .mk 9 (.constant (.int 7)) .int

/-- A reference to a variable of a given type. -/
def outer (ty : Ty) : Expr := .mk 11 (.parameter ⟨10, some "y", ty⟩) ty

/-- A variable of another type, converted. -/
def floored : Expr := .mk 12 (.convert .cast (outer .float)) .int

/-- A machine that has handed out some identities. -/
def shelf (next : Nat) : Machine Unit := ⟨next, .empty, #[], #[], ()⟩

theorem passing_starts (A : Value → Prop) :
    (Ledger.plain Unit).Starts mute 1 A (nodesOf [passing floored, seven, floored]) (shelf 15)
      (some seven) (passing floored) where
  holds := coherent_nodesOf (by decide) (by decide)
  tree := by
    refine within_nodesOf List.mem_cons_self fun tree htree => ?_
    obtain rfl : tree = floored := List.mem_singleton.mp htree
    exact .tail _ (.tail _ List.mem_cons_self)
  self := by
    rintro _ ⟨⟩
    exact within_nodesOf (.tail _ List.mem_cons_self) fun _ h => nomatch h
  answers := by
    rintro e ⟨a, ha, hsub⟩
    obtain rfl := List.mem_singleton.mp ha
    exact .of_asksHost e (hsub.asksHost rfl (List.forall_mem_singleton.mpr rfl))

end Sample

end CodeTree
