import CodeTree.Normalize
import CodeTree.Proofs.Substitution

/-!
# What normalization makes of a tree

`Resolves` says node by node what normalization makes of a tree, and `Describes` which node a
closure with that body describes. Host code takes part: closed calls and reads of hosted objects
are answered by it. All that is known of its answers is a condition `A` on values, and that the
trees it answers with are nodes that exist.

Which nodes exist is kept in a `Ledger`, for each state of the machine.

* `ResolvesBy`, `DescribesBy` — one step of the two, given what becomes of the children;
* `Resolves.dest`, `Resolves.fold` — the relations and their steps agree;
* `Expr.Within`, `Ledger.Answers` — what normalization needs: the nodes of a tree and the trees that
  its records hold exist, and host code answers.

Main statement: `Ledger.analyse_gives`.
-/

namespace CodeTree

variable {σ : Type}

/-! ## Results in the place of a node -/

/-- Equal types are both types of captured trees or both not. -/
theorem Ty.isNode_eq_of_beq {a b : Ty} (h : (a == b) = true) : a.isNode = b.isNode := by
  change same a b = true at h
  cases a <;> cases b <;> first | rfl | cases h

/-- The tree that was captured. -/
def Value.asNode? : Value → Option Expr
  | .node tree => some tree
  | _ => none

theorem Value.asNode?_eq_some {v : Value} {tree : Expr} (h : v.asNode? = some tree) :
    v = .node tree := by
  unfold asNode? at h
  split at h
  next => cases h; rfl
  next => cases h

namespace Expr

/-- The members of a constant record. -/
def members (n : Expr) : List (String × Value) :=
  match n.asConstant? with
  | some (.object _ _ (.fields members)) => members
  | _ => []

/-- The value that a constant record holds under a name. -/
def field? (target : Expr) (name : String) : Option Value := target.members.lookup name

/-- The trees that a constant record holds. -/
def heldTrees (n : Expr) : List Expr := n.members.filterMap fun member => member.2.asNode?

/-- The trees that the records in a tree hold. -/
def capturedTrees (e : Expr) : List Expr := e.nodes.flatMap heldTrees

theorem mem_members {n : Expr} {name : String} {v : Value} (h : n.field? name = some v) :
    (name, v) ∈ n.members := by
  obtain ⟨front, back, hmembers, -⟩ := List.lookup_eq_some_iff.mp h
  rw [hmembers]
  exact List.mem_append_right _ List.mem_cons_self

theorem mem_capturedTrees {e n tree : Expr} (hn : n ∈ e.nodes) {name : String}
    (h : n.field? name = some (.node tree)) : tree ∈ e.capturedTrees :=
  List.mem_flatMap.mpr ⟨n, hn, List.mem_filterMap.mpr ⟨(name, .node tree), mem_members h, rfl⟩⟩

theorem capturedTrees_child {e a tree : Expr} (ha : a ∈ e.children) (h : tree ∈ a.capturedTrees) :
    tree ∈ e.capturedTrees := by
  obtain ⟨n, hn, h⟩ := List.mem_flatMap.mp h
  exact List.mem_flatMap.mpr ⟨n, mem_nodes_of_child ha hn, h⟩

/-- A node that has the type, or is converted to it. -/
def UpcastTo (ty : Ty) (e r : Expr) : Prop :=
  if e.ty == ty then r = e else r.shape = .convert .cast e ∧ r.ty = ty

/-- A node out of its wrapper. -/
def UnwrappedTo (ty : Ty) (e r : Expr) : Prop :=
  if e.ty.isVoid || ty.isNode then r = e else e.UpcastTo ty r

/-- The node in the place of a call that was answered. -/
def AnsweredBy (e : Expr) (v : Value) (r : Expr) : Prop :=
  match v with
  | .node tree => r = tree
  | .void => r.shape = .empty ∧ r.ty = .void
  | v => r.shape = .constant v ∧ r.ty = e.ty

/-- A constant of its value's runtime type. -/
def IsConstant (v : Value) (r : Expr) : Prop :=
  r.shape = .constant v ∧ r.ty = v.runtimeTy?.getD .object

/-- The node in the place of a read that gave a value. -/
def ReadAs (e : Expr) (v : Value) (r : Expr) : Prop :=
  match v with
  | .node tree => r = tree
  | v => (r.shape = .constant v ∧ r.ty = e.ty) ∨ (e.ty.isNode ∧ r.IsConstant v) ∨
      ∃ operand, operand.IsConstant v ∧ r.shape = .convert .cast operand ∧ r.ty = e.ty

/-- A call with its receiver in place. -/
def SettledAs (receiver : Option Expr) (method : Method) (args : List Expr) (r : Expr) : Prop :=
  r.ty = method.ret ∧ ∃ receiver', r.shape = .call receiver' method args ∧
    if method.isStatic then receiver' = none
    else Option.Rel (UpcastTo method.declaring) receiver receiver'

/-- Whether normalization has something else to put in the place of a node, whatever host code
answers. -/
def isResolvable (options : Normalization) (e : Expr) : Bool :=
  match e.shape with
  | .member (some target) read => read.kind == .field && (target.field? read.name).isSome
  | .convert _ operand => operand.ty.isNode || e.ty.isNode
  | .lambda [] _ => options.flattenThunks
  | _ => false

/-- Whether a closure body with this node on top describes it rather than what it is normalized
to. -/
def isDescribed (e : Expr) : Bool :=
  match e.shape with
  | .construct .. | .call .. | .invoke .. => true
  | _ => false

end Expr

/-! ## Resolution -/

section Relations

variable (A : Value → Prop) (options : Normalization)

/-- What normalization makes of a node, given what it makes of the children (`N`) and which nodes
they describe (`D`). -/
inductive ResolvesBy (N D : Expr → Expr → Prop) (e r : Expr) : Prop
  | answered {receiver : Option Expr} {method : Method} {args : List Expr} {v : Value}
      (folds : options.foldClosedCalls) (shape : e.shape = .call receiver method args)
      (closed : e.isClosed) (answer : A v) (result : e.AnsweredBy v r)
  | captured {target : Expr} {read : Member} {v : Value}
      (shape : e.shape = .member (some target) read) (kind : read.kind = .field)
      (found : target.field? read.name = some v) (result : e.ReadAs v r)
  | read {target : Expr} {read : Member} {v : Value} (shape : e.shape = .member (some target) read)
      (unknown : target.field? read.name = none) (constant : target.asConstant?.isSome)
      (answer : A v) (result : e.ReadAs v r)
  | unwrapped {kind : ConvertKind} {operand u : Expr} (shape : e.shape = .convert kind operand)
      (node : operand.ty.isNode) (operand : N operand u) (result : u.UnwrappedTo e.ty r)
  | wrapped {kind : ConvertKind} {operand : Expr} (shape : e.shape = .convert kind operand)
      (plain : operand.ty.isNode = false) (node : e.ty.isNode) (result : N operand r)
  | thunk {body : Expr} (flattens : options.flattenThunks) (shape : e.shape = .lambda [] body)
      (result : D body r)
  | kept (unresolved : e.isResolvable options = false) (result : e.Keeps e.shape N r)

/-- The node that a closure with this body describes. -/
inductive DescribesBy (N D : Expr → Expr → Prop) (e r : Expr) : Prop
  | construct {ctor : Ctor} {args args' : List Expr} (shape : e.shape = .construct ctor args)
      (args : List.Forall₂ N args args') (result : r.shape = .construct ctor args')
      (ty : r.ty = ctor.declaring)
  | call {receiver receiver' : Option Expr} {method : Method} {args args' : List Expr}
      (shape : e.shape = .call receiver method args) (receiver : Option.Rel N receiver receiver')
      (args : List.Forall₂ N args args') (result : Expr.SettledAs receiver' method args' r)
  | invoke {target : Expr} {args args' : List Expr} (shape : e.shape = .invoke target args)
      (args : List.Forall₂ N args args') (result : r.shape = .invoke target args') (ty : r.ty = e.ty)
  | other (shape : e.isDescribed = false) (result : ResolvesBy A options N D e r)

/-- Relations that hold only where a step gives them again. -/
structure Resolution (N D : Expr → Expr → Prop) : Prop where
  node : ∀ e r, N e r → ResolvesBy A options N D e r
  described : ∀ e r, D e r → DescribesBy A options N D e r

/-- What normalization may make of a tree. -/
def Resolves (e r : Expr) : Prop := ∃ N D, Resolution A options N D ∧ N e r

/-- Which node a closure with this body may describe. -/
def Describes (e r : Expr) : Prop := ∃ N D, Resolution A options N D ∧ D e r

variable {A options} {N N' D D' : Expr → Expr → Prop} {e r : Expr}

theorem ResolvesBy.mono (hN : ∀ a b, N a b → N' a b) (hD : ∀ a b, D a b → D' a b)
    (h : ResolvesBy A options N D e r) : ResolvesBy A options N' D' e r := by
  cases h with
  | answered folds shape closed answer result => exact .answered folds shape closed answer result
  | captured shape kind found result => exact .captured shape kind found result
  | read shape unknown constant answer result => exact .read shape unknown constant answer result
  | unwrapped shape node operand result => exact .unwrapped shape node (hN _ _ operand) result
  | wrapped shape plain node result => exact .wrapped shape plain node (hN _ _ result)
  | thunk flattens shape result => exact .thunk flattens shape (hD _ _ result)
  | kept unresolved result => exact .kept unresolved (result.imp hN)

theorem DescribesBy.mono (hN : ∀ a b, N a b → N' a b) (hD : ∀ a b, D a b → D' a b)
    (h : DescribesBy A options N D e r) : DescribesBy A options N' D' e r := by
  cases h with
  | construct shape args result ty => exact .construct shape (args.imp hN) result ty
  | call shape receiver args result =>
    exact .call shape (optionRel_imp hN receiver) (args.imp hN) result
  | invoke shape args result ty => exact .invoke shape (args.imp hN) result ty
  | other shape result => exact .other shape (result.mono hN hD)

theorem Resolves.dest (h : Resolves A options e r) :
    ResolvesBy A options (Resolves A options) (Describes A options) e r := by
  obtain ⟨N, D, hstep, h⟩ := h
  exact (hstep.node e r h).mono (fun a b h => ⟨N, D, hstep, h⟩) fun a b h => ⟨N, D, hstep, h⟩

theorem Describes.dest (h : Describes A options e r) :
    DescribesBy A options (Resolves A options) (Describes A options) e r := by
  obtain ⟨N, D, hstep, h⟩ := h
  exact (hstep.described e r h).mono (fun a b h => ⟨N, D, hstep, h⟩) fun a b h => ⟨N, D, hstep, h⟩

/-- The steps from the two relations are again such relations. -/
theorem resolution_steps :
    Resolution A options (ResolvesBy A options (Resolves A options) (Describes A options))
      (DescribesBy A options (Resolves A options) (Describes A options)) :=
  ⟨fun _ _ h => h.mono (fun _ _ => Resolves.dest) fun _ _ => Describes.dest,
    fun _ _ h => h.mono (fun _ _ => Resolves.dest) fun _ _ => Describes.dest⟩

theorem Resolves.fold
    (h : ResolvesBy A options (Resolves A options) (Describes A options) e r) :
    Resolves A options e r :=
  ⟨_, _, resolution_steps, h⟩

theorem Describes.fold
    (h : DescribesBy A options (Resolves A options) (Describes A options) e r) :
    Describes A options e r :=
  ⟨_, _, resolution_steps, h⟩

end Relations

/-! ## Ledgers -/

/-- Which nodes exist when the machine is in a given state. Making nodes only adds to them. -/
structure Ledger (σ : Type) where
  Holds : Set Expr → Machine σ → Prop
  coherent : ∀ {S : Set Expr} {k : Machine σ}, Holds S k → Coherent S k.next
  grows : ∀ {S S' : Set Expr} {k : Machine σ} {next : Nat}, Holds S k → S ⊆ S' → k.next ≤ next →
    Coherent S' next → Holds S' { k with next := next }

/-- The ledger that asks nothing of the machine but its supply of identities. -/
def Ledger.plain (σ : Type) : Ledger σ where
  Holds S k := Coherent S k.next
  coherent h := h
  grows _ _ _ h := h

namespace Ledger

variable (L : Ledger σ)

/-- From the nodes `S`, the action goes to larger ones, with a result that satisfies `Q` there. -/
def Gives {α : Type} (S : Set Expr) (Q : Set Expr → α → Prop) (x : Step σ α) : Prop :=
  ∀ k a k', L.Holds S k → x k = some (a, k') → ∃ S', S ⊆ S' ∧ L.Holds S' k' ∧ Q S' a

variable {L} {α β : Type} {S : Set Expr} {Q Q' : Set Expr → α → Prop} {T : Set Expr → β → Prop}

namespace Gives

theorem pure {a : α} (h : Q S a) : L.Gives S Q (Pure.pure a) := by
  intro k b k' hk hx
  obtain ⟨rfl, rfl⟩ := Prod.mk.inj (Option.some.inj hx)
  exact ⟨S, subset_rfl, hk, h⟩

theorem bind {x : Step σ α} {f : α → Step σ β} (h : L.Gives S Q x)
    (hf : ∀ S' a, S ⊆ S' → Q S' a → L.Gives S' T (f a)) : L.Gives S T (x >>= f) := by
  intro k b k'' hk hx
  obtain ⟨⟨a, k'⟩, hx, hfa⟩ := Option.bind_eq_some_iff.mp hx
  obtain ⟨S₁, h₁, hk', ha⟩ := h k a k' hk hx
  obtain ⟨S₂, h₂, hk'', hb⟩ := hf S₁ a h₁ ha k' b k'' hk' hfa
  exact ⟨S₂, h₁.trans h₂, hk'', hb⟩

theorem imp {x : Step σ α} (h : L.Gives S Q x) (hQ : ∀ S' a, S ⊆ S' → Q S' a → Q' S' a) :
    L.Gives S Q' x := by
  intro k a k' hk hx
  obtain ⟨S', hS, hk', ha⟩ := h k a k' hk hx
  exact ⟨S', hS, hk', hQ S' a hS ha⟩

/-- Making nodes. -/
theorem make {x : Make α} (h : Make.Gives S Q x) : L.Gives S Q (Step.make x) := by
  intro k a k' hk hx
  obtain ⟨rfl, rfl⟩ := Prod.mk.inj (Option.some.inj hx)
  obtain ⟨hnext, S', hS, hcoherent, ha⟩ := h k.next (L.coherent hk)
  exact ⟨S', hS, L.grows hk hS hnext hcoherent, ha⟩

end Gives

/-- The logic of a ledger. -/
def logic (L : Ledger σ) : Logic (Step σ) := ⟨L.Gives, Gives.pure, Gives.bind⟩

end Ledger

/-! ## Making results -/

namespace Make.Gives

variable {S : Set Expr}

theorem upcast {e : Expr} (he : e ∈ S) (ty : Ty) :
    Make.Gives S (fun S' r => r ∈ S' ∧ e.UpcastTo ty r) (e.upcast ty) := by
  unfold Expr.upcast Expr.UpcastTo
  split
  · exact .pure ⟨he, rfl⟩
  · exact make (s := .convert .cast e) (by simpa [Shape.children] using he) ty

theorem settledCall {receiver : Option Expr} (hreceiver : ∀ a ∈ receiver, a ∈ S) (method : Method)
    {args : List Expr} (hargs : ∀ a ∈ args, a ∈ S) :
    Make.Gives S (fun S' r => r ∈ S' ∧ Expr.SettledAs receiver method args r)
      (Expr.settledCall receiver method args) := by
  have hcall : ∀ S' receiver', S ⊆ S' → (∀ a ∈ receiver', a ∈ S') →
      Make.Gives S' (fun S'' r => r ∈ S'' ∧ r.shape = .call receiver' method args ∧ r.ty = method.ret)
        (Expr.call receiver' method args) := by
    intro S' receiver' hS hreceiver'
    refine make (fun a ha => ?_) method.ret
    rcases List.mem_append.mp ha with ha | ha
    · exact hreceiver' a (Option.mem_toList.mp ha)
    · exact hS (hargs a ha)
  rw [Expr.settledCall]
  split
  next hstatic =>
    refine (hcall S none subset_rfl fun _ h => nomatch h).imp fun S' r _ h => ?_
    exact ⟨h.1, h.2.2, none, h.2.1, by rw [if_pos hstatic]⟩
  next hinstance =>
    have hupcast : Make.Gives S
        (fun S' receiver' => (∀ a ∈ receiver', a ∈ S') ∧
          Option.Rel (Expr.UpcastTo method.declaring) receiver receiver')
        (receiver.mapM (·.upcast method.declaring)) := by
      cases receiver with
      | none => exact .pure ⟨fun _ h => (nomatch h), .none⟩
      | some a =>
        refine bind (upcast (hreceiver a rfl) method.declaring) fun S' b _ hb => .pure ⟨?_, .some hb.2⟩
        rintro c ⟨⟩
        exact hb.1
    refine bind hupcast fun S₁ receiver' h₁ hreceiver' => ?_
    refine (hcall S₁ receiver' h₁ hreceiver'.1).imp fun S₂ r _ h => ?_
    exact ⟨h.1, h.2.2, receiver', h.2.1, by rw [if_neg hinstance]; exact hreceiver'.2⟩

end Make.Gives

/-! ## Normalization -/

/-- Answers that satisfy `A`, with trees that exist. -/
def Answered {ε : Type} (A : Value → Prop) (S : Set Expr) (reply : Except ε Value) : Prop :=
  ∀ v, reply = .ok v → A v ∧ ∀ tree, v = .node tree → tree ∈ S

/-- Host code answers the closed calls of a tree and the reads on its constants with values that
satisfy `A` and with trees that exist. -/
structure Ledger.Answers (L : Ledger σ) (H : Host σ) (fuel : Nat) (A : Value → Prop) (e : Expr) :
    Prop where
  calls : ∀ c ∈ e.nodes, ∀ receiver method args, c.shape = .call receiver method args →
    c.isClosed → ∀ S, c ∈ S → L.Gives S (Answered A) (evaluateAlone H fuel c)
  reads : ∀ c ∈ e.nodes, ∀ id cls handle, c.asConstant? = some (.object id cls (.hosted handle)) →
    ∀ name S, c ∈ S → L.Gives S (Answered A)
      (Step.play (apply H fuel) (H.get handle (.object id cls (.hosted handle)) name))

/-- The nodes of a tree exist, and so do the trees that its records hold. -/
structure Expr.Within (S : Set Expr) (e : Expr) : Prop where
  nodes : ∀ n ∈ e.nodes, n ∈ S
  captured : ∀ tree ∈ e.capturedTrees, tree ∈ S

theorem Expr.Within.mono {S S' : Set Expr} {e : Expr} (h : e.Within S) (hS : S ⊆ S') : e.Within S' :=
  ⟨fun n hn => hS (h.nodes n hn), fun tree ht => hS (h.captured tree ht)⟩

theorem Expr.Within.child {S : Set Expr} {e a : Expr} (h : e.Within S) (ha : a ∈ e.children) :
    a.Within S :=
  ⟨fun n hn => h.nodes n (mem_nodes_of_child ha hn),
    fun tree ht => h.captured tree (capturedTrees_child ha ht)⟩

/-- What normalization makes of a tree, from what it makes of the children. -/
theorem analyse_eq (H : Host σ) (fuel : Nat) (options : Normalization) (e : Expr) :
    analyse H fuel options e =
      ⟨normalizeStep H fuel options e (e.shape.map fun a => (a, analyse H fuel options a)),
        describeStep H fuel options e (e.shape.map fun a => (a, analyse H fuel options a))⟩ := by
  obtain ⟨id, s, ty⟩ := e
  rw [analyse, Expr.fold_mk]
  rfl

namespace Ledger

variable {L : Ledger σ} {H : Host σ} {fuel : Nat} {A : Value → Prop} {options : Normalization}
  {S : Set Expr}

theorem Answers.child {e a : Expr} (h : L.Answers H fuel A e) (ha : a ∈ e.children) :
    L.Answers H fuel A a :=
  ⟨fun c hc => h.calls c (Expr.mem_nodes_of_child ha hc),
    fun c hc => h.reads c (Expr.mem_nodes_of_child ha hc)⟩

namespace Gives

theorem foldCall {c : Expr} (h : L.Gives S (Answered A) (evaluateAlone H fuel c)) :
    L.Gives S (fun S' o => ∀ r ∈ o, r ∈ S' ∧ ∃ v, A v ∧ c.AnsweredBy v r)
      (CodeTree.foldCall H fuel c) := by
  refine bind h fun S₁ reply h₁ hreply => ?_
  cases reply with
  | error _ => exact pure fun _ h => nomatch h
  | ok v =>
    obtain ⟨hv, htree⟩ := hreply v rfl
    cases v with
    | node tree =>
      refine pure ?_
      rintro _ ⟨⟩
      exact ⟨htree tree rfl, .node tree, hv, rfl⟩
    | void =>
      refine bind (make (.make (s := .empty) (fun _ h => nomatch h) .void)) fun S₂ r _ hr => pure ?_
      rintro _ ⟨⟩
      exact ⟨hr.1, .void, hv, hr.2⟩
    | _ =>
      refine bind (make (.make (s := .constant _) (fun _ h => nomatch h) c.ty)) fun S₂ r _ hr =>
        pure ?_
      rintro _ ⟨⟩
      exact ⟨hr.1, _, hv, hr.2⟩

/-- A conversion, given what becomes of its operand and of it when it is kept. -/
theorem unwrapConversion {e operand : Expr} {x y : Step σ Expr} {N K : Expr → Prop}
    (hx : L.Gives S (fun S' r => r ∈ S' ∧ N r) x)
    (hy : operand.ty.isNode = false → e.ty.isNode = false →
      L.Gives S (fun S' r => r ∈ S' ∧ K r) y) :
    L.Gives S (fun S' r => r ∈ S' ∧
      if operand.ty.isNode then ∃ u, N u ∧ u.UnwrappedTo e.ty r
      else if e.ty.isNode then N r else K r) (CodeTree.unwrapConversion e operand x y) := by
  unfold CodeTree.unwrapConversion
  cases hoperand : operand.ty.isNode with
  | true =>
    simp only [if_true]
    refine bind hx fun S₁ u _ hu => ?_
    unfold Expr.UnwrappedTo
    split
    next hstays => exact pure ⟨hu.1, u, hu.2, by rw [if_pos hstays]⟩
    next hmoves =>
      refine (make (.upcast hu.1 e.ty)).imp fun S₂ r _ hr => ⟨hr.1, u, hu.2, ?_⟩
      rw [if_neg hmoves]
      exact hr.2
  | false =>
    simp only [if_false, Bool.false_eq_true]
    cases he : e.ty.isNode with
    | true => simpa only [if_true] using hx
    | false => simpa only [if_false, Bool.false_eq_true] using hy hoperand he

/-- What becomes of a constant that is converted to the type of a read. -/
theorem readAs_converted {e operand converted r : Expr} {v : Value} (hoperand : operand.IsConstant v)
    (hconverted : converted.shape = .convert .cast operand ∧ converted.ty = e.ty)
    (h : if operand.ty.isNode then ∃ u, u = operand ∧ u.UnwrappedTo converted.ty r
      else if converted.ty.isNode then r = operand else r = converted) :
    (e.ty.isNode ∧ r.IsConstant v) ∨
      ∃ operand, operand.IsConstant v ∧ r.shape = .convert .cast operand ∧ r.ty = e.ty := by
  obtain ⟨hshape, hty⟩ := hconverted
  simp only [hty] at h
  cases he : e.ty.isNode with
  | true =>
    refine .inl ⟨rfl, ?_⟩
    simp only [he, Expr.UnwrappedTo, Bool.or_true, if_true, exists_eq_left, ite_self] at h
    exact h ▸ hoperand
  | false =>
    refine .inr ⟨operand, hoperand, ?_⟩
    simp only [he, Expr.UnwrappedTo, Expr.UpcastTo, Bool.or_false, exists_eq_left] at h
    split at h
    next hnode =>
      have hvoid : operand.ty.isVoid = false := by
        cases hoperand : operand.ty <;> first | rfl | (rw [hoperand] at hnode; cases hnode)
      have hne : (operand.ty == e.ty) = false := by
        refine Bool.eq_false_iff.mpr fun heq => ?_
        rw [Ty.isNode_eq_of_beq heq, he] at hnode
        cases hnode
      simpa [hvoid, hne] using h
    next =>
      rw [if_neg Bool.false_ne_true] at h
      exact h ▸ ⟨hshape, hty⟩

theorem capturedValue {v : Value} (htree : ∀ tree, v = .node tree → tree ∈ S) (e : Expr) :
    L.Gives S (fun S' r => r ∈ S' ∧ e.ReadAs v r) (CodeTree.capturedValue e v) := by
  -- every value but a tree is put into a constant, which is converted if its type differs
  have hplain : L.Gives S (fun S' r => r ∈ S' ∧
      ((r.shape = .constant v ∧ r.ty = e.ty) ∨ (e.ty.isNode ∧ r.IsConstant v) ∨
        ∃ operand, operand.IsConstant v ∧ r.shape = .convert .cast operand ∧ r.ty = e.ty))
      (if v.runtimeTy?.any (· == e.ty) then Step.make (Expr.typedConstant v e.ty)
        else do
          let operand ← Step.make (Expr.constant v)
          let converted ← Step.make (operand.convert e.ty)
          CodeTree.unwrapConversion converted operand (Pure.pure operand) (Pure.pure converted)) := by
    split
    · exact (make (.make (s := .constant v) (fun _ h => nomatch h) e.ty)).imp
        fun _ _ _ h => ⟨h.1, .inl h.2⟩
    · refine bind (make (.make (s := .constant v) (fun _ h => nomatch h) _)) fun S₁ operand _ ho => ?_
      refine bind (make (.make (s := .convert .cast operand) (by simpa [Shape.children] using ho.1)
        e.ty)) fun S₂ converted h₂ hc => ?_
      refine (unwrapConversion (N := (· = operand)) (K := (· = converted)) (pure ⟨h₂ ho.1, rfl⟩)
        fun _ _ => pure ⟨hc.1, rfl⟩).imp fun S₃ r _ hr => ⟨hr.1, .inr ?_⟩
      exact readAs_converted ho.2 hc.2 hr.2
  cases v with
  | node tree => exact pure ⟨htree tree rfl, rfl⟩
  | _ => exact hplain

/-- Objects that do not know a name have no value for it. -/
theorem missingMember (cls : Ty) (name : String) :
    L.Gives S (fun _ reply => ∀ v, reply ≠ .ok v)
      (Step.play (apply H fuel) (.missingMember cls name)) :=
  bind (make .fresh) fun _ _ _ _ => pure fun _ h => nomatch h

/-- A read, given what becomes of it when it is kept. -/
theorem resolveRead {e target : Expr} {read : Member} {children : Step σ Expr}
    {N D : Expr → Expr → Prop} (he : e.shape = .member (some target) read)
    (hcaptured : ∀ tree, target.field? read.name = some (.node tree) → tree ∈ S)
    (hreads : ∀ id cls handle, target.asConstant? = some (.object id cls (.hosted handle)) →
      L.Gives S (Answered A)
        (Step.play (apply H fuel) (H.get handle (.object id cls (.hosted handle)) read.name)))
    (hchildren : ∀ S', S ⊆ S' → L.Gives S' (fun S'' r => r ∈ S'' ∧ e.Keeps e.shape N r) children) :
    L.Gives S (fun S' r => r ∈ S' ∧ ResolvesBy A options N D e r)
      (CodeTree.resolveRead H fuel e target read children) := by
  have hkept : ∀ S', S ⊆ S' → (read.kind = .field → target.field? read.name = none) →
      L.Gives S' (fun S'' r => r ∈ S'' ∧ ResolvesBy A options N D e r) children := by
    intro S' hS hnone
    refine (hchildren S' hS).imp fun _ _ _ h => ⟨h.1, .kept ?_ h.2⟩
    rw [Expr.isResolvable, he]
    show (read.kind == .field && (target.field? read.name).isSome) = false
    cases hkind : read.kind with
    | property => rfl
    | field => rw [hnone hkind]; rfl
  unfold CodeTree.resolveRead
  split
  next id cls content hconstant hkind =>
    have hmissing : target.field? read.name = none → ∀ f : Reply → Step σ Expr,
        (∀ error, f (.error error) = children) →
        L.Gives S (fun S' r => r ∈ S' ∧ ResolvesBy A options N D e r)
          (Step.play (apply H fuel) (.missingMember cls read.name) >>= f) := by
      intro hnone f hf
      refine bind (missingMember cls read.name) fun S₁ reply h₁ hreply => ?_
      cases reply with
      | ok v => exact absurd rfl (hreply v)
      | error error => exact hf error ▸ hkept S₁ h₁ fun _ => hnone
    cases content with
    | fields members =>
      have hfield : target.field? read.name = members.lookup read.name := by
        rw [Expr.field?, Expr.members, hconstant]
      rw [Host.readMember]
      cases hfound : members.lookup read.name with
      | some v =>
        rw [hfound] at hfield
        refine (capturedValue (fun tree h => hcaptured tree (h ▸ hfield)) e).imp fun _ _ _ h => ?_
        exact ⟨h.1, .captured he hkind hfield h.2⟩
      | none => exact hmissing (hfield.trans hfound) _ fun _ => rfl
    | hosted handle =>
      have hfield : target.field? read.name = none := by
        rw [Expr.field?, Expr.members, hconstant]
        rfl
      refine bind (hreads id cls handle hconstant) fun S₁ reply h₁ hreply => ?_
      cases reply with
      | ok v =>
        obtain ⟨hv, htree⟩ := hreply v rfl
        refine (capturedValue htree e).imp fun _ _ _ h => ⟨h.1, .read he hfield ?_ hv h.2⟩
        rw [hconstant]
        rfl
      | error _ => exact hkept S₁ h₁ fun _ => hfield
    | fault f =>
      refine hmissing ?_ _ fun _ => rfl
      rw [Expr.field?, Expr.members, hconstant]
      rfl
  next hother =>
    refine hkept S subset_rfl fun hkind => ?_
    rw [Expr.field?, Expr.members]
    split
    next members hconstant => exact absurd hkind (hother _ _ _ hconstant)
    next => rfl

/-- The node with its children normalized. -/
theorem normalChildren {e : Expr} (he : e ∈ S) {g : Expr → Normal σ} {N : Expr → Expr → Prop}
    (h : ∀ a ∈ e.children, ∀ S', S ⊆ S' → L.Gives S' (fun S'' r => r ∈ S'' ∧ N a r) (g a).node) :
    L.Gives S (fun S' r => r ∈ S' ∧ e.Keeps e.shape N r)
      (CodeTree.normalChildren e (e.shape.map fun a => (a, g a))) := by
  have hlayer := Logic.mapM (L := L.logic) (R := fun S a r => r ∈ S ∧ N a r)
    (fun _ _ _ _ hS h => ⟨hS h.1, h.2⟩) (s := e.shape) h
  rw [CodeTree.normalChildren, Shape.mapM_map]
  exact bind hlayer fun S' layer hS hlike => make (.withLayer (hS he) hlike)

/-- One step of normalization. -/
theorem normalizeStep {e : Expr} (he : e.Within S) (hH : L.Answers H fuel A e)
    {g : Expr → Normal σ} {N D : Expr → Expr → Prop}
    (hN : ∀ a ∈ e.children, ∀ S', S ⊆ S' → L.Gives S' (fun S'' r => r ∈ S'' ∧ N a r) (g a).node)
    (hD : ∀ a ∈ e.children, L.Gives S (fun S' r => r ∈ S' ∧ D a r) (g a).described) :
    L.Gives S (fun S' r => r ∈ S' ∧ ResolvesBy A options N D e r)
      (CodeTree.normalizeStep H fuel options e (e.shape.map fun a => (a, g a))) := by
  have hself := he.nodes e e.mem_nodes_self
  have hchildren : ∀ S', S ⊆ S' → L.Gives S' (fun S'' r => r ∈ S'' ∧ e.Keeps e.shape N r)
      (CodeTree.normalChildren e (e.shape.map fun a => (a, g a))) :=
    fun S' hS => normalChildren (hS hself) fun a ha S'' hS' => hN a ha S'' (hS.trans hS')
  have hkept : ∀ S', S ⊆ S' → e.isResolvable options = false →
      L.Gives S' (fun S'' r => r ∈ S'' ∧ ResolvesBy A options N D e r)
        (CodeTree.normalChildren e (e.shape.map fun a => (a, g a))) :=
    fun S' hS hunresolved => (hchildren S' hS).imp fun _ _ _ h => ⟨h.1, .kept hunresolved h.2⟩
  obtain ⟨id, s, ty⟩ := e
  cases s with
  | call receiver method args =>
    rw [Expr.shape, Shape.map, CodeTree.normalizeStep]
    split
    next hfold =>
      obtain ⟨hoptions, hclosed⟩ := Bool.and_eq_true_iff.mp hfold
      refine bind (foldCall (hH.calls _ (Expr.mem_nodes_self _) _ _ _ rfl hclosed S hself))
        fun S₁ o h₁ ho => ?_
      cases o with
      | none => exact hkept S₁ h₁ rfl
      | some r =>
        obtain ⟨hr, v, hv, hanswered⟩ := ho r rfl
        exact pure ⟨hr, .answered hoptions rfl hclosed hv hanswered⟩
    next => exact hkept S subset_rfl rfl
  | member target read =>
    cases target with
    | none => exact hkept S subset_rfl rfl
    | some target =>
      have htarget : target ∈ (Expr.mk id (.member (some target) read) ty).nodes :=
        Expr.mem_nodes_of_child List.mem_cons_self target.mem_nodes_self
      exact resolveRead rfl (fun tree h => he.captured tree (Expr.mem_capturedTrees htarget h))
        (fun id cls handle hconstant => hH.reads target htarget id cls handle hconstant read.name S
          (he.nodes target htarget)) hchildren
  | convert kind operand =>
    refine (unwrapConversion (hN operand List.mem_cons_self S subset_rfl)
      fun _ _ => hchildren S subset_rfl).imp fun S' r _ hr => ⟨hr.1, ?_⟩
    obtain ⟨-, h⟩ := hr
    split at h
    next hoperand =>
      obtain ⟨u, hu, hunwrapped⟩ := h
      exact .unwrapped rfl hoperand hu hunwrapped
    next hoperand =>
      rw [Bool.not_eq_true] at hoperand
      split at h
      next hty => exact .wrapped rfl hoperand hty h
      next hty =>
        refine .kept ?_ h
        rw [Expr.isResolvable, Expr.shape]
        exact Bool.or_eq_false_iff.mpr ⟨hoperand, Bool.eq_false_iff.mpr hty⟩
  | lambda params body =>
    cases params with
    | nil =>
      rw [Expr.shape, Shape.map, CodeTree.normalizeStep]
      split
      next hoptions =>
        exact (hD body List.mem_cons_self).imp fun _ _ _ h => ⟨h.1, .thunk hoptions rfl h.2⟩
      next hoptions => exact hkept S subset_rfl (Bool.eq_false_iff.mpr hoptions)
    | cons p ps => exact hkept S subset_rfl rfl
  | _ => exact hkept S subset_rfl rfl

/-- Nodes that are visited one after another. -/
theorem mapM_list {as : List Expr} {f : Expr → Step σ Expr} {N : Expr → Expr → Prop}
    (h : ∀ a ∈ as, ∀ S', S ⊆ S' → L.Gives S' (fun S'' r => r ∈ S'' ∧ N a r) (f a)) :
    L.Gives S (fun S' rs => (∀ r ∈ rs, r ∈ S') ∧ List.Forall₂ N as rs) (as.mapM f) := by
  have hlist := Logic.mapM_list (L := L.logic) (R := fun S a r => r ∈ S ∧ N a r)
    (fun _ _ _ _ hS h => ⟨hS h.1, h.2⟩) h
  refine imp hlist fun S' rs _ hrs => ⟨fun r hr => ?_, hrs.imp fun _ _ h => h.2⟩
  obtain ⟨_, _, h, _⟩ := exists_left_of_forall₂ hrs r hr
  exact h

theorem mapM_option {o : Option Expr} {f : Expr → Step σ Expr} {N : Expr → Expr → Prop}
    (h : ∀ a ∈ o.toList, ∀ S', S ⊆ S' → L.Gives S' (fun S'' r => r ∈ S'' ∧ N a r) (f a)) :
    L.Gives S (fun S' o' => (∀ r ∈ o', r ∈ S') ∧ Option.Rel N o o') (o.mapM f) := by
  have hoption := Logic.mapM_option (L := L.logic) (R := fun S a r => r ∈ S ∧ N a r) h
  refine imp hoption fun S' o' _ ho' => ⟨?_, optionRel_imp (fun _ _ h => h.2) ho'⟩
  rintro r ⟨⟩
  cases ho' with
  | some h => exact h.1

/-- One step of describing a node. -/
theorem describeStep {e : Expr} (he : e.Within S) (hH : L.Answers H fuel A e)
    {g : Expr → Normal σ} {N D : Expr → Expr → Prop}
    (hN : ∀ a ∈ e.children, ∀ S', S ⊆ S' → L.Gives S' (fun S'' r => r ∈ S'' ∧ N a r) (g a).node)
    (hD : ∀ a ∈ e.children, L.Gives S (fun S' r => r ∈ S' ∧ D a r) (g a).described) :
    L.Gives S (fun S' r => r ∈ S' ∧ DescribesBy A options N D e r)
      (CodeTree.describeStep H fuel options e (e.shape.map fun a => (a, g a))) := by
  have hother : e.isDescribed = false → L.Gives S (fun S' r => r ∈ S' ∧ DescribesBy A options N D e r)
      (CodeTree.normalizeStep H fuel options e (e.shape.map fun a => (a, g a))) :=
    fun hshape => (normalizeStep he hH hN hD).imp fun _ _ _ h => ⟨h.1, .other hshape h.2⟩
  obtain ⟨id, s, ty⟩ := e
  cases s with
  | construct ctor args =>
    rw [Expr.shape, Shape.map, CodeTree.describeStep, List.mapM_map]
    refine bind (mapM_list hN) fun S₁ args' h₁ hargs => ?_
    refine (make (.make (s := .construct ctor args') hargs.1 ctor.declaring)).imp fun _ r _ hr => ?_
    exact ⟨hr.1, .construct rfl hargs.2 hr.2.1 hr.2.2⟩
  | call receiver method args =>
    rw [Expr.shape, Shape.map, CodeTree.describeStep, List.mapM_map, optionMapM_map]
    refine bind (mapM_option fun a ha => hN a (List.mem_append_left args ha))
      fun S₁ receiver' h₁ hreceiver => ?_
    refine bind (mapM_list fun a ha S' hS => hN a (List.mem_append_right _ ha) S' (h₁.trans hS))
      fun S₂ args' h₂ hargs => ?_
    have hmem : ∀ a ∈ receiver', a ∈ S₂ := fun a ha => h₂ (hreceiver.1 a ha)
    refine (make (.settledCall hmem method hargs.1)).imp fun _ r _ hr => ⟨hr.1, ?_⟩
    exact .call rfl hreceiver.2 hargs.2 hr.2
  | invoke target args =>
    have htarget : target ∈ S :=
      he.nodes target (Expr.mem_nodes_of_child List.mem_cons_self target.mem_nodes_self)
    rw [Expr.shape, Shape.map, CodeTree.describeStep, List.mapM_map]
    refine bind (mapM_list fun a ha => hN a (List.mem_cons_of_mem target ha)) fun S₁ args' h₁ hargs => ?_
    refine (make (.make (s := .invoke target args') ?_ ty)).imp fun _ r _ hr => ?_
    · exact List.forall_mem_cons.mpr ⟨h₁ htarget, hargs.1⟩
    · exact ⟨hr.1, .invoke rfl hargs.2 hr.2.1 hr.2.2⟩
  | _ => exact hother rfl

end Gives

/-- Normalization resolves a tree, and gives the node that it describes. -/
theorem analyse_gives (e : Expr) : ∀ {S : Set Expr}, e.Within S → L.Answers H fuel A e →
    L.Gives S (fun S' r => r ∈ S' ∧ Resolves A options e r) (analyse H fuel options e).node ∧
      L.Gives S (fun S' r => r ∈ S' ∧ Describes A options e r)
        (analyse H fuel options e).described := by
  induction e using Expr.induction with
  | step e ih =>
    intro S he hH
    have hN := fun a ha S' (hS : S ⊆ S') => (ih a ha ((he.child ha).mono hS) (hH.child ha)).1
    have hD := fun a ha => (ih a ha (he.child ha) (hH.child ha)).2
    rw [analyse_eq]
    exact ⟨(Gives.normalizeStep he hH hN hD).imp fun _ _ _ h => ⟨h.1, .fold h.2⟩,
      (Gives.describeStep he hH hN hD).imp fun _ _ _ h => ⟨h.1, .fold h.2⟩⟩

end Ledger

end CodeTree
