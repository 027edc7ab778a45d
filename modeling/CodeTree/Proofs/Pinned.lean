import CodeTree.Proofs.Lockstep

/-!
# Variables that nothing assigns

A `Pin` is one binding: a variable, the frame that binds it, and its value. A tree leaves it alone
in a scope if it never assigns to the variable or the scope does not reach the frame
(`Pin.Spares`); a machine keeps it if it binds the value and all its closures leave it alone
(`Pin.Holds`). New frames are no danger: a block or a lambda that declares the variable once more
does so in a frame of its own.

Main statement: `Pin.Holds.eval`. Whatever else an evaluation does, with any host, it keeps a
binding that its tree spares. The step is `Pin.invariant`, one fact for each way in which a
machine's store or the place of an evaluation changes.
-/

namespace CodeTree

variable {σ : Type}

/-! ## Trees that never assign to a variable -/

theorem Param.beq_iff {p q : Param} : (p == q) = true ↔ p.id = q.id := by
  show (p.id == q.id) = true ↔ p.id = q.id
  exact beq_iff_eq

namespace Expr

/-- Whether a tree has an assignment to a variable in it. -/
def assigns (p : Param) : Expr → Bool :=
  someNode fun n =>
    match n.shape with
    | .assign target _ => target == p
    | _ => false

theorem someNode_mk (test : Expr → Bool) (id : Nat) (s : Shape Value Expr) (ty : Ty) :
    someNode test (.mk id s ty) = (test (.mk id s ty) || s.children.any (someNode test)) := by
  rw [someNode, fold_mk, Shape.children_map, List.any_map]
  rfl

/-- A test that fails on all nodes of a tree fails on all nodes of its children. -/
theorem someNode_child {test : Expr → Bool} {e a : Expr} (h : e.someNode test = false)
    (ha : a ∈ e.children) : a.someNode test = false := by
  obtain ⟨id, s, ty⟩ := e
  rw [someNode_mk, Bool.or_eq_false_iff] at h
  exact Bool.eq_false_iff.mpr (List.any_eq_false.mp h.2 a ha)

theorem someNode_self {test : Expr → Bool} {e : Expr} (h : e.someNode test = false) :
    test e = false := by
  obtain ⟨id, s, ty⟩ := e
  rw [someNode_mk, Bool.or_eq_false_iff] at h
  exact h.1

end Expr

/-! ## Pins -/

/-- A variable with a value in a frame. -/
structure Pin where
  frame : Nat
  var : Param
  value : Value

namespace Pin

variable (π : Pin)

/-- The store has the binding. -/
def Binds (st : Store) : Prop := (st.frame π.frame).get? π.var.id = some π.value

/-- Evaluated in this scope, the tree does not write the binding: it never assigns to the variable,
or the scope does not reach the frame. -/
def Spares (scope : Scope) (e : Expr) : Prop :=
  e.assigns π.var = false ∨ ∀ link ∈ scope.links, link.frame ≠ π.frame

/-- The machine has the binding, and its closures leave it alone. -/
structure Holds (m : Machine σ) : Prop where
  bound : π.Binds m.store
  closures : ∀ (i : Nat) c, m.closures[i]? = some c → π.Spares c.scope c.body

variable {π}

theorem Binds.lt_size {st : Store} (h : π.Binds st) : π.frame < st.frames.size := by
  have hsome : ((st.frame π.frame).get? π.var.id).isSome := by
    rw [h]
    rfl
  exact Store.lt_size_of_isSome_get? hsome

/-- Another variable, or another frame, may be written. -/
theorem Binds.write {st : Store} (h : π.Binds st) {f : Nat} {p : Param}
    (hother : f ≠ π.frame ∨ p.id ≠ π.var.id) (v : Value) : π.Binds (st.write f p.id v) := by
  unfold Binds
  by_cases hf : f = π.frame
  · have hp : π.var.id ≠ p.id := fun hp => hother.elim (absurd hf) (absurd hp.symm)
    rw [hf, Store.frame_write_self h.lt_size, Frame.get?_set, if_neg hp]
    exact h
  · rw [Store.frame_write_of_ne (Ne.symm hf)]
    exact h

theorem Holds.lt_size {m : Machine σ} (h : π.Holds m) : π.frame < m.store.frames.size :=
  h.bound.lt_size

/-- An assignment in a tree that spares the binding goes elsewhere. -/
theorem Binds.assign {st : Store} (h : π.Binds st) {scope : Scope} {target : Param}
    (hspares : target.id ≠ π.var.id ∨ ∀ link ∈ scope.links, link.frame ≠ π.frame) (v : Value) :
    π.Binds (st.assign scope target.id v).2 := by
  unfold Store.assign
  split
  · next f howner =>
    refine h.write (p := target) (hspares.symm.imp (fun hlinks => ?_) fun h => h) v
    -- the frame that is written is one of the scope's
    obtain ⟨link, hfind, rfl⟩ := Option.map_eq_some_iff.mp howner
    exact hlinks link (List.mem_of_find?_eq_some hfind)
  · exact h

/-- One step of an evaluation keeps the binding, and goes on to places that spare it. -/
theorem invariant (π : Pin) :
    Lockstep.Invariant π.Binds fun P => π.Spares P.scope P.tree where
  opened st bindings h := by
    unfold Binds
    rw [Store.frame_opened_of_ne (Nat.ne_of_lt h.lt_size)]
    exact h
  assigned P target a hP hshape st v h := by
    refine h.assign (hP.imp (fun hassigns htarget => ?_) fun h => h) v
    have hself := Expr.someNode_self hassigns
    simp only [hshape] at hself
    exact Bool.eq_false_iff.mp hself (Param.beq_iff.mpr htarget)
  child P a hP ha := hP.imp (fun h => Expr.someNode_child h ha) fun h => h
  extended P hP st handling h := by
    refine hP.imp (fun h => h) fun hlinks link hlink => ?_
    rcases List.mem_cons.mp hlink with rfl | hlink
    · exact Nat.ne_of_gt h.lt_size
    · exact hlinks link hlink

/-- The binding after an evaluation is the binding before it. -/
theorem Holds.eval {m m' : Machine σ} (h : π.Holds m) {H : Host σ} {fuel : Nat} {I : Interp}
    {scope : Scope} {e : Expr} (he : π.Spares scope e) {r : Except Exit Value}
    (hrun : (CodeTree.eval H fuel I scope e).run m = some (r, m')) : π.Holds m' := by
  obtain ⟨hbound, hclosures⟩ := π.invariant.eval h.bound h.closures (P := ⟨I, scope, e⟩) he hrun
  exact ⟨hbound, fun i c hc => (hclosures i c hc).imp (fun h => h) fun hlinks link hlink =>
    hlinks link (List.mem_cons_of_mem _ hlink)⟩

end Pin

end CodeTree
