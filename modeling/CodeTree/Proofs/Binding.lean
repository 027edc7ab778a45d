import CodeTree.Proofs.Screening

/-!
# The instance takes the place of the parameter

A closure is described for an instance: what it describes does not mention the closure's parameter
any more. The instance takes the place of references, and of nothing else, so this takes a body that
neither assigns the parameter nor declares it again, and that refers to it at the type of the
instance (`Ban.misuse`). Nor may the instance, captured trees and trees that host code answers with
bring the parameter back (`Ban.mention`).

A body that constructs or invokes something is described without the instance, so the parameter may
not occur in it at all: `constructed_parameter_stays` is a closure where it does.

Main statement: `parameter_bound`.
-/

namespace CodeTree

variable {σ : Type}

/-! ## Mentions of a variable -/

namespace Ban

/-- Trees without the variable. -/
def mention (o : Param) : Ban where
  ty _ := false
  reference p := p == o
  binding p := p == o
  void := rfl

/-- Trees in which the variable stands for a tree of a given type: it is neither assigned nor
declared, and has no other type. -/
def misuse (o : Param) (ty : Ty) : Ban where
  ty _ := false
  reference p := p == o && !(ty == p.ty)
  binding p := p == o
  void := rfl

variable {o : Param} {ty : Ty} {e : Expr}

/-- The two bans differ in references only. -/
theorem hits_misuse_of_not_parameter (h : e.asParameter? = none) :
    (misuse o ty).hits e = (mention o).hits e := by
  obtain ⟨id, s, ty'⟩ := e
  cases s with
  | parameter p => cases h
  | _ => rfl

theorem hits_mention_of_parameter {p : Param} (h : e.shape = .parameter p) :
    (mention o).hits e = (p == o) := by
  simp [hits, h, mention, Expr.tys, Expr.bindings, Shape.bindings]

theorem hits_misuse_of_parameter {p : Param} (h : e.shape = .parameter p) :
    (misuse o ty).hits e = (p == o && !(ty == p.ty)) := by
  simp [hits, h, misuse, Expr.tys, Expr.bindings, Shape.bindings]

theorem clears_misuse_of_mention (h : (mention o).Clears e) : (misuse o ty).Clears e := by
  refine Expr.someNode_eq_false_iff.mpr fun n hn => ?_
  have hn : (mention o).hits n = false := Expr.someNode_eq_false_iff.mp h n hn
  cases hparameter : n.asParameter? with
  | none => exact (hits_misuse_of_not_parameter hparameter).trans hn
  | some p =>
    have hshape := Expr.shape_of_asParameter? hparameter
    rw [hits_mention_of_parameter hshape] at hn
    rw [hits_misuse_of_parameter hshape, hn, Bool.false_and]

theorem clearsValue_misuse_of_mention {v : Value} (h : (mention o).ClearsValue v) :
    (misuse o ty).ClearsValue v := by
  cases v with
  | node tree => exact clears_misuse_of_mention h
  | _ => rfl

/-- A tree without the variable has no free reference to it and no assignment to it. -/
theorem not_mentioned (h : (mention o).Clears e) :
    Expr.isAmong o e.freeParameters = false ∧ e.assigns o = false := by
  have hnodes := Expr.someNode_eq_false_iff.mp h
  constructor
  · refine List.any_eq_false.mpr fun p hp hpo => ?_
    rcases Expr.mem_freeFrom e hp with hp | ⟨n, hn, hshape⟩
    · cases hp
    · have hhit := hnodes n hn
      rw [hits_mention_of_parameter hshape, hpo] at hhit
      cases hhit
  · refine Expr.someNode_eq_false_iff.mpr fun n hn => ?_
    have hhit := hnodes n hn
    rw [hits, Bool.or_eq_false_iff] at hhit
    split
    next target value hshape =>
      have := hhit.2
      rw [hshape] at this
      exact this
    next => rfl

theorem not_bound (h : (misuse o ty).hits e = false) : Expr.isAmong o e.bindings = false := by
  rw [hits, Bool.or_eq_false_iff, Bool.or_eq_false_iff] at h
  exact h.1.2

/-! ## Binding -/

/-- What stands for a reference does not mention the variable. -/
theorem clears_mention_of_replacement {self : Expr} (hself : (mention o).Clears self) {p : Param}
    (hshape : e.shape = .parameter p) (he : (misuse o self.ty).hits e = false) :
    (mention o).Clears (Expr.replacement [self] e p) := by
  have hleaf : ∀ a, a ∉ e.children := fun a ha => by cases (Expr.mem_children hshape).mp ha
  rw [hits_misuse_of_parameter hshape] at he
  cases hpo : p == o with
  | false =>
    rcases Expr.replacement_mem [self] e p with h | h
    · rw [h]
      refine clears_iff.mpr ⟨?_, fun a ha => absurd ha (hleaf a)⟩
      exact (hits_mention_of_parameter hshape).trans hpo
    · exact (List.mem_singleton.mp h).symm ▸ hself
  | true =>
    have hty : (self.ty == p.ty) = true := by simpa [hpo] using he
    have hother : (self.asParameter? == some p) = false := by
      refine Bool.eq_false_iff.mpr fun hsame => ?_
      cases hq : self.asParameter? with
      | none => rw [hq] at hsame; cases hsame
      | some q =>
        have hqp : (q == p) = true := by rw [hq] at hsame; exact hsame
        have hhit := (hits_mention_of_parameter (Expr.shape_of_asParameter? hq)).symm.trans
          (clears_iff.mp hself).1
        rw [Param.beq_iff] at hqp hpo
        exact Bool.eq_false_iff.mp hhit (Param.beq_iff.mpr (hqp.trans hpo))
    rw [Expr.replacement, List.find?_cons_of_pos (p := fun t : Expr => t.ty == p.ty) hty]
    simpa [hother] using hself

/-- A variable is gone once a tree without it stands for it. -/
theorem clears_mention_of_bound {self : Expr} (hself : (mention o).Clears self) (e : Expr) :
    ∀ {bound : List Param} {r : Expr}, (misuse o self.ty).Clears e →
      Expr.isAmong o bound = false → e.Substituted [self] bound r → (mention o).Clears r := by
  induction e using Expr.induction with
  | step e ih =>
    intro bound r he hbound h
    obtain ⟨hnode, hchildren⟩ := clears_iff.mp he
    cases hparameter : e.asParameter? with
    | some p =>
      have hshape := Expr.shape_of_asParameter? hparameter
      rw [Expr.substituted_of_some hparameter] at h
      split at h
      next hamong =>
        -- a reference that stays is one to a variable that is declared around it
        rw [h]
        refine clears_iff.mpr ⟨(hits_mention_of_parameter hshape).trans ?_, fun a ha => ?_⟩
        · refine Bool.eq_false_iff.mpr fun hpo => Bool.eq_false_iff.mp hbound ?_
          obtain ⟨q, hq, hid⟩ := Expr.isAmong_iff.mp hamong
          exact Expr.isAmong_iff.mpr ⟨q, hq, hid.trans (Param.beq_iff.mp hpo)⟩
        · cases (Expr.mem_children hshape).mp ha
      next => exact h ▸ clears_mention_of_replacement hself hshape hnode
    | none =>
      have hkeeps := (Expr.substituted_of_none hparameter bound r).mp h
      have hbindings : Expr.isAmong o (e.bindings ++ bound) = false := by
        rw [Expr.isAmong, List.any_append]
        exact Bool.or_eq_false_iff.mpr ⟨not_bound hnode, hbound⟩
      rw [hits_misuse_of_not_parameter hparameter] at hnode
      exact clears_of_keeps hkeeps hnode fun a ha c => ih a ha (hchildren a ha) hbindings

end Ban

/-! ## Closures -/

/-- An instance takes the place of the closure's parameter: whatever the shape of the body is, what
the closure describes for the instance has no free reference to the parameter and no assignment to
it. The instance does not mention the parameter, and nor does what records hold and host code
answers; the body does not assign the parameter or declare it again, and does not construct or
invoke something in terms of it. -/
theorem parameter_bound {L : Ledger σ} {H : Host σ} {fuel : Nat} {options : Normalization}
    {S : Set Expr} {m m' : Machine σ} {o : Param} {self closure body r : Expr}
    (hclosure : closure.shape = .lambda [o] body)
    (h : L.Starts H fuel (Ban.mention o).ClearsValue S m (some self) closure)
    (hself : (Ban.mention o).Clears self) (hheld : (Ban.mention o).ClearsHeld self)
    (hbody : (Ban.misuse o self.ty).Clears body) (hcaptured : (Ban.mention o).ClearsHeld body)
    (hunbound : ((∃ ctor args, body.shape = .construct ctor args) ∨
      ∃ target args, body.shape = .invoke target args) → (Ban.mention o).Clears body)
    (hrun : describedClosure H fuel options closure (some self) m = some (r, m')) :
    Expr.isAmong o r.freeParameters = false ∧ r.assigns o = false := by
  refine Ban.not_mentioned ?_
  have hdescribes : DescribesFor (Ban.mention o).ClearsValue options (some self) body r := by
    have hsame : closure.closureBody = body := by rw [Expr.closureBody, hclosure]
    exact hsame ▸ h.describes hrun
  cases hdescribes with
  | described top result =>
    have hclear := hunbound top
    exact (Ban.clears_of_resolves (fun _ h => h) body).2 (Ban.admits_of_clears body hclear hcaptured)
      (Ban.clearsTarget_of_clears hclear) r result
  | call shape receiver args result =>
    -- the instance is put in first: what is normalized then does not mention the parameter
    have hbound : ∀ a ∈ body.children, ∀ c, a.Substituted [self] [] c → (Ban.mention o).Clears c :=
      fun a ha c => Ban.clears_mention_of_bound hself a ((Ban.clears_iff.mp hbody).2 a ha) rfl
    refine Ban.clears_of_settledAs result rfl rfl ?_ ?_
    · rintro - c ⟨⟩
      cases receiver with
      | some hreceiver => exact hbound _ ((Expr.mem_children shape).mpr List.mem_cons_self) c hreceiver
    · refine Ban.clears_of_forall₂ args fun a ha c hac => ?_
      obtain ⟨e, hsub, hnormal⟩ := hac
      have hmem : a ∈ body.children := (Expr.mem_children shape).mpr (List.mem_append_right _ ha)
      have hin : (Ban.mention o).ClearsHeld e := Ban.clearsHeld_of_substituted (hcaptured.child hmem)
        (List.forall_mem_singleton.mpr hheld) hsub
      exact (Ban.clears_of_resolves (fun _ h => h) e).1
        (Ban.admits_of_clears e (hbound a hmem e hsub) hin) c hnormal
  | @other e shape normal result =>
    -- the parameter is not misused in the normal form either, and the instance is put in after that
    have hin : (Ban.misuse o self.ty).ClearsHeld body := fun n hn name v hfield =>
      Ban.clearsValue_misuse_of_mention (hcaptured n hn name v hfield)
    have hnormal := (Ban.clears_of_resolves (fun _ h => Ban.clearsValue_misuse_of_mention h) body).1
      (Ban.admits_of_clears body hbody hin) e normal
    exact Ban.clears_mention_of_bound hself e hnormal rfl result

namespace Sample

def plainObject : Ctor := ⟨.object, [.int], 0⟩

/-- A closure that makes an object from its parameter. -/
def making : Expr :=
  .mk 4 (.lambda [closureVar]
    (.mk 3 (.construct plainObject [.mk 2 (.parameter closureVar) .int]) .object))
    (.func [.int] .object)

end Sample

/-- The instance is in the argument, beside the tree that was captured. -/
theorem passing_bound :
    describedClosure Sample.mute 1 {} (Sample.passing Sample.floored) (some Sample.seven)
        (Sample.shelf 15) =
      some (.mk 17 (.call none Sample.bake [.mk 16 (.binary .add Sample.seven Sample.floored) .int])
        .int, Sample.shelf 18) ∧
    Expr.isAmong Sample.closureVar (Expr.mk 17 (.call none Sample.bake
      [.mk 16 (.binary .add Sample.seven Sample.floored) .int]) .int).freeParameters = false ∧
    (Expr.mk 17 (.call none Sample.bake [.mk 16 (.binary .add Sample.seven Sample.floored) .int])
      .int).assigns Sample.closureVar = false := by
  have hrun : describedClosure Sample.mute 1 {} (Sample.passing Sample.floored) (some Sample.seven)
      (Sample.shelf 15) =
        some (.mk 17 (.call none Sample.bake
          [.mk 16 (.binary .add Sample.seven Sample.floored) .int]) .int, Sample.shelf 18) := rfl
  refine ⟨hrun, parameter_bound rfl (Sample.passing_starts _) rfl ?_ ?_ ?_ ?_ hrun⟩
  · exact Ban.clearsHeld_of_members (by decide)
  · rfl
  · exact Ban.clearsHeld_of_members (by decide)
  · rintro (⟨ctor, args, h⟩ | ⟨target, args, h⟩) <;> cases h

/-- A construction is described without the instance: the closure takes `o` to `new object(o)`, and
`new object(o)` is what it describes for `7`. -/
theorem constructed_parameter_stays :
    Sample.making.shape = .lambda [Sample.closureVar] Sample.making.closureBody ∧
    (Sample.seven.ty == Sample.closureVar.ty) = true ∧
    (Ban.mention Sample.closureVar).Clears Sample.seven ∧
    (Ban.misuse Sample.closureVar Sample.seven.ty).Clears Sample.making.closureBody ∧
    describedClosure Sample.mute 1 {} Sample.making (some Sample.seven) (Sample.shelf 10) =
      some (.mk 10 (.construct Sample.plainObject [.mk 2 (.parameter Sample.closureVar) .int]) .object,
        Sample.shelf 11) ∧
    Expr.isAmong Sample.closureVar (Expr.mk 10 (.construct Sample.plainObject
      [.mk 2 (.parameter Sample.closureVar) .int]) .object).freeParameters = true :=
  ⟨rfl, rfl, rfl, rfl, rfl, rfl⟩

end CodeTree
