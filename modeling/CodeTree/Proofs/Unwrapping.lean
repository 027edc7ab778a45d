import CodeTree.Proofs.Screening

/-!
# Wrapper types go away

The type of a captured tree belongs to closures that are still being described. Where a body uses it
only for reads of captured trees that are free of it, nothing of what the closure describes has such
a type, and nothing that host code answers brings it back.

A read that is not normalized keeps its wrapper. This happens to the target of an invocation that is
described, and to the receiver of a call to which an instance is bound; there the body may not have
reads. A call that gives a captured tree has the wrapper type itself, so it is not closed, and it
stays when it is converted: such calls are left out.

Main statement: `wrappers_unwrapped`. The receiver is a real exception: `captured_receiver_kept`.
-/

namespace CodeTree

variable {σ : Type}

/-- Trees in which nothing has the type of a captured tree. -/
def Ban.wrappers : Ban where
  ty := Ty.isNode
  reference _ := false
  binding _ := false
  void := rfl

/-- No node of what a closure describes has the type of a captured tree. The body has this type only
in reads of captured trees (`Ban.Admits`), but not in the target of an invocation that is described,
nor in the receiver of a method to which an instance is bound. -/
theorem wrappers_unwrapped {L : Ledger σ} {H : Host σ} {fuel : Nat} {options : Normalization}
    {S : Set Expr} {m m' : Machine σ} {instance? : Option Expr} {closure r : Expr}
    (h : L.Starts H fuel Ban.wrappers.ClearsValue S m instance? closure)
    (hself : ∀ self ∈ instance?, Ban.wrappers.Clears self ∧ Ban.wrappers.ClearsHeld self)
    (hbody : Ban.wrappers.Admits closure.closureBody)
    (htarget : Ban.wrappers.ClearsTarget closure.closureBody)
    (hreceiver : instance?.isSome → ∀ receiver method args,
      closure.closureBody.shape = .call (some receiver) method args → method.isStatic = false →
      Ban.wrappers.Clears receiver)
    (hrun : describedClosure H fuel options closure instance? m = some (r, m')) :
    r.someNode (·.ty.isNode) = false := by
  have hclears : Ban.wrappers.Clears r := by
    have hdescribes := h.describes hrun
    cases instance? with
    | none => exact (Ban.clears_of_resolves (fun _ h => h) _).2 hbody htarget r hdescribes
    | some self =>
      have hpool : ∀ t ∈ [self], Ban.wrappers.Clears t ∧ Ban.wrappers.ClearsHeld t :=
        List.forall_mem_singleton.mpr (hself self rfl)
      cases hdescribes with
      | described top result =>
        exact (Ban.clears_of_resolves (fun _ h => h) _).2 hbody htarget r result
      | call shape receiver args result =>
        obtain ⟨hnode, hchildren⟩ := hbody.of_isDescribed (by rw [Expr.isDescribed, shape])
        obtain ⟨hret, hdeclaring⟩ := Ban.tys_of_call hnode shape
        refine Ban.clears_of_settledAs result hret hdeclaring ?_ ?_
        · rintro hinstance c ⟨⟩
          cases receiver with
          | some hsub =>
            exact Ban.clears_of_substituted (hreceiver rfl _ _ _ shape hinstance)
              (fun t ht => (hpool t ht).1) hsub
        · refine Ban.clears_of_forall₂ args fun a ha c hac => ?_
          obtain ⟨e, hsub, hnormal⟩ := hac
          have hadmits := hchildren a ((Expr.mem_children shape).mpr (List.mem_append_right _ ha))
          exact (Ban.clears_of_resolves (fun _ h => h) e).1
            (Ban.admits_of_substituted hpool a hadmits hsub) c hnormal
      | other shape normal result =>
        have hnormal := (Ban.clears_of_resolves (fun _ h => h) _).1 hbody _ normal
        exact Ban.clears_of_substituted hnormal (fun t ht => (hpool t ht).1) result
  refine Expr.someNode_eq_false_iff.mpr fun n hn => ?_
  exact Ban.ty_of_hits (Expr.someNode_eq_false_iff.mp hclears n hn) List.mem_cons_self

namespace Sample

theorem heldUse_admitted {tree : Expr} (htree : Ban.wrappers.Clears tree) :
    Ban.wrappers.Admits (heldUse tree) :=
  .read rfl (Ban.ty_of_hits (Ban.clears_iff.mp htree).1 List.mem_cons_self) htree

theorem passing_admitted : Ban.wrappers.Admits (passing floored).closureBody := by
  have hsum : Ban.wrappers.Admits (adding floored).closureBody := by
    refine .node rfl ?_ (fun _ h => nomatch h) fun _ _ _ h => nomatch h
    refine List.forall_mem_cons.mpr ⟨?_, List.forall_mem_singleton.mpr (heldUse_admitted rfl)⟩
    exact Ban.admits_of_clears _ rfl (Ban.clearsHeld_of_members (by decide))
  exact .node rfl (List.forall_mem_singleton.mpr hsum) (fun _ h => nomatch h) fun _ _ _ h => nomatch h

/-- Something that walks. -/
def walker : Ty := .interface "IWalk"

def animal : Ty := .rootClass "Animal"

def dog : Ty := .subclass "Dog" animal

def walk : Method := .virtual "Walk" walker [] .int

/-- A closure that makes the tree walk. -/
def walking (tree : Expr) : Expr :=
  .mk 8 (.lambda [⟨1, some "o", dog⟩] (.mk 7 (.call (some (heldUse tree)) walk []) .int))
    (.func [dog] .int)

def nullDog : Expr := .mk 9 (.constant .null) dog

end Sample

/-- The wrapper around the tree is gone from the argument. -/
theorem passing_unwrapped :
    describedClosure Sample.mute 1 {} (Sample.passing Sample.floored) (some Sample.seven)
        (Sample.shelf 15) =
      some (.mk 17 (.call none Sample.bake [.mk 16 (.binary .add Sample.seven Sample.floored) .int])
        .int, Sample.shelf 18) ∧
    (Expr.mk 17 (.call none Sample.bake
      [.mk 16 (.binary .add Sample.seven Sample.floored) .int]) .int).someNode (·.ty.isNode) =
        false := by
  have hrun : describedClosure Sample.mute 1 {} (Sample.passing Sample.floored) (some Sample.seven)
      (Sample.shelf 15) =
        some (.mk 17 (.call none Sample.bake
          [.mk 16 (.binary .add Sample.seven Sample.floored) .int]) .int, Sample.shelf 18) := rfl
  refine ⟨hrun, wrappers_unwrapped (Sample.passing_starts _) ?_ Sample.passing_admitted ?_ ?_ hrun⟩
  · rintro _ ⟨⟩
    exact ⟨rfl, Ban.clearsHeld_of_members (by decide)⟩
  · intro target args h
    cases h
  · intro _ receiver method args h
    cases h

/-- A captured tree that receives a call keeps its wrapper where an instance is bound: the closure
reads an animal that walks, and describes the read. -/
theorem captured_receiver_kept :
    Ban.wrappers.Admits (Sample.walking (Sample.outer Sample.animal)).closureBody ∧
    Ban.wrappers.Clears Sample.nullDog ∧
    describedClosure Sample.mute 1 {} (Sample.walking (Sample.outer Sample.animal))
        (some Sample.nullDog) (Sample.shelf 12) =
      some (.mk 13 (.call (some (.mk 12 (.convert .cast
        (Sample.heldUse (Sample.outer Sample.animal))) Sample.walker)) Sample.walk []) .int,
        Sample.shelf 14) ∧
    (Expr.mk 13 (.call (some (.mk 12 (.convert .cast
      (Sample.heldUse (Sample.outer Sample.animal))) Sample.walker)) Sample.walk []) .int).someNode
        (·.ty.isNode) = true := by
  refine ⟨?_, rfl, rfl, rfl⟩
  exact .node rfl (List.forall_mem_singleton.mpr (Sample.heldUse_admitted rfl))
    (fun _ h => nomatch h) fun _ _ _ h => nomatch h

end CodeTree
