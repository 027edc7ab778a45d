import CodeTree.Machine

/-!
# Running actions one after another

Equations for running a sequence on a given machine, by what its first action ends with. An
outcome that is held back (`Run.step x.run`) never leaves early, so a sequence that starts with
it goes on in any case (`run_held_bind`).
-/

namespace CodeTree

variable {σ : Type}

section Sequences

variable {α β : Type} {x : Run σ α} {f : α → Run σ β} {m m' : Machine σ}

theorem run_bind (x : Run σ α) (f : α → Run σ β) (m : Machine σ) :
    (x >>= f).run m = (x.run m).bind fun y => (Run.resume y.1 >>= f).run y.2 := by
  show (x.run m).bind _ = _
  congr 1
  funext y
  obtain ⟨r, m'⟩ := y
  cases r <;> rfl

theorem run_bind_of_ok {a : α} (h : x.run m = some (.ok a, m')) :
    (x >>= f).run m = (f a).run m' := by
  rw [run_bind, h]
  rfl

theorem run_bind_of_error {exit : Exit} (h : x.run m = some (.error exit, m')) :
    (x >>= f).run m = some (.error exit, m') := by
  rw [run_bind, h]
  rfl

theorem run_bind_of_none (h : x.run m = none) : (x >>= f).run m = none := by
  rw [run_bind, h]
  rfl

theorem ok_of_run_bind {b : β} (h : (x >>= f).run m = some (.ok b, m')) :
    ∃ a m₁, x.run m = some (.ok a, m₁) ∧ (f a).run m₁ = some (.ok b, m') := by
  rw [run_bind] at h
  obtain ⟨⟨r, m₁⟩, hx, hrest⟩ := Option.bind_eq_some_iff.mp h
  cases r with
  | ok a => exact ⟨a, m₁, hx, hrest⟩
  | error exit => cases hrest

/-- An action that does not leave early goes on with what it gives. -/
theorem run_step_bind (x : Step σ α) (f : α → Run σ β) (m : Machine σ) :
    (Run.step x >>= f).run m = (x m).bind fun y => (f y.1).run y.2 := by
  cases h : x m with
  | none =>
    refine run_bind_of_none ?_
    show (x m).bind _ = _
    rw [h]
    rfl
  | some y =>
    have hstep : (Run.step x).run m = some (.ok y.1, y.2) := by
      show (x m).bind _ = _
      rw [h]
      rfl
    exact run_bind_of_ok hstep

theorem run_held_of_some {r : Except Exit α} (h : x.run m = some (r, m')) :
    (Run.step x.run).run m = some (.ok r, m') := by
  show (x.run m).bind _ = _
  rw [h]
  rfl

/-- An outcome that is held back is passed on, whatever it is. -/
theorem run_held_bind (x : Run σ α) (g : Except Exit α → Run σ β) (m : Machine σ) :
    (Run.step x.run >>= g).run m = (x.run m).bind fun y => (g y.1).run y.2 :=
  run_step_bind x.run g m

theorem run_held_bind_of_some {r : Except Exit α} (h : x.run m = some (r, m'))
    (g : Except Exit α → Run σ β) : (Run.step x.run >>= g).run m = (g r).run m' := by
  rw [run_held_bind, h]
  rfl

end Sequences

end CodeTree
