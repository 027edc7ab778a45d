import CodeTree.Builder.Block

/-!
# Building loops

A loop under construction hands its two jump targets to the code that builds its body.
`whileLoop` is an endless loop whose body starts by leaving when the test fails.
-/

namespace CodeTree

/-- The jump targets of a loop under construction. -/
structure LoopControl where
  breakLabel : Label
  continueLabel : Label

namespace LoopControl

def make : Make LoopControl := do
  let breakLabel ← Label.make .void (some "break")
  let continueLabel ← Label.make .void (some "continue")
  pure ⟨breakLabel, continueLabel⟩

/-- A jump out of the loop. -/
def leave (c : LoopControl) : Make Expr := Expr.jump .brk c.breakLabel none

/-- A jump to the next round. -/
def next (c : LoopControl) : Make Expr := Expr.jump .next c.continueLabel none

end LoopControl

section

variable {m : Type → Type} [Monad m] [MonadLiftT Make m] [MonadLiftT Build m]

/-- An endless loop, left through its break target. -/
def endlessLoop (f : LoopControl → BlockBuilder → m BlockBuilder) : m Expr := do
  let control ← LoopControl.make
  let body ← f control {}
  let block ← body.build
  Expr.loop block (some control.breakLabel) (some control.continueLabel)

/-- The statement that leaves a loop when the test fails. -/
def exitUnless (test : Expr) (control : LoopControl) : Make Expr := do
  let negated ← Expr.unary .not test
  let exit ← control.leave
  Expr.ifThen negated exit

/-- A loop that runs while a test holds. -/
def whileLoop (test : Expr) (f : LoopControl → BlockBuilder → m BlockBuilder) : m Expr :=
  endlessLoop fun control body => do
    let exit ← exitUnless test control
    f control (body.line exit)

end

end CodeTree
