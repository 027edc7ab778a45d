/-!
# Shortest decimal digits

A positive binary number `m · 2^q` is printed with the fewest decimal digits
that still lie inside its rounding interval, so that reading the text back gives
the same number. For each digit count the two neighbours of the value on that
decimal grid are tested in exact arithmetic; the first grid with a hit wins, and
of two hits the nearer.

* `Binary` — a positive number `m · 2^q` together with its rounding interval;
* `Digits` — an integer and the power of ten it is scaled by;
* `Binary.shortest` — the digits.
-/

namespace CodeTree.Decimal

/-- The number `mantissa · 2^exponent` of a binary format. `isLow` says that the
next lower number is only half as far away as the next higher one. -/
structure Binary where
  mantissa : Nat
  exponent : Int
  isLow : Bool
  deriving Repr

/-- The decimal number `digits · 10^exponent`. -/
structure Digits where
  digits : Nat
  exponent : Int
  deriving Repr

/-- A nonnegative fraction; the denominator is positive wherever one is built. -/
structure Ratio where
  num : Nat
  den : Nat

namespace Ratio

/-- The fraction `n · base^e`. -/
def scaled (n base : Nat) (e : Int) : Ratio :=
  match e with
  | .ofNat k => ⟨n * base.pow k, 1⟩
  | .negSucc k => ⟨n, base.pow (k + 1)⟩

def lt (a b : Ratio) : Bool := a.num * b.den < b.num * a.den

def le (a b : Ratio) : Bool := a.num * b.den ≤ b.num * a.den

/-- The distance between two fractions. -/
def dist (a b : Ratio) : Ratio :=
  let x := a.num * b.den
  let y := b.num * a.den
  ⟨(x - y) + (y - x), a.den * b.den⟩

end Ratio

namespace Digits

/-- The value of a decimal number. -/
def value (d : Digits) : Ratio := .scaled d.digits 10 d.exponent

end Digits

/-- How many decimal digits a number is written with. -/
def digitCount (n : Nat) : Nat := (Nat.toDigits 10 n).length

namespace Binary

/-- The value of a binary number. -/
def value (b : Binary) : Ratio := .scaled b.mantissa 2 b.exponent

/-- Whether a decimal number reads back as `b`: it lies between the midpoints to
`b`'s neighbours. A midpoint itself goes to the even mantissa. -/
def readsBack (b : Binary) (d : Digits) : Bool :=
  let low : Ratio := .scaled (4 * b.mantissa - (if b.isLow then 1 else 2)) 2 (b.exponent - 2)
  let high : Ratio := .scaled (4 * b.mantissa + 2) 2 (b.exponent - 2)
  if b.mantissa % 2 = 0 then low.le d.value && d.value.le high
  else low.lt d.value && d.value.lt high

/-- The exponent `p` with `10^p ≤ b < 10^(p+1)`. The value is first scaled by a
power of ten large enough to make it at least one. -/
def magnitude (b : Binary) : Int :=
  let lift := b.exponent.natAbs
  let v := b.value
  (digitCount (v.num * Nat.pow 10 lift / v.den) : Int) - 1 - lift

/-- The neighbours of `b` from below and from above on the grid `10^e`. -/
def neighbours (b : Binary) (e : Int) : Digits × Digits :=
  let v := b.value
  let down :=
    match e with
    | .ofNat k => v.num / (v.den * Nat.pow 10 k)
    | .negSucc k => v.num * Nat.pow 10 (k + 1) / v.den
  (⟨down, e⟩, ⟨down + 1, e⟩)

/-- The point of the grid `10^e` that reads back as `b`, if there is one: the
nearer of the two neighbours, and the upper one when they are equally near. -/
def onGrid (b : Binary) (e : Int) : Option Digits :=
  let (down, up) := b.neighbours e
  match b.readsBack down, b.readsBack up with
  | true, true =>
    if (b.value.dist down.value).lt (b.value.dist up.value) then some down else some up
  | true, false => some down
  | false, true => some up
  | false, false => none

/-- The first grid with a hit, from one digit to `n` digits; without one, the
neighbour from below on the finest grid. -/
def shortestFrom (b : Binary) (top : Int) : Nat → Nat → Digits
  | _, 0 => (b.neighbours top).1
  | taken, n + 1 =>
    let e := top - taken
    match b.onGrid e with
    | some d => d
    | none => if n = 0 then (b.neighbours e).1 else shortestFrom b top (taken + 1) n

/-- The fewest digits that read back as `b`. Seventeen always suffice for a
number of 53 significant bits. -/
def shortest (b : Binary) : Digits := b.shortestFrom b.magnitude 0 17

end Binary

end CodeTree.Decimal
