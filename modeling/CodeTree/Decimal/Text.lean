import CodeTree.Decimal.Shortest

/-!
# The text of floating-point numbers

`floatText` writes the fewest digits that read back. Numbers from `10^-4` up to
`10^16` are written positionally with at least one digit after the point, others
with an exponent. `readFloat?` reads decimal text, rounding correctly.
-/

namespace CodeTree.Decimal

/-- The decisions of a number format that the digits leave open. -/
structure Format where
  /-- The least power of ten that is still written positionally. -/
  leastPositional : Int
  /-- The first power of ten that is not. -/
  pastPositional : Int
  exponentMark : String
  notANumber : String
  infinity : String

/-- How floating-point values are written. -/
def Format.value : Format := ⟨-4, 16, "e", "NaN", "inf"⟩

/-- The digits of `n`, without the zeros it ends in, as text. -/
def significant (n : Nat) : List Char :=
  ((Nat.toDigits 10 n).reverse.dropWhile (· == '0')).reverse

/-- Positional notation with at least one digit after the point. `point` is the
number of digits before it, and may be negative. -/
def positional (digits : List Char) (point : Int) : String :=
  match point with
  | .ofNat k =>
    let whole := digits.take k ++ List.replicate (k - digits.length) '0'
    let part := digits.drop k
    String.ofList ((if whole.isEmpty then ['0'] else whole) ++ '.' ::
      (if part.isEmpty then ['0'] else part))
  | .negSucc k => String.ofList ('0' :: '.' :: List.replicate (k + 1) '0' ++ digits)

/-- Exponent notation; the point is left out after a single digit. -/
def exponential (f : Format) (digits : List Char) (exponent : Int) : String :=
  let mantissa :=
    match digits with
    | [] => "0"
    | [d] => String.ofList [d]
    | d :: rest => String.ofList (d :: '.' :: rest)
  mantissa ++ f.exponentMark ++ toString exponent

/-- A positive number in the given format. -/
def positiveText (f : Format) (b : Binary) : String :=
  let d := b.shortest
  let digits := significant d.digits
  let point := (digitCount d.digits : Int) + d.exponent
  let magnitude := b.magnitude
  if f.leastPositional ≤ magnitude ∧ magnitude < f.pastPositional then positional digits point
  else exponential f digits (point - 1)

/-- The number of values of the fraction field, which has 52 bits. A normal number has a bit
of this weight that is not stored. -/
def fractionSpan : Nat := 0x10000000000000

/-- The number of values of the exponent field, which has 11 bits. -/
def exponentSpan : Nat := 0x800

/-- The parts of a 64-bit pattern: sign, exponent field, fraction field. -/
def fields (bits : UInt64) : Bool × Nat × Nat :=
  let n := bits.toNat
  let high := n / fractionSpan
  (high / exponentSpan == 1, high % exponentSpan, n % fractionSpan)

/-- The text of the number with the given bit pattern. -/
def bitsText (f : Format) (bits : UInt64) : String :=
  let (negative, exponent, fraction) := fields bits
  let sign := if negative then "-" else ""
  if exponent = 2047 then
    if fraction = 0 then sign ++ f.infinity else f.notANumber
  else if exponent = 0 then
    if fraction = 0 then sign ++ "0.0"
    else sign ++ positiveText f ⟨fraction, -1074, false⟩
  else
    let mantissa := fractionSpan + fraction
    sign ++ positiveText f ⟨mantissa, (exponent : Int) - 1075, fraction = 0 && 1 < exponent⟩

/-- The text of a floating-point value. -/
def floatText (x : Float) : String := bitsText .value x.toBits

/-! ## Reading -/

/-- A run of digits as a number, most significant first. -/
def ofDigits (cs : List Char) : Nat :=
  cs.foldl (fun n c => 10 * n + (c.toNat - '0'.toNat)) 0

/-- A signed run of digits; nothing else may follow. -/
def readInteger? (cs : List Char) : Option Int :=
  let (negative, digits) :=
    match cs with
    | '-' :: rest => (true, rest)
    | '+' :: rest => (false, rest)
    | rest => (false, rest)
  if digits.isEmpty || !digits.all Char.isDigit then none
  else some (if negative then -(ofDigits digits : Int) else ofDigits digits)

/-- Unsigned decimal text: digits with an optional point and exponent. -/
def readPositive? (cs : List Char) : Option Float :=
  let whole := cs.takeWhile Char.isDigit
  let rest := cs.dropWhile Char.isDigit
  let (part, rest) :=
    match rest with
    | '.' :: r => (r.takeWhile Char.isDigit, r.dropWhile Char.isDigit)
    | r => ([], r)
  let exponent? : Option Int :=
    match rest with
    | [] => some 0
    | 'e' :: r | 'E' :: r => readInteger? r
    | _ => none
  if whole.isEmpty && part.isEmpty then none
  else exponent?.map fun exponent =>
    let scale : Int := exponent - part.length
    Float.ofScientific (ofDigits (whole ++ part)) (scale < 0) scale.natAbs

/-- Decimal text, or one of the names of the values that are no finite number. -/
def readFloat? (s : String) : Option Float :=
  let (negative, cs) :=
    match s.toList with
    | '-' :: rest => (true, rest)
    | '+' :: rest => (false, rest)
    | rest => (false, rest)
  let magnitude? :=
    match String.ofList (cs.map Char.toLower) with
    | "inf" | "infinity" => some (1.0 / 0.0)
    | "nan" => some (0.0 / 0.0)
    | _ => readPositive? cs
  magnitude?.map fun x => if negative then -x else x

end CodeTree.Decimal
