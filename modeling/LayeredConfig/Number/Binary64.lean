namespace LayeredConfig

/-- A finite number of the binary64 format, exactly: its sign and
`significand · 2 ^ exponent`. The rounding below gives each value one form:
the significand is below `2 ^ 53`, and below `2 ^ 52` only at exponent -1074. -/
structure Binary64 where
  negative : Bool
  significand : Nat
  exponent : Int
  deriving DecidableEq, Repr, Inhabited

namespace Binary64

def zero (negative : Bool) : Binary64 :=
  ⟨negative, 0, -1074⟩

def isZero (x : Binary64) : Bool :=
  x.significand == 0

/-- Numeric equality: the two zeros are equal, all else is equal in one form only. -/
def sameValue (x y : Binary64) : Bool :=
  (x.isZero && y.isZero) || x == y

/-- The quotient of two naturals, the divisor positive, to the nearest
natural; a tie goes to the even one. -/
def divNearest (num den : Nat) : Nat :=
  let q := num / den
  let r := num % den
  if den < 2 * r ∨ (den = 2 * r ∧ q % 2 = 1) then q + 1 else q

/-- The least significand of 53 bits. -/
def leastNormal : Nat := 4503599627370496

/-- The fraction `num / den` scaled by `2 ^ (-e)`, as a fraction. -/
def scaled (num den : Nat) (e : Int) : Nat × Nat :=
  if e < 0 then (num * Nat.pow 2 e.natAbs, den) else (num, den * Nat.pow 2 e.natAbs)

/-- The nearest binary64 number to `num / den`, ties to even; none when it is
too large. The exponent is chosen so that the scaled quotient has 53 bits,
or is the least one. -/
def ofFraction? (negative : Bool) (num den : Nat) : Option Binary64 :=
  if num = 0 then some (zero negative)
  else
    let guess : Int := (num.log2 : Int) - den.log2 - 52
    let (n, d) := scaled num den guess
    let fitted := if n < d * leastNormal then guess - 1 else guess
    let e := max fitted (-1074)
    let (n, d) := scaled num den e
    let m := divNearest n d
    let (m, e) := if m = 2 * leastNormal then (leastNormal, e + 1) else (m, e)
    if 971 < e then none else some ⟨negative, m, e⟩

/-- The magnitude as a fraction of naturals. -/
def fraction (x : Binary64) : Nat × Nat :=
  if x.exponent < 0 then (x.significand, Nat.pow 2 x.exponent.natAbs)
  else (x.significand * Nat.pow 2 x.exponent.natAbs, 1)

def mul? (x y : Binary64) : Option Binary64 :=
  let (a, b) := x.fraction
  let (c, d) := y.fraction
  ofFraction? (x.negative != y.negative) (a * c) (b * d)

/-- Division by a number other than zero. -/
def div? (x y : Binary64) : Option Binary64 :=
  let (a, b) := x.fraction
  let (c, d) := y.fraction
  ofFraction? (x.negative != y.negative) (a * d) (b * c)

/-- The nearest binary64 number to `digits · 10 ^ exponent`. A number whose
decimal point is over 400 places away is known to be zero or too large. -/
def ofDecimal? (negative : Bool) (digits : Nat) (exponent : Int) : Option Binary64 :=
  if digits = 0 then some (zero negative)
  else
    let magnitude := exponent + (Nat.toDigits 10 digits).length
    if 400 < magnitude then none
    else if magnitude < -400 then some (zero negative)
    else if exponent < 0 then ofFraction? negative digits (Nat.pow 10 exponent.natAbs)
    else ofFraction? negative (digits * Nat.pow 10 exponent.natAbs) 1

example : ofDecimal? false 1 (-1) = some ⟨false, 7205759403792794, -56⟩ := by decide +kernel
example : ofDecimal? false 5 (-324) = some ⟨false, 1, -1074⟩ := by decide +kernel
example : ofDecimal? false 17976931348623159 292 = none := by decide +kernel

end Binary64

end LayeredConfig
