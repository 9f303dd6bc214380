import LayeredConfig.Number.Binary64

namespace LayeredConfig

/-- A positive decimal number `digits · 10 ^ exponent`. -/
structure Decimal where
  digits : Nat
  exponent : Int
  deriving DecidableEq, Repr

namespace Decimal

/-- Drops trailing zeros of the digits, at most as many as `fuel`. -/
def trim : Nat → Decimal → Decimal
  | 0, d => d
  | fuel + 1, d =>
    if d.digits ≠ 0 ∧ d.digits % 10 = 0 then trim fuel ⟨d.digits / 10, d.exponent + 1⟩ else d

/-- The exponent of the first digit of the positive fraction `num / den`. -/
def leading (num den : Nat) : Int :=
  if den ≤ num then ((Nat.toDigits 10 (num / den)).length : Int) - 1
  else
    let places := (Nat.toDigits 10 (den / num)).length - 1
    if den ≤ num * Nat.pow 10 places then -(places : Int) else -(places : Int) - 1

/-- The reals that round to a positive binary64 number: two bounds over one
denominator, and whether the bounds belong to it. -/
structure Interval where
  low : Nat
  value : Nat
  high : Nat
  den : Nat
  closed : Bool

/-- The half distance to the lower neighbour is smaller at a power of two. -/
def interval (x : Binary64) : Interval :=
  let lowGap := if x.significand = Binary64.leastNormal ∧ -1074 < x.exponent then 1 else 2
  let low := 4 * x.significand - lowGap
  let high := 4 * x.significand + 2
  let (scale, den) :=
    if x.exponent < 2 then (1, Nat.pow 2 (2 - x.exponent).natAbs) else (Nat.pow 2 (x.exponent - 2).natAbs, 1)
  ⟨low * scale, 4 * x.significand * scale, high * scale, den, x.significand % 2 = 0⟩

/-- Whether the decimal lies in the interval, compared over a common
denominator. -/
def Interval.holds (i : Interval) (d : Decimal) : Bool :=
  let scale := Nat.pow 10 d.exponent.natAbs
  let (num, den) := if d.exponent < 0 then (d.digits, scale) else (d.digits * scale, 1)
  let scaled := num * i.den
  if i.closed then i.low * den ≤ scaled ∧ scaled ≤ i.high * den else i.low * den < scaled ∧ scaled < i.high * den

/-- The two neighbours of the value on the grid of multiples of `10 ^ e` that
lie in the interval, reduced to the nearer one; a tie goes to the even one. -/
def Interval.nearestOnGrid? (i : Interval) (e : Int) : Option Decimal :=
  let scale := Nat.pow 10 e.natAbs
  let (num, den) := if e < 0 then (i.value * scale, i.den) else (i.value, i.den * scale)
  let below : Decimal := ⟨num / den, e⟩
  let above : Decimal := ⟨num / den + 1, e⟩
  match i.holds below && below.digits ≠ 0, i.holds above with
  | false, false => none
  | true, false => some below
  | false, true => some above
  | true, true => some ⟨Binary64.divNearest num den, e⟩

/-- The first grid, from coarse to fine, that has a point in the interval. -/
def searchGrids (i : Interval) : Nat → Int → Option Decimal
  | 0, _ => none
  | fuel + 1, e => (i.nearestOnGrid? e).orElse fun _ => searchGrids i fuel (e - 1)

/-- The fewest digits that read back as the given number other than zero, and
of those the nearest. Seventeen digits always suffice. -/
def shortest (x : Binary64) : Decimal :=
  let i := interval x
  ((searchGrids i 18 (leading i.value i.den + 1)).getD ⟨0, 0⟩).trim 20

end Decimal

/-- How a number with a fraction is laid out from its shortest digits. The
exponent of the first digit decides between places and scientific form, and
`plus` whether a positive power of ten carries its sign. -/
structure NumberLayout where
  positional : Int → Bool
  plus : Bool

namespace NumberLayout

/-- Places from 0.00001 up to below 10^16; a positive power has its sign. -/
def signed : NumberLayout :=
  ⟨fun e => -5 ≤ e && e < 16, true⟩

/-- The same range of places; a positive power has no sign. -/
def unsigned : NumberLayout :=
  ⟨fun e => -5 ≤ e && e < 16, false⟩

/-- Digits with a decimal point after the digit of power zero; there is a
digit on each side of the point. -/
def positionalText (d : Decimal) : List Char :=
  let digits := Nat.toDigits 10 d.digits
  if 0 ≤ d.exponent then digits ++ List.replicate d.exponent.natAbs '0' ++ ['.', '0']
  else
    let after := d.exponent.natAbs
    if after < digits.length then
      digits.take (digits.length - after) ++ '.' :: digits.drop (digits.length - after)
    else ['0', '.'] ++ List.replicate (after - digits.length) '0' ++ digits

def scientificText (plus : Bool) (d : Decimal) : List Char :=
  let digits := Nat.toDigits 10 d.digits
  let power : Int := d.exponent + digits.length - 1
  let mantissa := match digits with
    | [] => []
    | [first] => [first]
    | first :: more => first :: '.' :: more
  let sign := if power < 0 then ['-'] else if plus then ['+'] else []
  mantissa ++ 'e' :: sign ++ Nat.toDigits 10 power.natAbs

def magnitudeText (layout : NumberLayout) (x : Binary64) : List Char :=
  if x.isZero then ['0', '.', '0']
  else
    let d := Decimal.shortest x
    let power : Int := d.exponent + (Nat.toDigits 10 d.digits).length - 1
    if layout.positional power then positionalText d else scientificText layout.plus d

/-- The sign of zero is kept. -/
def text (layout : NumberLayout) (x : Binary64) : List Char :=
  if x.negative then '-' :: layout.magnitudeText x else layout.magnitudeText x

end NumberLayout

/-- What a decimal text says: sign, digits before and after the point and a
power of ten. -/
structure DecimalText where
  negative : Bool
  whole : List Char
  fraction : List Char
  power : Int

/-- An optional sign in front of a text. -/
def signOf : List Char → Bool × List Char
  | '-' :: rest => (true, rest)
  | '+' :: rest => (false, rest)
  | cs => (false, cs)

/-- Reads digits with an optional point and an optional power of ten; there is
a digit before or after the point. Nothing may follow. -/
def DecimalText.read? (cs : List Char) : Option DecimalText := do
  let (negative, cs) := signOf cs
  let whole := cs.takeWhile Char.isDigit
  let rest := cs.dropWhile Char.isDigit
  let (fraction, rest) := match rest with
    | '.' :: more => (more.takeWhile Char.isDigit, more.dropWhile Char.isDigit)
    | _ => ([], rest)
  if whole.isEmpty && fraction.isEmpty then none
  else match rest with
    | [] => some ⟨negative, whole, fraction, 0⟩
    | e :: more =>
      if e = 'e' ∨ e = 'E' then
        let (down, digits) := signOf more
        (natOfDigits? digits).map fun n => ⟨negative, whole, fraction, if down then -(n : Int) else n⟩
      else none
where
  natOfDigits? (digits : List Char) : Option Nat :=
    if digits.isEmpty || !digits.all Char.isDigit then none
    else some (digits.foldl (fun n c => n * 10 + (c.toNat - '0'.toNat)) 0)

/-- The nearest binary64 number; none when it is too large. -/
def DecimalText.nearest? (t : DecimalText) : Option Binary64 :=
  let digits := (t.whole ++ t.fraction).foldl (fun n c => n * 10 + (c.toNat - '0'.toNat)) 0
  Binary64.ofDecimal? t.negative digits (t.power - t.fraction.length)

end LayeredConfig
