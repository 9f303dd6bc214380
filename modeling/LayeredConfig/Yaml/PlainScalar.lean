import LayeredConfig.Number.Decimal
import LayeredConfig.Text.Blank

namespace LayeredConfig.Yaml

/-- What an unquoted scalar stands for. -/
inductive PlainMeaning
  | null
  | bool (b : Bool)
  | int (n : Int)
  | float (x : Binary64)
  | notFinite
  | text
  deriving DecidableEq, Repr, Inhabited

def unsignedPart : List Char → List Char
  | '-' :: rest => rest
  | '+' :: rest => rest
  | cs => cs

def startsSigned : List Char → Bool
  | '-' :: _ => true
  | '+' :: _ => true
  | _ => false

/-- Digits of which the first of several is a zero. They are no number. -/
def hasLeadingZero (cs : List Char) : Bool :=
  match unsignedPart cs with
  | '0' :: d :: rest => (d :: rest).all Char.isDigit
  | _ => false

/-- Digits in the base that is written in front of them. -/
def basedDigits? : List Char → Option Nat
  | '0' :: 'x' :: digits => natOfDigits? 16 digits
  | '0' :: 'o' :: digits => natOfDigits? 8 digits
  | '0' :: 'b' :: digits => natOfDigits? 2 digits
  | digits => if hasLeadingZero digits then none else natOfDigits? 10 digits

/-- The integers below this have 128 bits at most. -/
def wideLimit : Nat := 340282366920938463463374607431768211456

/-- An integer of at most 128 bits: hexadecimal, octal, binary or decimal. -/
def plainInt? (cs : List Char) : Option Int :=
  match cs with
  | '-' :: digits => (basedDigits? digits).bind fun n => if n ≤ wideLimit / 2 then some (-(n : Int)) else none
  | cs =>
    let digits := if cs.head? = some '+' then cs.drop 1 else cs
    (basedDigits? digits).bind fun n => if n < wideLimit then some (n : Int) else none

/-- A number in decimal with a point, an exponent or neither. -/
def plainFloat? (cs : List Char) : Option Binary64 :=
  match cs with
  | '+' :: rest => if startsSigned rest then none else (DecimalText.read? rest).bind DecimalText.nearest?
  | cs => (DecimalText.read? cs).bind DecimalText.nearest?

def infinityWords : List String := [".inf", ".Inf", ".INF"]
def noNumberWords : List String := [".nan", ".NaN", ".NAN"]

/-- The words for numbers that are not finite. -/
def isNotFinite (s : String) : Bool :=
  noNumberWords.contains s || (infinityWords.flatMap fun w => [w, "+" ++ w, "-" ++ w]).contains s

def isNullWord (s : String) : Bool :=
  ["null", "Null", "NULL", "~"].contains s

def boolWord? (s : String) : Option Bool :=
  if ["true", "True", "TRUE"].contains s then some true
  else if ["false", "False", "FALSE"].contains s then some false
  else none

/-- The meaning of a scalar by its form alone. -/
def plainMeaning (s : String) : PlainMeaning :=
  let cs := s.toList
  if cs = [] ∨ isNullWord s then .null
  else match boolWord? s with
    | some b => .bool b
    | none =>
      match plainInt? cs with
      | some n => .int n
      | none =>
        if isNotFinite s then .notFinite
        else if hasLeadingZero cs then .text
        else (plainFloat? cs).elim .text .float

end LayeredConfig.Yaml
