import LayeredConfig.Json.Skip
import LayeredConfig.Value.Basic

namespace LayeredConfig.Json

/-- How many objects and lists may enclose a value. -/
def maxDepth : Nat := 127

def hexFour? : List Char → Option (Nat × List Char)
  | a :: b :: c :: d :: rest => (natOfDigits? 16 [a, b, c, d]).map (·, rest)
  | _ => none

/-- The character of an escape whose backslash is already read. A character
beyond the basic plane is written as two halves; a half alone is refused. -/
def escapeRest? : List Char → Option (Char × List Char)
  | '"' :: rest => some ('"', rest)
  | '\\' :: rest => some ('\\', rest)
  | '/' :: rest => some ('/', rest)
  | 'b' :: rest => some ('\x08', rest)
  | 'f' :: rest => some ('\x0c', rest)
  | 'n' :: rest => some ('\n', rest)
  | 'r' :: rest => some ('\r', rest)
  | 't' :: rest => some ('\t', rest)
  | 'u' :: rest => do
    let (high, rest) ← hexFour? rest
    if 0xD800 ≤ high ∧ high ≤ 0xDBFF then
      match rest with
      | '\\' :: 'u' :: rest =>
        let (low, rest) ← hexFour? rest
        if 0xDC00 ≤ low ∧ low ≤ 0xDFFF then
          some (Char.ofNat (0x10000 + (high - 0xD800) * 0x400 + (low - 0xDC00)), rest)
        else none
      | _ => none
    else if 0xDC00 ≤ high ∧ high ≤ 0xDFFF then none
    else some (Char.ofNat high, rest)
  | _ => none

/-- The characters up to the closing quote, and what follows it. -/
def stringRest? : Nat → List Char → Option (List Char × List Char)
  | 0, _ => none
  | _ + 1, [] => none
  | fuel + 1, c :: rest =>
    if c = '"' then some ([], rest)
    else if c = '\\' then do
      let (d, rest) ← escapeRest? rest
      let (s, rest) ← stringRest? fuel rest
      some (d :: s, rest)
    else if c.toNat < 32 then none
    else (stringRest? fuel rest).map fun (s, rest) => (c :: s, rest)

/-- Decimal digits gathered into an unsigned machine word, and how many digits
at the end no longer fit. -/
def gather (start : Nat) (digits : List Char) : Nat × Nat :=
  digits.foldl (fun (word, left) c =>
    let next := word * 10 + (c.toNat - '0'.toNat)
    if left = 0 ∧ next < wordLimit then (next, 0) else (word, left + 1)) (start, 0)

/-- A word times a power of ten, rounded in two steps: the word to the nearest
float, then its product or quotient with the nearest float of the power.
Powers below the table go in steps of 308. Too large a result is refused. -/
def scaleByPower? (x : Binary64) : Nat → Int → Option Binary64
  | 0, _ => some x
  | fuel + 1, power =>
    if 0 ≤ power then
      if 308 < power then if x.isZero then some x else none
      else (Binary64.ofDecimal? false 1 power).bind x.mul?
    else if power < -308 then
      if x.isZero then some x
      else do
        let next ← (Binary64.ofDecimal? false 1 308).bind x.div?
        scaleByPower? next fuel (power + 308)
    else (Binary64.ofDecimal? false 1 (-power)).bind x.div?

def floatOf? (negative : Bool) (word : Nat) (power : Int) : Option Number := do
  let x ← Binary64.ofFraction? false word 1
  let x ← scaleByPower? x 8 power
  some (.float { x with negative := negative })

/-- A power of ten after its letter. Beyond a signed machine half-word it
only tells zero from an overflow. -/
def power? (negative : Bool) (word : Nat) (start : Int) (cs : List Char) : Option (Number × List Char) := do
  let (down, cs) := signOf cs
  let digits := cs.takeWhile Char.isDigit
  let rest := cs.dropWhile Char.isDigit
  let n ← natOfDigits? 10 digits
  if n < 2147483648 then
    let number ← floatOf? negative word (if down then start - n else start + n)
    some (number, rest)
  else if word ≠ 0 ∧ ¬down then none
  else some (.float (Binary64.zero negative), rest)

/-- Reads a number. Digits alone are an integer when a machine word holds it;
a point, a power, a sign of zero or too many digits make a float, of whose
digits as many count as fit in a word. -/
def number? (cs : List Char) : Option (Number × List Char) := do
  let (negative, cs) := match cs with
    | '-' :: rest => (true, rest)
    | _ => (false, cs)
  let digits := cs.takeWhile Char.isDigit
  let rest := cs.dropWhile Char.isDigit
  if digits.isEmpty || (digits.head? = some '0' && digits.length ≠ 1) then none
  else
    let (word, left) := gather 0 digits
    match rest with
    | '.' :: more =>
      let places := more.takeWhile Char.isDigit
      let after := more.dropWhile Char.isDigit
      if places.isEmpty then none
      else
        let (word, dropped) := gather word places
        let power : Int := left - (places.length - dropped : Nat)
        match after with
        | 'e' :: tail => power? negative word power tail
        | 'E' :: tail => power? negative word power tail
        | _ => (floatOf? negative word power).map (·, after)
    | 'e' :: tail => power? negative word left tail
    | 'E' :: tail => power? negative word left tail
    | _ =>
      if left ≠ 0 then (floatOf? negative word left).map (·, rest)
      else if ¬negative then some (.int word, rest)
      else if word = 0 ∨ wordLimit / 2 < word then (floatOf? true word 0).map (·, rest)
      else some (.int (-word), rest)

/-- Which parts of a text are read: everything; of an object the named fields, and of
a list its items as if they were these fields in turn; or a part of each field. -/
inductive Selection
  | everything
  | named (fields : List (String × Selection))
  | each (part : Selection)
  deriving Repr, Inhabited

namespace Selection

/-- What is read of a field, if anything. -/
def field? (want : Selection) (key : String) : Option Selection :=
  match want with
  | everything => some everything
  | named fields => fields.lookup key
  | each part => some part

/-- What is read of the first items; all of any other item is. -/
def items : Selection → List Selection
  | named fields => fields.map Prod.snd
  | _ => []

end Selection

mutual

/-- Reads the selected parts of a value and skips the others. Repeated keys of an
object are all kept. -/
def value? (want : Selection) (fuel depth : Nat) (cs : List Char) : Option (Value × List Char) :=
  match fuel with
  | 0 => none
  | fuel + 1 =>
    match skipSpace cs with
    | 'n' :: 'u' :: 'l' :: 'l' :: rest => some (.null, rest)
    | 't' :: 'r' :: 'u' :: 'e' :: rest => some (.bool true, rest)
    | 'f' :: 'a' :: 'l' :: 's' :: 'e' :: rest => some (.bool false, rest)
    | '"' :: rest => (stringRest? fuel rest).map fun (s, rest) => (.string (String.ofList s), rest)
    | '[' :: rest =>
      match depth, skipSpace rest with
      | 0, _ => none
      | _ + 1, ']' :: rest => some (.array [], rest)
      | depth + 1, rest => (items? want.items fuel depth rest).map fun (items, rest) => (.array items, rest)
    | '\x7b' :: rest =>
      match depth, skipSpace rest with
      | 0, _ => none
      | _ + 1, '\x7d' :: rest => some (.object [], rest)
      | depth + 1, rest => (fields? want fuel depth rest).map fun (fields, rest) => (.object fields, rest)
    | rest => (number? rest).map fun (n, rest) => (.number n, rest)

/-- Reads one item or more and the closing bracket. -/
def items? (wants : List Selection) (fuel depth : Nat) (cs : List Char) : Option (List Value × List Char) :=
  match fuel with
  | 0 => none
  | fuel + 1 => do
    let (item, rest) ← value? (wants.head?.getD .everything) fuel depth cs
    match skipSpace rest with
    | ',' :: rest =>
      let (items, rest) ← items? wants.tail fuel depth rest
      some (item :: items, rest)
    | ']' :: rest => some ([item], rest)
    | _ => none

/-- Reads one field or more and the closing brace. Fields that are not selected are
left out. -/
def fields? (want : Selection) (fuel depth : Nat) (cs : List Char) : Option (List (String × Value) × List Char) :=
  match fuel with
  | 0 => none
  | fuel + 1 =>
    match skipSpace cs with
    | '"' :: rest => do
      let (key, rest) ← stringRest? fuel rest
      match skipSpace rest with
      | ':' :: rest =>
        let (found, rest) ← match want.field? (String.ofList key) with
          | some part => (value? part fuel depth rest).map fun (v, rest) => ([(String.ofList key, v)], rest)
          | none => (skip? rest).map ([], ·)
        match skipSpace rest with
        | ',' :: rest =>
          let (fields, rest) ← fields? want fuel depth rest
          some (found ++ fields, rest)
        | '\x7d' :: rest => some (found, rest)
        | _ => none
      | _ => none
    | _ => none

end

/-- Reads the selected parts of a whole text as one value, repeated keys included. -/
def readSelected? (want : Selection) (text : String) : Option Value := do
  let cs := text.toList
  let (value, rest) ← value? want (2 * cs.length + 2) maxDepth cs
  if (skipSpace rest).isEmpty then some value else none

/-- Reads a whole text as one value. Of a repeated key the last value counts,
at the place of the first. -/
def read? (text : String) : Option Value :=
  (readSelected? .everything text).map Value.unrepeated

end LayeredConfig.Json
