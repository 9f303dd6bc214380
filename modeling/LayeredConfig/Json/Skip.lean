import LayeredConfig.Number.Decimal
import LayeredConfig.Text.Blank

namespace LayeredConfig.Json

def isSpace (c : Char) : Bool :=
  c = ' ' || c = '\n' || c = '\t' || c = '\r'

def skipSpace (cs : List Char) : List Char :=
  cs.dropWhile isSpace

/-- Behind a string whose opening quote is already read. Its escapes have to be
well formed, but need not stand for a character. -/
def skipString? : List Char → Option (List Char)
  | [] => none
  | '"' :: rest => some rest
  | '\\' :: 'u' :: a :: b :: c :: d :: rest =>
    if (natOfDigits? 16 [a, b, c, d]).isSome then skipString? rest else none
  | '\\' :: c :: rest => if "\"\\/bfnrt".toList.contains c then skipString? rest else none
  | c :: rest => if c.toNat < 32 then none else skipString? rest

/-- Behind one digit or more. -/
def skipDigits? (cs : List Char) : Option (List Char) :=
  if cs.head?.any Char.isDigit then some (cs.dropWhile Char.isDigit) else none

/-- Behind a power of ten, if there is one. -/
def skipPower? : List Char → Option (List Char)
  | 'e' :: rest => skipDigits? (signOf rest).2
  | 'E' :: rest => skipDigits? (signOf rest).2
  | cs => some cs

/-- Behind a number of any size. -/
def skipNumber? (cs : List Char) : Option (List Char) := do
  let cs := match cs with
    | '-' :: rest => rest
    | _ => cs
  let rest ← match cs with
    | '0' :: rest => if rest.head?.any Char.isDigit then none else some rest
    | _ => skipDigits? cs
  match rest with
  | '.' :: more => (skipDigits? more).bind skipPower?
  | _ => skipPower? rest

/-- Behind a value that is no list and no object. -/
def skipScalar? : List Char → Option (List Char)
  | 'n' :: 'u' :: 'l' :: 'l' :: rest => some rest
  | 't' :: 'r' :: 'u' :: 'e' :: rest => some rest
  | 'f' :: 'a' :: 'l' :: 's' :: 'e' :: rest => some rest
  | '"' :: rest => skipString? rest
  | cs => skipNumber? cs

/-- Behind the key of a field and its colon. -/
def skipKey? (cs : List Char) : Option (List Char) :=
  match skipSpace cs with
  | '"' :: rest =>
    match (skipString? rest).map skipSpace with
    | some (':' :: rest) => some rest
    | _ => none
  | _ => none

/-- What encloses a value. -/
inductive Bracket
  | list
  | object
  deriving DecidableEq, Repr, Inhabited

/-- Behind everything that is open, innermost first. The flag tells whether a value
has just ended; otherwise one comes next. -/
def skipWithin? : Nat → List Bracket → Bool → List Char → Option (List Char)
  | 0, _, _, _ => none
  | fuel + 1, opened, false, cs =>
    match skipSpace cs with
    | '[' :: rest =>
      match skipSpace rest with
      | ']' :: rest => skipWithin? fuel opened true rest
      | rest => skipWithin? fuel (.list :: opened) false rest
    | '\x7b' :: rest =>
      match skipSpace rest with
      | '\x7d' :: rest => skipWithin? fuel opened true rest
      | rest => do
        let rest ← skipKey? rest
        skipWithin? fuel (.object :: opened) false rest
    | rest => do
      let rest ← skipScalar? rest
      skipWithin? fuel opened true rest
  | _ + 1, [], true, cs => some cs
  | fuel + 1, bracket :: outer, true, cs =>
    match bracket, skipSpace cs with
    | .list, ',' :: rest => skipWithin? fuel (bracket :: outer) false rest
    | .list, ']' :: rest => skipWithin? fuel outer true rest
    | .object, ',' :: rest => do
      let rest ← skipKey? rest
      skipWithin? fuel (bracket :: outer) false rest
    | .object, '\x7d' :: rest => skipWithin? fuel outer true rest
    | _, _ => none

/-- Behind a value, which is not read: it may be nested at any depth, and nothing is
asked of its numbers and strings but their form. -/
def skip? (cs : List Char) : Option (List Char) :=
  skipWithin? (cs.length + 2) [] false cs

example : skip? "[1e999, \"\\ud800\"] x".toList = some " x".toList := by decide +kernel

end LayeredConfig.Json
