import LayeredConfig.Number.Decimal
import LayeredConfig.Toml.DateTime

namespace LayeredConfig.Toml

def isSpace (c : Char) : Bool :=
  c = ' ' || c = '\t'

def skipSpace (cs : List Char) : List Char :=
  cs.dropWhile isSpace

/-- A character of comments, and of texts but for quotes and backslashes. -/
def isPrintable (c : Char) : Bool :=
  c = '\t' || (0x20 ≤ c.toNat && c.toNat ≤ 0x7E) || 0x80 ≤ c.toNat

/-- Behind a line break, which a carriage return may open. -/
def afterBreak? : List Char → Option (List Char)
  | '\n' :: rest => some rest
  | '\r' :: '\n' :: rest => some rest
  | _ => none

/-- Past blanks and line breaks. -/
def skipLines : Nat → List Char → List Char
  | 0, cs => cs
  | fuel + 1, cs =>
    let cs := skipSpace cs
    (afterBreak? cs).elim cs (skipLines fuel)

/-- The character of an escape whose backslash is already read. -/
def escapeRest? : List Char → Option (Char × List Char)
  | '"' :: rest => some ('"', rest)
  | '\\' :: rest => some ('\\', rest)
  | 'b' :: rest => some ('\x08', rest)
  | 'f' :: rest => some ('\x0c', rest)
  | 'n' :: rest => some ('\n', rest)
  | 'r' :: rest => some ('\r', rest)
  | 't' :: rest => some ('\t', rest)
  | 'u' :: rest => coded 4 rest
  | 'U' :: rest => coded 8 rest
  | _ => none
where
  coded (width : Nat) (cs : List Char) : Option (Char × List Char) := do
    let digits := cs.take width
    let n ← if digits.length = width then natOfDigits? 16 digits else none
    if n.isValidChar then some (Char.ofNat n, cs.drop width) else none

/-- A text on one line, up to its closing quote. Escapes are known between
double quotes only. -/
def quoted? (quote : Char) : Nat → List Char → Option (List Char × List Char)
  | 0, _ => none
  | _ + 1, [] => none
  | fuel + 1, c :: rest =>
    if c = quote then some ([], rest)
    else do
      let (d, rest) ←
        if c = '\\' ∧ quote = '"' then escapeRest? rest
        else if isPrintable c then some (c, rest)
        else none
      let (more, rest) ← quoted? quote fuel rest
      some (d :: more, rest)

/-- A text over several lines, up to three quotes. One or two quotes may stand
before those three. A backslash at the end of a line hides the break and the
blanks after it, between double quotes only. -/
def longQuoted? (quote : Char) : Nat → List Char → Option (List Char × List Char)
  | 0, _ => none
  | fuel + 1, cs =>
    match afterBreak? cs with
    | some rest => (longQuoted? quote fuel rest).map fun (more, rest) => ('\n' :: more, rest)
    | none =>
      match cs with
      | [] => none
      | c :: rest =>
        if c = quote then
          let run := 1 + (rest.takeWhile (· = quote)).length
          if 5 < run then none
          else if 3 ≤ run then some (List.replicate (run - 3) quote, cs.drop run)
          else (longQuoted? quote fuel (cs.drop run)).map fun (more, rest) =>
            (List.replicate run quote ++ more, rest)
        else if c = '\\' ∧ quote = '"' then
          match afterBreak? (skipSpace rest) with
          | some rest => longQuoted? quote fuel (skipLines (rest.length + 1) rest)
          | none => do
            let (d, rest) ← escapeRest? rest
            let (more, rest) ← longQuoted? quote fuel rest
            some (d :: more, rest)
        else if isPrintable c then (longQuoted? quote fuel rest).map fun (more, rest) => (c :: more, rest)
        else none

/-- A quoted text from its opening quotes on. A line break right behind three
quotes is no part of the text. -/
def text? (cs : List Char) : Option (List Char × List Char) :=
  match cs with
  | q :: rest =>
    if q ≠ '"' ∧ q ≠ '\'' then none
    else match afterOpening? [q, q] rest with
      | some rest => longQuoted? q (rest.length + 1) ((afterBreak? rest).getD rest)
      | none => quoted? q (rest.length + 1) rest
  | [] => none

/-- Digits with single underscores between them. -/
def digits? (isDigit : Char → Bool) : List Char → Option (List Char × List Char)
  | [] => none
  | c :: '_' :: rest =>
    if isDigit c then (digits? isDigit rest).map fun (more, rest) => (c :: more, rest) else none
  | c :: rest =>
    if isDigit c then some ((digits? isDigit rest).elim ([c], rest) fun (more, rest) => (c :: more, rest))
    else none

/-- The digits of a decimal number: a zero alone, or digits that do not start
with zero. -/
def wholeDigits? : List Char → Option (List Char × List Char)
  | '0' :: rest => some (['0'], rest)
  | cs => digits? Char.isDigit cs

/-- A number in another base; it has no sign. -/
def basedInt? : List Char → Option (Nat × List Char)
  | '0' :: mark :: rest => do
    let base ← if mark = 'x' then some 16 else if mark = 'o' then some 8 else if mark = 'b' then some 2 else none
    let (ds, rest) ← digits? (fun c => (digitValue? base c).isSome) rest
    let n ← natOfDigits? base ds
    some (n, rest)
  | _ => none

/-- An integer of a signed machine word. -/
def int? (cs : List Char) : Option (Value × List Char) :=
  let found : Option (Int × List Char) :=
    match basedInt? cs with
    | some (n, rest) => some (n, rest)
    | none => do
      let (negative, body) := signOf cs
      let (ds, rest) ← wholeDigits? body
      let n ← natOfDigits? 10 ds
      some (if negative then -(n : Int) else n, rest)
  found.bind fun (n, rest) =>
    if -9223372036854775808 ≤ n ∧ n < 9223372036854775808 then some (.number (.int n), rest) else none

/-- The fraction behind a point. -/
def fraction? : List Char → Option (List Char × List Char)
  | '.' :: rest => digits? Char.isDigit rest
  | _ => none

/-- The power of ten behind its letter. -/
def power? : List Char → Option (Int × List Char)
  | e :: rest =>
    if e = 'e' ∨ e = 'E' then do
      let (down, rest) := signOf rest
      let (ds, rest) ← digits? Char.isDigit rest
      let n ← natOfDigits? 10 ds
      some (if down then -(n : Int) else n, rest)
    else none
  | [] => none

/-- A number with a fraction or a power. One that is too large is refused when
it is positive and counts as null when it is negative, as do the words for
numbers that are not finite. -/
def float? (cs : List Char) : Option (Value × List Char) :=
  let (negative, body) := signOf cs
  let word (w : String) : Option (Value × List Char) := (afterOpening? w.toList body).map (.null, ·)
  ((word "inf").orElse fun _ => word "nan").orElse fun _ => do
    let (whole, rest) ← wholeDigits? body
    let (fraction, rest') := (fraction? rest).getD ([], rest)
    let (power, after) := (power? rest').getD (0, rest')
    if after.length = rest.length then none
    else match (DecimalText.mk negative whole fraction power).nearest? with
      | some x => some (.number (.float x), after)
      | none => if negative then some (.null, after) else none

/-- A value that is no list and no table. -/
def scalar? (cs : List Char) : Option (Value × List Char) :=
  match cs with
  | [] => none
  | c :: _ =>
    if c = '"' ∨ c = '\'' then (text? cs).map fun (s, rest) => (.string (String.ofList s), rest)
    else if c = 't' then (afterOpening? "true".toList cs).map (.bool true, ·)
    else if c = 'f' then (afterOpening? "false".toList cs).map (.bool false, ·)
    else (((dateTime? .bare cs).map fun (s, rest) => (datedValue s, rest)).orElse fun _ =>
      float? cs).orElse fun _ =>
      int? cs

end LayeredConfig.Toml
