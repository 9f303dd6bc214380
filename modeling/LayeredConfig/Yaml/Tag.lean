import LayeredConfig.Yaml.Cursor
import LayeredConfig.Yaml.Token

namespace LayeredConfig.Yaml

/-- A zero byte ends a tag, and what follows it is lost. -/
def untilZero (bytes : TagBytes) : TagBytes :=
  bytes.takeWhile (· ≠ 0)

/-- A byte written as a percent sign and two digits. -/
def percentByte? : List Char → Option (UInt8 × List Char)
  | '%' :: a :: b :: rest => (natOfDigits? 16 [a, b]).map fun n => (n.toUInt8, rest)
  | _ => none

/-- So many bytes that continue a character of several bytes. -/
def continuation? : Nat → List Char → Option (TagBytes × List Char)
  | 0, cs => some ([], cs)
  | more + 1, cs => do
    let (b, rest) ← percentByte? cs
    let (bytes, rest) ← if 0x80 ≤ b ∧ b < 0xC0 then continuation? more rest else none
    some (b :: bytes, rest)

/-- A character written as bytes. The first one tells how many follow; nothing
else is asked of them. -/
def percentChar? (cs : List Char) : Option (TagBytes × List Char) := do
  let (first, rest) ← percentByte? cs
  let more ←
    if first < 0x80 then some 0
    else if 0xC0 ≤ first ∧ first < 0xE0 then some 1
    else if 0xE0 ≤ first ∧ first < 0xF0 then some 2
    else if 0xF0 ≤ first ∧ first < 0xF8 then some 3
    else none
  let (bytes, rest) ← continuation? more rest
  some (first :: bytes, rest)

example : percentChar? "%C0%80x".toList = some ([0xC0, 0x80], ['x']) := by decide +kernel

/-- A character of an address. Inside angle brackets and in directives, commas
and square brackets belong to it. -/
def isAddressChar (marks : Bool) (c : Char) : Bool :=
  isWord c || ";/?:@&=+$.!~*'()".toList.contains c || (marks && (c = ',' || c = '[' || c = ']'))

/-- The bytes of an address, and what follows it. -/
def address? (marks : Bool) : Nat → List Char → Option (TagBytes × List Char)
  | 0, _ => none
  | _ + 1, [] => some ([], [])
  | fuel + 1, c :: rest =>
    if c = '%' then do
      let (bytes, rest) ← percentChar? (c :: rest)
      let (more, rest) ← address? marks fuel rest
      some (bytes ++ more, rest)
    else if isAddressChar marks c then
      (address? marks fuel rest).map fun (more, rest) => (c.toUInt8 :: more, rest)
    else some ([], c :: rest)

/-- An address and the cursor behind it. -/
def readAddress? (marks : Bool) (c : Cursor) : Option (TagBytes × Cursor) :=
  (address? marks (c.rest.length + 1) c.rest).map fun (s, rest) => (s, c.skip (c.rest.length - rest.length))

/-- A handle at the cursor: an exclamation mark, word characters and perhaps a
second exclamation mark. -/
def handle (c : Cursor) : List Char × Cursor :=
  let name := '!' :: (c.rest.drop 1).takeWhile isWord
  match c.rest.drop name.length with
  | '!' :: _ => (name ++ ['!'], c.skip (name.length + 1))
  | _ => (name, c.skip name.length)

/-- Whether a handle has its second exclamation mark. -/
def isNamedHandle (h : List Char) : Bool :=
  2 ≤ h.length && h.getLast? = some '!'

/-- Reads a tag. A blank, a line break or, inside brackets, a comma follows. -/
def tag? (flow : Bool) (c : Cursor) : Option (Token × Cursor) := do
  let (given, suffix, c) ←
    if (c.rest.drop 1).head? = some '<' then do
      let (s, c) ← readAddress? true (c.skip 2)
      if s.isEmpty || c.rest.head? ≠ some '>' then none else some ([], untilZero s, c.skip 1)
    else
      let (h, after) := handle c
      if isNamedHandle h then do
        let (s, c) ← readAddress? false after
        if s.isEmpty then none else some (h, untilZero s, c)
      else do
        let (s, c) ← readAddress? false after
        let s := untilZero (plainBytes (h.drop 1) ++ s)
        if s.isEmpty then some ([], plainBytes ['!'], c) else some (['!'], s, c)
  if endsWord c.rest || (flow && c.rest.head? = some ',') then
    some (.tag (String.ofList given) suffix, c)
  else none

/-- A number of a version: one digit to nine. -/
def versionPart? (c : Cursor) : Option (Nat × Cursor) := do
  let digits := c.rest.takeWhile Char.isDigit
  let n ← natOfDigits? 10 digits
  if 9 < digits.length then none else some (n, c.skip digits.length)

def version? (c : Cursor) : Option (Token × Cursor) := do
  let (major, c) ← versionPart? c
  let c ← if c.rest.head? = some '.' then some (c.skip 1) else none
  let (minor, c) ← versionPart? c
  some (.version major minor, c)

def shorthand? (c : Cursor) : Option (Token × Cursor) := do
  let (h, c) ← if c.rest.head? = some '!' then some (handle c) else none
  if !(h = ['!'] || isNamedHandle h) || !(c.rest.head?.any isSpaceOrTab) then none
  else do
    let (s, c) ← readAddress? true (c.skipWhile isSpaceOrTab)
    if s.isEmpty || !endsWord c.rest then none
    else some (.tagShorthand (String.ofList h) (untilZero s), c)

/-- Reads a directive from its percent sign on. -/
def directive? (c : Cursor) : Option (Token × Cursor) := do
  let name := (c.rest.drop 1).takeWhile isWord
  let c := c.skip (name.length + 1)
  let (token, c) ←
    if !endsWord c.rest then none
    else if name = "YAML".toList then version? (c.skipWhile isSpaceOrTab)
    else if name = "TAG".toList then shorthand? (c.skipWhile isSpaceOrTab)
    else none
  let c := (c.skipWhile isSpaceOrTab).skipComment
  if endsLine c.rest then some (token, c.lineBreak.2) else none

/-- Reads the name behind the mark of an anchor or an alias. -/
def anchorName? (c : Cursor) : Option (String × Cursor) :=
  let name := (c.rest.drop 1).takeWhile isWord
  let c := c.skip (name.length + 1)
  if !name.isEmpty && (endsWord c.rest || c.rest.head?.any fun d => "?:,]\x7d%@\x60".toList.contains d) then
    some (String.ofList name, c)
  else none

end LayeredConfig.Yaml
