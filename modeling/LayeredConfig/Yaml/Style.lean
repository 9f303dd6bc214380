import LayeredConfig.Yaml.Cursor
import LayeredConfig.Yaml.PlainScalar

namespace LayeredConfig.Yaml

/-- How a string is written. -/
inductive Style
  | plain
  | singleQuoted
  | doubleQuoted
  | literal
  deriving DecidableEq, Repr, Inhabited

/-- A character that can stand for itself outside of double quotes. -/
def isPrintable (c : Char) : Bool :=
  let n := c.toNat
  n = 10 || (0x20 ≤ n && n ≤ 0x7E) || (0xA0 ≤ n && n ≤ 0xD7FF) || (0xE000 ≤ n && n ≤ 0xFFFD && n ≠ 0xFEFF) ||
    0x10000 ≤ n

/-- The marks inside a text: a colon before a blank or the end, and a number sign
after a blank. -/
def hasInnerMark : List Char → Bool
  | [] => false
  | c :: rest =>
    (isSpaceOrTab c || isBreak c) && rest.head? = some '#' || c = ':' && endsWord rest || hasInnerMark rest

/-- Whether an unquoted text would be read as something else than a scalar. -/
def hasBlockMark (cs : List Char) : Bool :=
  ['-', '-', '-'].isPrefixOf cs || ['.', '.', '.'].isPrefixOf cs || hasInnerMark cs ||
    match cs with
    | [] => false
    | c :: rest => "#,[]\x7b\x7d&*!|>'\"%@\x60".toList.contains c || (c = '?' || c = '-') && endsWord rest

/-- Whether two neighbours of a text are of the given classes. -/
def hasNeighbours (p q : Char → Bool) : List Char → Bool
  | a :: b :: rest => p a && q b || hasNeighbours p q (b :: rest)
  | _ => false

/-- What stands in the way of a style: a blank before a line break and a
character that cannot stand for itself leave double quotes alone. -/
def needsEscapes (cs : List Char) : Bool :=
  hasNeighbours (· = ' ') isBreak cs || !cs.all isPrintable

def plainAllowed (cs : List Char) : Bool :=
  !needsEscapes cs && !cs.any isBreak && cs.head? ≠ some ' ' && cs.getLast? ≠ some ' ' && !hasBlockMark cs

def singleQuotedAllowed (cs : List Char) : Bool :=
  !needsEscapes cs && !hasNeighbours isBreak (· = ' ') cs

def literalAllowed (cs : List Char) : Bool :=
  !needsEscapes cs && cs.getLast? ≠ some ' '

/-- Whether the form of a text alone makes it something else than a string. -/
def looksTyped (s : String) : Bool :=
  plainMeaning s != .text || hasLeadingZero s.toList

/-- The style of a string. Several lines are written as they are; a string that
looks like another value is quoted, and others only if they must be. -/
def styleOf (s : String) : Style :=
  let cs := s.toList
  let quoted := if singleQuotedAllowed cs then Style.singleQuoted else .doubleQuoted
  if cs.contains '\n' then (if literalAllowed cs then .literal else .doubleQuoted)
  else if looksTyped s then quoted
  else if plainAllowed cs then .plain
  else quoted

end LayeredConfig.Yaml
