import LayeredConfig.Value.Basic
import LayeredConfig.Yaml.Sheet

namespace LayeredConfig.Yaml

/-- How many columns a level of blocks takes. -/
def levelWidth : Nat := 2

/-- Keys of more bytes than this, or of several lines, have a question mark. -/
def simpleKeyLimit : Nat := 128

/-- Upper-case hexadecimal digits, at least as many as asked. -/
def hexDigits (width n : Nat) : List Char :=
  let digits := (Nat.toDigits 16 n).map Char.toUpper
  List.replicate (width - digits.length) '0' ++ digits

/-- A character between double quotes. -/
def escaped (c : Char) : List Char :=
  if isPrintable c && !isBreak c && c ≠ '"' && c ≠ '\\' then [c]
  else
    let n := c.toNat
    '\\' :: match n with
      | 0x00 => ['0']
      | 0x07 => ['a']
      | 0x08 => ['b']
      | 0x09 => ['t']
      | 0x0A => ['n']
      | 0x0B => ['v']
      | 0x0C => ['f']
      | 0x0D => ['r']
      | 0x1B => ['e']
      | 0x22 => ['"']
      | 0x5C => ['\\']
      | 0x85 => ['N']
      | 0x2028 => ['L']
      | 0x2029 => ['P']
      | _ =>
        if n ≤ 0xFF then 'x' :: hexDigits 2 n
        else if n ≤ 0xFFFF then 'u' :: hexDigits 4 n
        else 'U' :: hexDigits 8 n

def numberText : Number → List Char
  | .int n => (toString n).toList
  | .float x => NumberLayout.unsigned.text x

/-- The signs in the head of a literal text: its indentation if the text opens
with a blank or an empty line, and what becomes of the breaks at its end. -/
def literalHead (cs : List Char) : List Char :=
  let first := cs.head?.any fun c => c = ' ' || isBreak c
  let ending := match cs.reverse with
    | [] => ['-']
    | [c] => if isBreak c then ['+'] else ['-']
    | c :: d :: _ => if !isBreak c then ['-'] else if isBreak d then ['+'] else []
  (if first then Nat.toDigits 10 levelWidth else []) ++ ending

namespace Sheet

/-- Writes a string; its further lines stand at the given column. -/
def string (s : Sheet) (column : Nat) (content : String) : Sheet :=
  let cs := content.toList
  match styleOf content with
  | .plain => s.word cs
  | .doubleQuoted => s.word ('"' :: cs.flatMap escaped ++ ['"'])
  | .singleQuoted =>
    let (s, broken) := (s.word ['\'']).lines column (fun c => if c = '\'' then ['\'', '\''] else [c]) false cs
    (if broken then s.moveTo column else s).adjoin ['\'']
  | .literal =>
    let head := (s.word ['|']).adjoin (literalHead cs)
    (({ head.putBreak '\n' with spaced := true, lineStart := true }).lines column (fun c => [c]) true cs).1

/-- Whether a key can stand in front of a plain colon. -/
def isSimpleKey (key : String) : Bool :=
  key.utf8ByteSize ≤ simpleKeyLimit && !key.toList.any isBreak

/-- The column of the blocks inside a node; `indent` is the column of the block
around it, and none at the top. -/
def deeper (indent : Option Nat) : Nat :=
  indent.elim 0 (· + levelWidth)

/-- The column of the further lines of a scalar. -/
def hanging (indent : Option Nat) : Nat :=
  indent.elim levelWidth (· + levelWidth)

mutual

/-- Writes a value. A list behind the colon of a key stands at the column of the
key. -/
def value (indent : Option Nat) (behindKey : Bool) (v : Value) (s : Sheet) : Sheet :=
  match v with
  | .null => s.word "null".toList
  | .bool b => s.word (toString b).toList
  | .number n => s.word (numberText n)
  | .string text => s.string (hanging indent) text
  | .array [] => s.word ['[', ']']
  | .object [] => s.word ['\x7b', '\x7d']
  | .array (item :: rest) =>
    items (if behindKey && !s.lineStart then indent.getD 0 else deeper indent) (item :: rest) s
  | .object (field :: rest) => fields (deeper indent) (field :: rest) s

def items (column : Nat) : List Value → Sheet → Sheet
  | [], s => s
  | item :: rest, s => items column rest (value (some column) false item ((s.moveTo column).mark ['-'] true))

def fields (column : Nat) : List (String × Value) → Sheet → Sheet
  | [], s => s
  | (key, v) :: rest, s =>
    let s := s.moveTo column
    let s :=
      if isSimpleKey key then (s.string (hanging (some column)) key).adjoin [':']
      else (((s.mark ['?'] true).string (hanging (some column)) key).moveTo column).mark [':'] true
    fields column rest (value (some column) true v s)

end

end Sheet

/-- The text of a document. -/
def print (v : Value) : String :=
  ((Sheet.blank.value none false v).moveTo 0).text

end LayeredConfig.Yaml
