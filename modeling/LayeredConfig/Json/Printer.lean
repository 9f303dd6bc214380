import LayeredConfig.Number.Decimal
import LayeredConfig.Value.Basic

namespace LayeredConfig.Json

/-- The lower-case hexadecimal digits of a number, at least as many as asked. -/
def hexDigits (width n : Nat) : List Char :=
  let digits := Nat.toDigits 16 n
  List.replicate (width - digits.length) '0' ++ digits

/-- A character inside quotes: quotes, backslashes and control characters are
escaped, everything else stands for itself. -/
def escaped (c : Char) : List Char :=
  if c = '"' then ['\\', '"']
  else if c = '\\' then ['\\', '\\']
  else if c = '\n' then ['\\', 'n']
  else if c = '\r' then ['\\', 'r']
  else if c = '\t' then ['\\', 't']
  else if c.toNat = 8 then ['\\', 'b']
  else if c.toNat = 12 then ['\\', 'f']
  else if c.toNat < 32 then '\\' :: 'u' :: hexDigits 4 c.toNat
  else [c]

def quoted (s : String) : List Char :=
  '"' :: s.toList.flatMap escaped ++ ['"']

def numberText : Number → List Char
  | .int n => (toString n).toList
  | .float x => NumberLayout.signed.text x

mutual

/-- The value on one line without blanks. -/
def compact : Value → List Char
  | .null => "null".toList
  | .bool true => "true".toList
  | .bool false => "false".toList
  | .number n => numberText n
  | .string s => quoted s
  | .array items => '[' :: compactItems items ++ [']']
  | .object fields => '\x7b' :: compactFields fields ++ ['\x7d']

def compactItems : List Value → List Char
  | [] => []
  | [item] => compact item
  | item :: next :: rest => compact item ++ ',' :: compactItems (next :: rest)

def compactFields : List (String × Value) → List Char
  | [] => []
  | [(key, value)] => quoted key ++ ':' :: compact value
  | (key, value) :: next :: rest => quoted key ++ ':' :: compact value ++ ',' :: compactFields (next :: rest)

end

/-- A line break and the indentation of the given depth. -/
def newLine (depth : Nat) : List Char :=
  '\n' :: List.replicate (2 * depth) ' '

mutual

/-- The value with one item or field a line; two blanks a level. -/
def indented (depth : Nat) : Value → List Char
  | .array (item :: rest) =>
    '[' :: newLine (depth + 1) ++ indented (depth + 1) item ++ indentedItems (depth + 1) rest ++
      newLine depth ++ [']']
  | .object ((key, value) :: rest) =>
    '\x7b' :: newLine (depth + 1) ++ quoted key ++ ':' :: ' ' :: indented (depth + 1) value ++
      indentedFields (depth + 1) rest ++ newLine depth ++ ['\x7d']
  | other => compact other

/-- The items after the first. -/
def indentedItems (depth : Nat) : List Value → List Char
  | [] => []
  | item :: rest => ',' :: newLine depth ++ indented depth item ++ indentedItems depth rest

/-- The fields after the first. -/
def indentedFields (depth : Nat) : List (String × Value) → List Char
  | [] => []
  | (key, value) :: rest =>
    ',' :: newLine depth ++ quoted key ++ ':' :: ' ' :: indented depth value ++ indentedFields depth rest

end

/-- The text of a value on one line. -/
def print (v : Value) : String :=
  String.ofList (compact v)

/-- The text of a value over several lines. -/
def printIndented (v : Value) : String :=
  String.ofList (indented 0 v)

end LayeredConfig.Json
