import LayeredConfig.Toml.Entries
import LayeredConfig.Toml.Scalar

namespace LayeredConfig.Toml

/-- How deep lists and tables in braces may be nested, and how many parts a dotted
key may have. -/
def depthLimit : Nat := 79

def isBareKeyChar (c : Char) : Bool :=
  c.isAlphanum || c = '_' || c = '-'

/-- One part of a key, bare or in quotes. -/
def keyPart? (cs : List Char) : Option (String × List Char) :=
  match cs with
  | [] => none
  | q :: rest =>
    if q = '"' ∨ q = '\'' then (quoted? q (rest.length + 1) rest).map fun (s, rest) => (String.ofList s, rest)
    else
      let name := cs.takeWhile isBareKeyChar
      if name.isEmpty then none else some (String.ofList name, cs.drop name.length)

/-- The parts of a key with points between them and blanks around them. -/
def key? : Nat → List Char → Option (List String × List Char)
  | 0, _ => none
  | fuel + 1, cs => do
    let (part, rest) ← keyPart? (skipSpace cs)
    match skipSpace rest with
    | '.' :: rest => (key? fuel rest).map fun (parts, rest) => (part :: parts, rest)
    | rest => some ([part], rest)

/-- Behind a comment, in front of its line break. -/
def skipComment : List Char → List Char
  | '#' :: rest => rest.dropWhile isPrintable
  | cs => cs

/-- Past blanks, comments and line breaks. -/
def skipGap : Nat → List Char → List Char
  | 0, cs => cs
  | fuel + 1, cs =>
    let cs := skipComment (skipSpace cs)
    (afterBreak? cs).elim cs (skipGap fuel)

/-- The key and the equals sign in front of a value. -/
def assigned? (cs : List Char) : Option (List String × List Char) := do
  let (path, rest) ← key? depthLimit cs
  let rest ← mark? '=' rest
  some (path, skipSpace rest)

mutual

def value? (fuel depth : Nat) (cs : List Char) : Option (Value × List Char) :=
  match fuel with
  | 0 => none
  | fuel + 1 =>
    match cs, depth with
    | '[' :: rest, depth + 1 => (items? fuel depth rest).map fun (items, rest) => (.array items, rest)
    | '\x7b' :: rest, depth + 1 =>
      match skipSpace rest with
      | '\x7d' :: rest => some (.object [], rest)
      | rest => (fields? fuel depth [] rest).map fun (entries, rest) => (.object (Entries.toFields entries), rest)
    | '[' :: _, 0 => none
    | '\x7b' :: _, 0 => none
    | cs, _ => scalar? cs

/-- The items of a list and its closing bracket. A comma may follow the last. -/
def items? (fuel depth : Nat) (cs : List Char) : Option (List Value × List Char) :=
  match fuel with
  | 0 => none
  | fuel + 1 =>
    match skipGap (cs.length + 1) cs with
    | ']' :: rest => some ([], rest)
    | cs => do
      let (item, rest) ← value? fuel depth cs
      match skipGap (rest.length + 1) rest with
      | ',' :: rest => (items? fuel depth rest).map fun (items, rest) => (item :: items, rest)
      | ']' :: rest => some ([item], rest)
      | _ => none

/-- The entries of a table in braces and its closing brace. -/
def fields? (fuel depth : Nat) (done : Entries) (cs : List Char) : Option (Entries × List Char) :=
  match fuel with
  | 0 => none
  | fuel + 1 => do
    let (path, rest) ← assigned? cs
    let (value, rest) ← value? fuel depth rest
    let done ← done.add? value path
    match skipSpace rest with
    | ',' :: rest => fields? fuel depth done rest
    | '\x7d' :: rest => some (done, rest)
    | _ => none

end

/-- A header and what it opens in the tables so far. -/
def header? (root : Entries) (cs : List Char) : Option (List String × Entries × List Char) := do
  let (listed, cs) := match cs with
    | '[' :: rest => (true, rest)
    | cs => (false, cs)
  let (path, rest) ← key? depthLimit cs
  let rest ← afterOpening? (if listed then [']', ']'] else [']']) rest
  let last ← path.getLast?
  let root ← root.change? (if listed then (·.openNext? last) else (·.openTable? last)) path.dropLast
  some (path, root, rest)

/-- Reads line after line. The entries of a line go to the table of the header
before it. -/
def lines? : Nat → List String → Entries → List Char → Option Entries
  | 0, _, _, _ => none
  | fuel + 1, within, root, cs =>
    match skipGap (cs.length + 1) cs with
    | [] => some root
    | c :: rest => do
      let (within, root, rest) ←
        if c = '[' then header? root rest
        else do
          let (path, rest) ← assigned? (c :: rest)
          let (value, rest) ← value? (2 * rest.length + 2) depthLimit rest
          let root ← root.change? (·.add? value path) within
          some (within, root, rest)
      match skipComment (skipSpace rest) with
      | [] => some root
      | rest => (afterBreak? rest).bind (lines? fuel within root)

/-- The value of a text: its top-level table unless that stands for a date. A byte
order mark may open the text. -/
def read? (text : String) : Option Value :=
  let cs := match text.toList with
    | '\ufeff' :: rest => rest
    | cs => cs
  (lines? (cs.length + 1) [] [] cs).bind fun entries => settleDates? (.object (Entries.toFields entries))

end LayeredConfig.Toml
