import LayeredConfig.Yaml.ScalarText
import LayeredConfig.Yaml.Tag

namespace LayeredConfig.Yaml

/-- A place where a key may have begun, with the number of tokens before it. A
colon on the same line makes it a key. It is required to be one when it stands
at the indentation of a block. -/
structure KeyStart where
  required : Bool
  number : Nat
  index : Nat
  line : Nat
  column : Nat

/-- A stream cut into tokens as far as the cursor, the newest token first. The
columns of the open blocks are kept innermost first, and a key start for each
open bracket and the block around them. -/
structure Layout where
  cursor : Cursor
  tokens : List Token
  count : Nat
  indents : List Nat
  keyAllowed : Bool
  keyStart : Option KeyStart
  outer : List (Option KeyStart)

namespace Layout

def start (cs : List Char) : Layout :=
  ⟨⟨cs, 0, 0, 0⟩, [], 0, [], true, none, []⟩

def inFlow (l : Layout) : Bool :=
  !l.outer.isEmpty

/-- Adds a token before which stand `number` others. -/
def insert (l : Layout) (number : Nat) (token : Token) : Layout :=
  let later := l.count - number
  { l with tokens := l.tokens.take later ++ token :: l.tokens.drop later, count := l.count + 1 }

def push (l : Layout) (token : Token) : Layout :=
  l.insert l.count token

/-- Adds a token that ends where the cursor is given. -/
def take (l : Layout) (token : Token) (after : Cursor) : Layout :=
  { l.push token with cursor := after }

/-- Closes the blocks that stand deeper than a column, or all of them. -/
def closeBlocks (l : Layout) (column : Option Nat) : Layout :=
  if l.inFlow then l
  else
    let closed := (l.indents.takeWhile fun i => column.all (· < i)).length
    { l with
      indents := l.indents.drop closed
      tokens := List.replicate closed .blockEnd ++ l.tokens
      count := l.count + closed }

/-- Opens a block at a column unless one is open there. -/
def openBlock (l : Layout) (column number : Nat) (token : Token) : Layout :=
  if !l.inFlow && l.indents.head?.all (· < column) then
    { l.insert number token with indents := column :: l.indents }
  else l

/-- Gives up the key start; a required one may not be given up. -/
def forgetKey? (l : Layout) : Option Layout :=
  if l.keyStart.any (·.required) then none else some { l with keyStart := none }

/-- Takes the cursor for a key start where one is allowed. -/
def rememberKey? (l : Layout) : Option Layout :=
  if l.keyAllowed then do
    let c := l.cursor
    let l ← l.forgetKey?
    some { l with keyStart := some ⟨!l.inFlow && l.indents.head? = some c.column, l.count, c.index,
      c.line, c.column⟩ }
  else some l

/-- A key start is given up on the next line and after 1024 bytes. -/
def stillOpen? (c : Cursor) (key : Option KeyStart) : Option (Option KeyStart) :=
  match key with
  | none => some none
  | some k =>
    if k.line < c.line ∨ k.index + 1024 < c.index then (if k.required then none else some none) else some key

/-- Past blanks, comments and line breaks. A byte order mark may open a line and
takes a column there. A tab is a blank only where no key may begin. -/
def skipGap : Nat → Layout → Layout
  | 0, l => l
  | fuel + 1, l =>
    let c := l.cursor
    let c := if c.column = 0 ∧ c.rest.head? = some '\ufeff' then c.skip 1 else c
    let c := (c.skipWhile fun d => d = ' ' || (d = '\t' && (l.inFlow || !l.keyAllowed))).skipComment
    if c.rest.head?.any isBreak then
      skipGap fuel { l with cursor := c.lineBreak.2, keyAllowed := l.keyAllowed || !l.inFlow }
    else { l with cursor := c }

/-- A mark that opens brackets. -/
def openFlow? (l : Layout) (token : Token) : Option Layout := do
  let l ← l.rememberKey?
  some { l.take token (l.cursor.skip 1) with keyAllowed := true, keyStart := none, outer := l.keyStart :: l.outer }

/-- A mark that closes brackets. -/
def closeFlow? (l : Layout) (token : Token) : Option Layout := do
  let l ← l.forgetKey?
  let l := { l.take token (l.cursor.skip 1) with keyAllowed := false }
  match l.outer with
  | [] => some l
  | key :: outer => some { l with keyStart := key, outer := outer }

/-- A dash or a question mark of a block, which opens the block at its column if
need be. -/
def blockMark? (l : Layout) (opening token : Token) (keyAllowed : Bool) : Option Layout :=
  if !l.inFlow && !l.keyAllowed then none
  else do
    let l ← (l.openBlock l.cursor.column l.count opening).forgetKey?
    some { l.take token (l.cursor.skip 1) with keyAllowed := keyAllowed }

/-- A colon. What stands at the key start becomes a key. -/
def valueMark? (l : Layout) : Option Layout :=
  match l.keyStart with
  | some key =>
    let l := (l.insert key.number .key).openBlock key.column key.number .blockMappingStart
    some { l.take .value (l.cursor.skip 1) with keyAllowed := false, keyStart := none }
  | none =>
    if !l.inFlow && !l.keyAllowed then none
    else
      let l := l.openBlock l.cursor.column l.count .blockMappingStart
      some { l.take .value (l.cursor.skip 1) with keyAllowed := !l.inFlow }

/-- A token that may open a key and does not let one follow. -/
def keyed? (l : Layout) (read : Option (Token × Cursor)) : Option Layout := do
  let l ← l.rememberKey?
  let (token, after) ← read
  some { l.take token after with keyAllowed := false }

/-- A token that stands outside of all blocks. -/
def unindented? (l : Layout) (read : Option (Token × Cursor)) : Option Layout := do
  let l ← (l.closeBlocks none).forgetKey?
  let (token, after) ← read
  some { l.take token after with keyAllowed := false }

def quotedScalar? (fuel : Nat) (l : Layout) (quote : Char) : Option Layout :=
  l.keyed? ((quoted? quote fuel (l.cursor.skip 1) []).map fun (s, after) =>
    (.scalar (String.ofList s) false, after))

def blockScalar? (fuel : Nat) (l : Layout) (literal : Bool) : Option Layout := do
  let l ← l.forgetKey?
  let (s, after) ← block? literal l.indents.head? fuel (l.cursor.skip 1)
  some { l.take (.scalar (String.ofList s) false) after with keyAllowed := true }

def plainScalar? (fuel : Nat) (l : Layout) : Option Layout := do
  let l ← l.rememberKey?
  let indentation := l.indents.head?.elim 0 (· + 1)
  let (s, broken, after) ← plain? l.inFlow indentation fuel l.cursor Gap.none []
  some { l.take (.scalar (String.ofList s) true) after with keyAllowed := broken }

/-- Whether a plain scalar starts with the character, the rest behind it. -/
def startsPlain (flow : Bool) (c : Char) (rest : List Char) : Bool :=
  if c = '-' then !rest.head?.any isSpaceOrTab
  else if c = '?' ∨ c = ':' then !flow && !endsWord rest
  else !(isSpaceOrTab c || isBreak c || ",[]\x7b\x7d#&*!|>'\"%@\x60".toList.contains c)

/-- Adds the next token. The flag tells whether it ends the stream. The fuel exceeds
the length of the rest. -/
def next? (fuel : Nat) (l : Layout) : Option (Layout × Bool) := do
  let l := skipGap fuel l
  let keyStart ← stillOpen? l.cursor l.keyStart
  let outer ← l.outer.mapM (stillOpen? l.cursor)
  let l := { l with keyStart := keyStart, outer := outer }.closeBlocks l.cursor.column
  let c := l.cursor
  let going (next : Option Layout) : Option (Layout × Bool) := next.map (·, false)
  match c.rest with
  | [] => (l.unindented? (some (.streamEnd, c))).map (·, true)
  | d :: rest =>
    if c.column = 0 ∧ d = '%' then going (l.unindented? (directive? c))
    else if c.atMarker '-' then going (l.unindented? (some (.documentStart, c.skip 3)))
    else if c.atMarker '.' then going (l.unindented? (some (.documentEnd, c.skip 3)))
    else if d = '[' then going (l.openFlow? .flowSequenceStart)
    else if d = '\x7b' then going (l.openFlow? .flowMappingStart)
    else if d = ']' then going (l.closeFlow? .flowSequenceEnd)
    else if d = '\x7d' then going (l.closeFlow? .flowMappingEnd)
    else if d = ',' then do
      let l ← l.forgetKey?
      some ({ l.take .flowEntry (c.skip 1) with keyAllowed := true }, false)
    else if d = '-' ∧ endsWord rest then going (l.blockMark? .blockSequenceStart .blockEntry true)
    else if d = '?' ∧ (l.inFlow ∨ endsWord rest) then going (l.blockMark? .blockMappingStart .key (!l.inFlow))
    else if d = ':' ∧ (l.inFlow ∨ endsWord rest) then going l.valueMark?
    else if d = '*' then going (l.keyed? ((anchorName? c).map fun (name, after) => (.alias name, after)))
    else if d = '&' then going (l.keyed? ((anchorName? c).map fun (name, after) => (.anchor name, after)))
    else if d = '!' then going (l.keyed? (tag? l.inFlow c))
    else if d = '|' ∧ ¬l.inFlow then going (blockScalar? fuel l true)
    else if d = '>' ∧ ¬l.inFlow then going (blockScalar? fuel l false)
    else if d = '\'' ∨ d = '"' then going (quotedScalar? fuel l d)
    else if startsPlain l.inFlow d rest then going (plainScalar? fuel l)
    else none

/-- The tokens from here to the end of the stream. -/
def finish? : Nat → Layout → Option (List Token)
  | 0, _ => none
  | fuel + 1, l => do
    let (l, ended) ← next? fuel l
    if ended then some l.tokens.reverse else finish? fuel l

end Layout

/-- The tokens of a text. Each token but the last takes a character of its own. -/
def tokens? (text : String) : Option (List Token) :=
  let cs := text.toList
  if cs.all isAllowed then (Layout.start cs).finish? (cs.length + 2) else none

end LayeredConfig.Yaml
