import LayeredConfig.Yaml.Cursor

namespace LayeredConfig.Yaml

/-- What stands between two words of a scalar: blanks on a line, or line breaks
with blanks around them. The first break may be an escaped one, which stands
for nothing. -/
structure Gap where
  blanks : List Char
  broken : Bool
  first : List Char
  more : List Char

namespace Gap

def none : Gap :=
  ⟨[], false, [], []⟩

/-- A gap folds into text: a single line feed becomes a blank, of several the
first is dropped. -/
def text (g : Gap) : List Char :=
  if g.broken then
    if g.first = ['\n'] then (if g.more = [] then [' '] else g.more) else g.first ++ g.more
  else g.blanks

/-- Reads on through blanks and line breaks. Within an indentation, given by
the column it ends at, a tab is refused. -/
def read? (indentation : Option Nat) : Nat → Gap → Cursor → Option (Gap × Cursor)
  | 0, g, c => some (g, c)
  | fuel + 1, g, c =>
    match c.rest with
    | [] => some (g, c)
    | b :: _ =>
      if isSpaceOrTab b then
        if g.broken && b = '\t' && (indentation.any (c.column < ·)) then Option.none
        else read? indentation fuel (if g.broken then g else { g with blanks := g.blanks ++ [b] }) (c.skip 1)
      else if isBreak b then
        let (s, after) := c.lineBreak
        read? indentation fuel
          (if g.broken then { g with more := g.more ++ s }
            else { g with blanks := [], broken := true, first := s })
          after
      else some (g, c)

end Gap

def isFlowMark (c : Char) : Bool :=
  c = ',' || c = '[' || c = ']' || c = '\x7b' || c = '\x7d'

/-- The characters of a plain scalar up to a blank, a line break or a mark that
ends it. Inside brackets a colon before another mark is refused. -/
def plainWord? (flow : Bool) : List Char → Option (List Char)
  | [] => some []
  | c :: rest =>
    if isSpaceOrTab c || isBreak c then some []
    else if flow && c = ':' && rest.head?.any fun d => isFlowMark d || d = '?' then none
    else if (c = ':' && endsWord rest) || (flow && isFlowMark c) then some []
    else (plainWord? flow rest).map (c :: ·)

/-- Reads a plain scalar over its lines. The flag tells whether it stopped
after a line break. Outside of brackets a line must reach the indentation. -/
def plain? (flow : Bool) (indentation : Nat) : Nat → Cursor → Gap → List Char → Option (List Char × Bool × Cursor)
  | 0, _, _, _ => none
  | fuel + 1, c, gap, done => do
    if c.atDocumentMarker || c.rest.head? = some '#' then some (done, gap.broken, c)
    else
      let word ← plainWord? flow c.rest
      let (done, gap) := if word.isEmpty then (done, gap) else (done ++ gap.text ++ word, Gap.none)
      let c := c.skip word.length
      match c.rest with
      | [] => some (done, gap.broken, c)
      | b :: _ =>
        if isSpaceOrTab b || isBreak b then
          let (gap, c) ← Gap.read? (some indentation) fuel Gap.none c
          if !flow && c.column < indentation then some (done, gap.broken, c)
          else plain? flow indentation fuel c gap done
        else some (done, gap.broken, c)

/-- The character of an escape, from its letter on, and how many characters it
takes after the letter. -/
def escape? (letter : Char) (rest : List Char) : Option (Char × Nat) :=
  let coded (width : Nat) : Option (Char × Nat) := do
    let digits := rest.take width
    let n ← if digits.length = width then natOfDigits? 16 digits else none
    if (0xD800 ≤ n ∧ n ≤ 0xDFFF) ∨ 0x10FFFF < n then none else some (Char.ofNat n, width)
  match letter with
  | '0' => some ('\x00', 0)
  | 'a' => some ('\x07', 0)
  | 'b' => some ('\x08', 0)
  | 't' => some ('\t', 0)
  | '\t' => some ('\t', 0)
  | 'n' => some ('\n', 0)
  | 'v' => some ('\x0b', 0)
  | 'f' => some ('\x0c', 0)
  | 'r' => some ('\r', 0)
  | 'e' => some ('\x1b', 0)
  | ' ' => some (' ', 0)
  | '"' => some ('"', 0)
  | '/' => some ('/', 0)
  | '\\' => some ('\\', 0)
  | 'N' => some ('\u0085', 0)
  | '_' => some ('\u00a0', 0)
  | 'L' => some ('\u2028', 0)
  | 'P' => some ('\u2029', 0)
  | 'x' => coded 2
  | 'u' => coded 4
  | 'U' => coded 8
  | _ => none

/-- The characters of a quoted scalar up to a blank, a line break or its quote.
The flag tells whether an escaped line break ended them. -/
def quotedWord? (quote : Char) : Nat → Cursor → List Char → Option (List Char × Bool × Cursor)
  | 0, _, _ => none
  | fuel + 1, c, done =>
    match c.rest with
    | [] => some (done, false, c)
    | d :: rest =>
      if isSpaceOrTab d || isBreak d then some (done, false, c)
      else if d = quote then
        if quote = '\'' ∧ rest.head? = some '\'' then quotedWord? quote fuel (c.skip 2) (done ++ ['\''])
        else some (done, false, c)
      else if quote = '"' ∧ d = '\\' then
        match rest with
        | [] => none
        | letter :: rest =>
          if isBreak letter then some (done, true, (c.skip 1).lineBreak.2)
          else do
            let (s, width) ← escape? letter rest
            quotedWord? quote fuel (c.skip (2 + width)) (done ++ [s])
      else quotedWord? quote fuel (c.skip 1) (done ++ [d])

/-- Reads a quoted scalar from behind its opening quote to behind its closing
one. A document marker inside is refused. -/
def quoted? (quote : Char) : Nat → Cursor → List Char → Option (List Char × Cursor)
  | 0, _, _ => none
  | fuel + 1, c, done => do
    if c.atDocumentMarker || c.rest.isEmpty then none
    else
      let (done, escaped, c) ← quotedWord? quote (fuel + 1) c done
      if !escaped && c.rest.head? = some quote then some (done, c.skip 1)
      else
        let (gap, c) ← Gap.read? none fuel { Gap.none with broken := escaped } c
        quoted? quote fuel c (done ++ gap.text)

/-- What becomes of the line breaks at the end of a block scalar. -/
inductive Chomping
  | strip
  | clip
  | keep
  deriving DecidableEq, Repr

/-- The chomping sign and the digit of indentation in the head of a block
scalar, in either order, and how many characters they take. -/
def blockHead? (cs : List Char) : Option (Chomping × Nat × Nat) :=
  let sign (c : Char) : Option Chomping := if c = '+' then some .keep else if c = '-' then some .strip else none
  let digit (c : Char) : Option Nat := if c.isDigit then some (c.toNat - '0'.toNat) else none
  match cs with
  | [] => some (.clip, 0, 0)
  | a :: rest =>
    match sign a, digit a with
    | some chomping, _ =>
      match rest.head?.bind digit with
      | some 0 => none
      | some n => some (chomping, n, 2)
      | none => some (chomping, 0, 1)
    | none, some 0 => none
    | none, some n =>
      match rest.head?.bind sign with
      | some chomping => some (chomping, n, 2)
      | none => some (.clip, n, 1)
    | none, none => some (.clip, 0, 0)

/-- Reads the empty lines before a line of a block scalar: their breaks, and the
greatest column met. Blanks count as indentation up to the given column, or
all of them when it is zero, and a tab there is refused. -/
def blockBreaks? (indentation : Nat) : Nat → Cursor → List Char → Nat → Option (List Char × Nat × Cursor)
  | 0, _, _, _ => none
  | fuel + 1, c, breaks, deepest =>
    let within := c.rest.takeWhile (· = ' ')
    let c := c.skip (if indentation = 0 then within.length else min within.length (indentation - c.column))
    let deepest := max deepest c.column
    match c.rest with
    | [] => some (breaks, deepest, c)
    | b :: _ =>
      if b = '\t' ∧ (indentation = 0 ∨ c.column < indentation) then none
      else if isBreak b then
        let (s, after) := c.lineBreak
        blockBreaks? indentation fuel after (breaks ++ s) deepest
      else some (breaks, deepest, c)

/-- The lines of a block scalar read so far. -/
structure BlockText where
  done : List Char
  leadingBreak : List Char
  trailingBreaks : List Char
  leadingBlank : Bool

/-- Reads the lines of a block scalar that stand at its indentation. Folding
joins two lines that do not open with a blank. -/
def blockLines? (literal : Bool) (indentation : Nat) : Nat → Cursor → BlockText → Option (BlockText × Cursor)
  | 0, _, _ => none
  | fuel + 1, c, t =>
    if c.column = indentation ∧ ¬c.rest.isEmpty then do
      let blank := c.rest.head?.any isSpaceOrTab
      let folded := !literal && t.leadingBreak = ['\n'] && !t.leadingBlank && !blank
      let joint := if folded then (if t.trailingBreaks = [] then [' '] else []) else t.leadingBreak
      let line := c.rest.takeWhile (!isBreak ·)
      let (s, after) := (c.skip line.length).lineBreak
      let (breaks, _, c) ← blockBreaks? indentation fuel after [] 0
      blockLines? literal indentation fuel c ⟨t.done ++ joint ++ t.trailingBreaks ++ line, s, breaks, blank⟩
    else some (t, c)

/-- Reads a block scalar from behind its mark. The indentation of the block
around it is a column, or none at the top. -/
def block? (literal : Bool) (around : Option Nat) (fuel : Nat) (c : Cursor) : Option (List Char × Cursor) := do
  let (chomping, digit, width) ← blockHead? c.rest
  let c := ((c.skip width).skipWhile isSpaceOrTab).skipComment
  if !endsLine c.rest then none
  else
    let (_, c) := c.lineBreak
    let given := if digit = 0 then 0 else around.getD 0 + digit
    let (breaks, deepest, c) ← blockBreaks? given fuel c [] 0
    let indentation := if given = 0 then max deepest (max (around.elim 0 (· + 1)) 1) else given
    let (t, c) ← blockLines? literal indentation fuel c ⟨[], [], breaks, false⟩
    let tail := match chomping with
      | .strip => []
      | .clip => t.leadingBreak
      | .keep => t.leadingBreak ++ t.trailingBreaks
    some (t.done ++ tail, c)

end LayeredConfig.Yaml
