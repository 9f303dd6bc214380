import LayeredConfig.Yaml.Style

namespace LayeredConfig.Yaml

/-- A text being written: its characters, newest first, the column, whether a
blank or nothing comes before, and whether only marks of blocks stand on the
line so far. -/
structure Sheet where
  written : List Char
  column : Nat
  spaced : Bool
  lineStart : Bool

namespace Sheet

def blank : Sheet :=
  ⟨[], 0, true, true⟩

def text (s : Sheet) : String :=
  String.ofList s.written.reverse

def put (s : Sheet) (c : Char) : Sheet :=
  { s with written := c :: s.written, column := s.column + 1 }

def putAll (s : Sheet) (cs : List Char) : Sheet :=
  cs.foldl put s

/-- A character that ends the line. -/
def putBreak (s : Sheet) (c : Char) : Sheet :=
  { s with written := c :: s.written, column := 0 }

/-- Moves to a column, on a new line unless only marks of blocks stand before
it. -/
def moveTo (s : Sheet) (column : Nat) : Sheet :=
  let s := if !s.lineStart || column < s.column || (s.column = column && !s.spaced) then s.putBreak '\n' else s
  { s.putAll (List.replicate (column - s.column) ' ') with spaced := true, lineStart := true }

/-- A mark set off by a blank from what is before it. -/
def mark (s : Sheet) (mark : List Char) (opensBlock : Bool) : Sheet :=
  let s := if s.spaced then s else s.put ' '
  { s.putAll mark with spaced := false, lineStart := s.lineStart && opensBlock }

/-- A mark that adjoins what is before it. -/
def adjoin (s : Sheet) (mark : List Char) : Sheet :=
  { s.putAll mark with spaced := false, lineStart := false }

/-- A text on one line. -/
def word (s : Sheet) (cs : List Char) : Sheet :=
  s.mark cs false

/-- The lines of a text, each moved to a column; `spell` tells how a character
is written. The flag tells whether a line break came last. -/
def lines (column : Nat) (spell : Char → List Char) (broken : Bool) : List Char → Sheet → Sheet × Bool
  | [], s => (s, broken)
  | c :: rest, s =>
    if isBreak c then lines column spell true rest { s.putBreak c with lineStart := true }
    else
      let s := if broken then s.moveTo column else s
      lines column spell false rest { s.putAll (spell c) with lineStart := false }

end Sheet

end LayeredConfig.Yaml
