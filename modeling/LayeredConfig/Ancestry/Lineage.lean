import LayeredConfig.Location.Basic
import LayeredConfig.Value.Basic

namespace LayeredConfig

/-- A document and its parents, each with the reference it was named by; the
first document has none. -/
inductive Lineage
  | node (location : Location) (reference : Option String) (parents : List Lineage)
  deriving Repr, Inhabited

namespace Lineage

def location : Lineage → Location
  | node location _ _ => location

mutual

/-- All places, each before those of its parents. -/
def locations : Lineage → List Location
  | node location _ parents => location :: locationsAll parents

def locationsAll : List Lineage → List Location
  | [] => []
  | parent :: rest => locations parent ++ locationsAll rest

end

mutual

/-- The tree as a value, field by field. -/
def toValue : Lineage → Value
  | node location reference parents =>
    .object ([("absoluteLocation", .string location.text), ("extends", .array (toValues parents))] ++
      reference.elim [] fun r => [("originalReferenceText", .string r)])

def toValues : List Lineage → List Value
  | [] => []
  | parent :: rest => toValue parent :: toValues rest

end

/-- A place as seen from a base: relative to it when below it. -/
def shown (base location : Location) : String :=
  (location.below? base).getD location.text

/-- What a line says about a document. -/
def label (base location : Location) (reference : Option String) : String :=
  shown base location ++ reference.elim "" fun r => s!"  ({r})"

mutual

/-- The lines of a document and its parents. `margin` stands in front of the
branches to the parents. -/
def lines (base : Location) (branch margin : String) : Lineage → List String
  | node location reference parents =>
    (branch ++ label base location reference) :: linesAll base margin parents

/-- The lines of parents, under one margin. The last parent has a corner, and no
bar goes on below it. -/
def linesAll (base : Location) (margin : String) : List Lineage → List String
  | [] => []
  | [parent] => lines base (margin ++ "└── ") (margin ++ "    ") parent
  | parent :: next :: rest =>
    lines base (margin ++ "├── ") (margin ++ "│   ") parent ++ linesAll base margin (next :: rest)

end

/-- The tree as text, a line for each document. -/
def draw (base : Location) (l : Lineage) : String :=
  String.join ((lines base "" "" l).map (· ++ "\n"))

end Lineage

end LayeredConfig
