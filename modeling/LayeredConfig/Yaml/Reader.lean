import LayeredConfig.Value.Basic
import LayeredConfig.Yaml.Layout
import LayeredConfig.Yaml.Node
import LayeredConfig.Yaml.PlainScalar

namespace LayeredConfig.Yaml

/-- How many collections may enclose a value. -/
def maxDepth : Nat := 128

/-- The numbers given to anchors. -/
abbrev AnchorNumbers := List (String × Nat)

/-- An anchor's number is that of the names known before it. -/
def Mark.numbered (m : Mark String) (known : AnchorNumbers) : Mark Nat × AnchorNumbers :=
  match m.anchor with
  | none => (⟨none, m.tag⟩, known)
  | some name => (⟨some known.length, m.tag⟩, put name known.length known)

namespace Node

mutual

/-- Replaces names by numbers, in the order of the text. An alias stands for
the last anchor of its name before it; there must be one. -/
def numbered? (known : AnchorNumbers) : Node String → Option (Node Nat × AnchorNumbers)
  | .alias name => (known.lookup name).map fun n => (.alias n, known)
  | .scalar mark content plain =>
    let (mark, known) := mark.numbered known
    some (.scalar mark content plain, known)
  | .sequence mark items => do
    let (mark, known) := mark.numbered known
    let (items, known) ← numberedItems? known items
    some (.sequence mark items, known)
  | .mapping mark entries => do
    let (mark, known) := mark.numbered known
    let (entries, known) ← numberedEntries? known entries
    some (.mapping mark entries, known)

def numberedItems? (known : AnchorNumbers) : List (Node String) → Option (List (Node Nat) × AnchorNumbers)
  | [] => some ([], known)
  | item :: rest => do
    let (item, known) ← numbered? known item
    let (rest, known) ← numberedItems? known rest
    some (item :: rest, known)

def numberedEntries? (known : AnchorNumbers) :
    List (Node String × Node String) → Option (List (Node Nat × Node Nat) × AnchorNumbers)
  | [] => some ([], known)
  | (key, value) :: rest => do
    let (key, known) ← numbered? known key
    let (value, known) ← numbered? known value
    let (rest, known) ← numberedEntries? known rest
    some ((key, value) :: rest, known)

end

/-- The nodes with an anchor. -/
abbrev Anchored := List (Nat × Node Nat)

def withAnchor (mark : Mark Nat) (node : Node Nat) (found : Anchored) : Anchored :=
  mark.anchor.elim found fun n => put n node found

mutual

/-- Collects the nodes with an anchor; of one number the last to start counts. -/
def anchored (found : Anchored) : Node Nat → Anchored
  | .alias _ => found
  | .scalar mark content plain => withAnchor mark (.scalar mark content plain) found
  | .sequence mark items => anchoredItems (withAnchor mark (.sequence mark items) found) items
  | .mapping mark entries => anchoredEntries (withAnchor mark (.mapping mark entries) found) entries

def anchoredItems (found : Anchored) : List (Node Nat) → Anchored
  | [] => found
  | item :: rest => anchoredItems (anchored found item) rest

def anchoredEntries (found : Anchored) : List (Node Nat × Node Nat) → Anchored
  | [] => found
  | (key, value) :: rest => anchoredEntries (anchored (anchored found key) value) rest

end

mutual

/-- How many marks the node is made of: one for a scalar or an alias, two around
a collection. -/
def weight : Node Nat → Nat
  | .alias _ => 1
  | .scalar .. => 1
  | .sequence _ items => weightItems items + 2
  | .mapping _ entries => weightEntries entries + 2

def weightItems : List (Node Nat) → Nat
  | [] => 0
  | item :: rest => weight item + weightItems rest

def weightEntries : List (Node Nat × Node Nat) → Nat
  | [] => 0
  | (key, value) :: rest => weight key + weight value + weightEntries rest

end

/-- Whether a tag opens with an exclamation mark. -/
def startsLocal (tag : TagBytes) : Bool :=
  tag.head? = some '!'.toUInt8

/-- A tag of an application's own; its bytes must be UTF-8. -/
def isLocalTag (tag : Option TagBytes) : Bool :=
  tag.any fun t => startsLocal t && (String.fromUTF8? ⟨t.toArray⟩).isSome

def intValue? (n : Int) : Option Value :=
  if Number.inRange n then some (.number (.int n)) else none

/-- The value of a scalar by its form alone. Numbers that are not finite count as
null, and integers out of range are refused. -/
def plainValue? (content : String) : Option Value :=
  match plainMeaning content with
  | .null => some .null
  | .bool b => some (.bool b)
  | .int n => intValue? n
  | .float x => some (.number (.float x))
  | .notFinite => some .null
  | .text => some (.string content)

/-- The value of a scalar. The tags of the core types ask for a fitting text, and
no local tag has a meaning. Any other tag, and quotes, make it a string, but a tag
that is local save for its bytes counts as none. -/
def scalarValue? (tag : Option TagBytes) (content : String) (plain : Bool) : Option Value :=
  match tag with
  | none => if plain then plainValue? content else some (.string content)
  | some t =>
    if t = coreTag "bool" then (boolWord? content).map .bool
    else if t = coreTag "int" then (plainInt? content.toList).bind intValue?
    else if t = coreTag "float" then
      if isNotFinite content then some .null else (plainFloat? content.toList).map fun x => .number (.float x)
    else if t = coreTag "null" then if isNullWord content then some .null else none
    else if isLocalTag tag then none
    else if startsLocal t && plain then plainValue? content
    else some (.string content)

/-- The node an alias stands for, and how many aliases may still be followed. -/
def follow? (found : Anchored) (node : Node Nat) (left : Nat) : Option (Node Nat × Nat) :=
  match node with
  | .alias n => if left = 0 then none else (found.lookup n).map (·, left - 1)
  | node => some (node, left)

/-- Reads nodes in turn with the rest of the allowance for aliases. -/
def inTurn? (read : Node Nat → Nat → Option (Value × Nat)) : List (Node Nat) → Nat → Option (List Value × Nat)
  | [], left => some ([], left)
  | item :: rest, left => do
    let (value, left) ← read item left
    let (values, left) ← inTurn? read rest left
    some (value :: values, left)

/-- Reads entries in turn. A key is a scalar and counts as its text; of a
repeated key the last value counts, at the place of the first. -/
def entriesInTurn? (found : Anchored) (read : Node Nat → Nat → Option (Value × Nat)) (done : Fields) :
    List (Node Nat × Node Nat) → Nat → Option (Fields × Nat)
  | [], left => some (done, left)
  | (key, value) :: rest, left => do
    let (key, left) ← follow? found key left
    match key with
    | .scalar _ content _ =>
      let (value, left) ← read value left
      entriesInTurn? found read (put content value done) rest left
    | _ => none

/-- The value of a node, whose parts are read by `inner`; without it the node
stands too deep to have parts. -/
def valueBy? (found : Anchored) (inner : Option (Node Nat → Nat → Option (Value × Nat))) (node : Node Nat)
    (left : Nat) :
    Option (Value × Nat) := do
  let (node, left) ← follow? found node left
  match node, inner with
  | .scalar mark content plain, _ => (scalarValue? mark.tag content plain).map (·, left)
  | .sequence mark items, some read =>
    if isLocalTag mark.tag then none else (inTurn? read items left).map fun (items, left) => (.array items, left)
  | .mapping mark entries, some read =>
    if isLocalTag mark.tag then none
    else (entriesInTurn? found read [] entries left).map fun (fields, left) => (.object fields, left)
  | _, _ => none

/-- The value of a node within a depth. -/
def value? (found : Anchored) : Nat → Node Nat → Nat → Option (Value × Nat)
  | 0 => valueBy? found none
  | depth + 1 => valueBy? found (some (value? found depth))

end Node

/-- Reads a text that holds one document at most; no document counts as null.
Aliases may be followed a hundred times for each mark of the document. -/
def read? (text : String) : Option Value := do
  let tokens ← tokens? text
  let named ← Node.ofTokens? tokens
  let (node, _) ← named.numbered? []
  let (value, _) ← node.value? (node.anchored []) maxDepth (100 * node.weight)
  some value

end LayeredConfig.Yaml
