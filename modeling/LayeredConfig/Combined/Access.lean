import LayeredConfig.Combined.Compiled

namespace LayeredConfig

namespace Compiled

/-- The value, when no part of it is deferred. -/
def plain? : Compiled → Option Value
  | plain v => some v
  | _ => none

/-- A child by key. A part without deferred expressions has none here. -/
def child? (c : Compiled) (key : String) : Option Compiled :=
  match c with
  | object fields => fields.lookup key
  | _ => none

mutual

/-- The value with its tagged texts as they were written. -/
def shown : Compiled → Value
  | plain v => v
  | deferred d => .string d.source
  | array items => .array (shownItems items)
  | object fields => .object (shownFields fields)

def shownItems : List Compiled → List Value
  | [] => []
  | item :: rest => shown item :: shownItems rest

def shownFields : List (String × Compiled) → List (String × Value)
  | [] => []
  | (key, value) :: rest => (key, shown value) :: shownFields rest

end

mutual

/-- The value with the values of its deferred expressions, up to the first that
fails. -/
def evaluate (files : FileTree) : Compiled → Except ExprFault Value
  | plain v => .ok v
  | deferred d => d.evaluate files
  | array items => (evaluateItems files items).map .array
  | object fields => (evaluateFields files fields).map .object

def evaluateItems (files : FileTree) : List Compiled → Except ExprFault (List Value)
  | [] => .ok []
  | item :: rest => do
    let item ← evaluate files item
    let rest ← evaluateItems files rest
    .ok (item :: rest)

def evaluateFields (files : FileTree) : List (String × Compiled) → Except ExprFault (List (String × Value))
  | [] => .ok []
  | (key, value) :: rest => do
    let value ← evaluate files value
    let rest ← evaluateFields files rest
    .ok ((key, value) :: rest)

end

/-- The part of a value behind names in turn. -/
def descend? (v : Value) (names : List String) : Option Value :=
  names.foldlM Value.child? v

/-- The value behind names in turn. What is deferred is evaluated only where the
way leads. -/
def follow (files : FileTree) (c : Compiled) : List String → Except ExprFault (Option Value)
  | [] => (c.evaluate files).map some
  | name :: rest =>
    match c with
    | plain v => .ok (descend? v (name :: rest))
    | deferred d => (d.evaluate files).map (descend? · (name :: rest))
    | object fields =>
      match fields.lookup name with
      | none => .ok none
      | some child => child.follow files rest
    | array items =>
      match (wordOfText? name.toList).bind (items[·]?) with
      | none => .ok none
      | some child => child.follow files rest

end Compiled

namespace Configuration

def keys (c : Configuration) : List String :=
  keysOf c.entities

def get? (c : Configuration) (key : String) : Option Compiled :=
  c.entities.lookup key

/-- The value of an entity, when no part of it is deferred. -/
def entity? (c : Configuration) (key : String) : Option Value :=
  (c.get? key).bind Compiled.plain?

/-- The entities with their tagged texts as they were written. -/
def shown (c : Configuration) : Fields :=
  Compiled.shownFields c.entities

/-- The entities with the values of their deferred expressions. -/
def evaluate (files : FileTree) (c : Configuration) : Except Fault Fields :=
  (Compiled.evaluateFields files c.entities).mapError .evaluation

/-- The value at a dotted path, whose first segment is an entity key. -/
def getPath (files : FileTree) (c : Configuration) (path : String) : Except Fault (Option Value) :=
  match (pieces '.' path.toList).map String.ofList with
  | [] => .ok none
  | key :: rest =>
    match c.get? key with
    | none => .ok none
    | some found => (found.follow files rest).mapError .evaluation

end Configuration

end LayeredConfig
