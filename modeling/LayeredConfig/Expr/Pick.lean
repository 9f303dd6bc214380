import LayeredConfig.Text.Blank
import LayeredConfig.Value.Basic

namespace LayeredConfig

/-- A segment of a dotted path: a name, which may be empty, and an index in
brackets after it. -/
structure PickSegment where
  name : List Char
  index : Option Nat

/-- Takes a segment apart; none when what follows the first bracket is not an
index and a closing bracket. -/
def PickSegment.ofText? (segment : List Char) : Option PickSegment :=
  let name := segment.takeWhile (· ≠ '[')
  match segment.dropWhile (· ≠ '[') with
  | [] => some ⟨name, none⟩
  | _ :: rest => do
    let digits ← beforeEnding? [']'] rest
    let index ← wordOfText? digits
    some ⟨name, some index⟩

/-- One step by name: a field of an object or, if the name is a number, an item
of a list. -/
def Value.child? (v : Value) (name : String) : Option Value :=
  match v with
  | .object fields => fields.lookup name
  | .array items => (wordOfText? name.toList).bind (items[·]?)
  | _ => none

def Value.item? (v : Value) (index : Nat) : Option Value :=
  match v with
  | .array items => items[index]?
  | _ => none

/-- Follows one segment: its name unless it is empty, then its index. -/
def PickSegment.follow? (s : PickSegment) (v : Value) : Option Value := do
  let named ← if s.name = [] then some v else v.child? (String.ofList s.name)
  match s.index with
  | none => some named
  | some i => named.item? i

/-- Follows segments in turn. The failure is the segment that leads nowhere. -/
def pickSegments (v : Value) : List (List Char) → Except String Value
  | [] => .ok v
  | segment :: rest =>
    match (PickSegment.ofText? segment).bind (·.follow? v) with
    | none => .error (String.ofList segment)
    | some next => pickSegments next rest

/-- The part of a value at a dotted path; the empty path is the value itself. -/
def pickPath (v : Value) (path : String) : Except String Value :=
  if path = "" then .ok v else pickSegments v (pieces '.' path.toList)

end LayeredConfig
