import LayeredConfig.Value.Basic

namespace LayeredConfig.Toml

/-- How a table came to be: by a header of its own, on the way to another
header, or by a dotted key. -/
inductive Opening
  | header
  | onTheWay
  | dotted
  deriving DecidableEq, Repr, Inhabited

/-- What stands under a key. Of a list of tables only the last one is open. -/
inductive Item
  | value (v : Value)
  | table (opening : Opening) (entries : List (String × Item))
  | tables (closed : List (List (String × Item))) (last : List (String × Item))
  deriving Repr, Inhabited

abbrev Entries := List (String × Item)

namespace Entries

/-- Changes the table at a path of headers. Tables on the way that do not exist
are made; a value on the way is refused. -/
def change? (change : Entries → Option Entries) : List String → Entries → Option Entries
  | [], entries => change entries
  | key :: path, entries =>
    match entries.lookup key with
    | none => (change? change path []).map fun inner => put key (.table .onTheWay inner) entries
    | some (.value _) => none
    | some (.table opening inner) =>
      (change? change path inner).map fun inner => put key (.table opening inner) entries
    | some (.tables closed last) => (change? change path last).map fun last =>
      put key (.tables closed last) entries

/-- Opens a table by a header. It must be new, or known only as a step on the way
to another one; then it moves behind the keys beside it. -/
def openTable? (key : String) (entries : Entries) : Option Entries :=
  match entries.lookup key with
  | none => some (put key (.table .header []) entries)
  | some (.table .onTheWay inner) => some (without key entries ++ [(key, .table .header inner)])
  | _ => none

/-- Opens the next table of a list of tables. -/
def openNext? (key : String) (entries : Entries) : Option Entries :=
  match entries.lookup key with
  | none => some (put key (.tables [] []) entries)
  | some (.tables closed last) => some (put key (.tables (closed ++ [last]) []) entries)
  | _ => none

/-- Adds a value under a dotted key. The key must be new, and the table that
gets it must have been made by a dotted key. -/
def add? (value : Value) : List String → Entries → Option Entries
  | [], _ => none
  | [key], entries =>
    match entries.lookup key with
    | none => some (put key (.value value) entries)
    | some _ => none
  | key :: next :: path, entries =>
    match entries.lookup key with
    | none => (add? value (next :: path) []).map fun inner => put key (.table .dotted inner) entries
    | some (.table opening inner) =>
      if opening = .header ∨ (path = [] ∧ opening ≠ .dotted) then none
      else (add? value (next :: path) inner).map fun inner => put key (.table opening inner) entries
    | some (.tables closed last) =>
      if path = [] then none
      else (add? value (next :: path) last).map fun last => put key (.tables closed last) entries
    | some (.value _) => none

mutual

/-- The entries as fields of an object. -/
def toFields : List (String × Item) → Fields
  | [] => []
  | (key, item) :: rest => (key, itemValue item) :: toFields rest

def itemValue : Item → Value
  | .value v => v
  | .table _ entries => .object (toFields entries)
  | .tables closed last => .array (tableValues closed ++ [.object (toFields last)])

def tableValues : List (List (String × Item)) → List Value
  | [] => []
  | entries :: rest => .object (toFields entries) :: tableValues rest

end

end Entries

end LayeredConfig.Toml
