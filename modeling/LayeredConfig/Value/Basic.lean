import LayeredConfig.Number.Binary64

namespace LayeredConfig

/-- A number of a document. An integer and a float are different numbers even
when their values agree. -/
inductive Number
  | int (n : Int)
  | float (x : Binary64)
  deriving DecidableEq, Repr, Inhabited

/-- The integers that are kept exactly: those of an unsigned or a signed
machine word. -/
def Number.inRange (n : Int) : Bool :=
  -9223372036854775808 ≤ n && n < 18446744073709551616

/-- Equal kind and equal value. -/
def Number.alike : Number → Number → Bool
  | .int m, .int n => m == n
  | .float x, .float y => x.sameValue y
  | _, _ => false

/-- A value of a document. The fields of an object keep their order. -/
inductive Value
  | null
  | bool (b : Bool)
  | number (n : Number)
  | string (s : String)
  | array (items : List Value)
  | object (fields : List (String × Value))
  deriving Repr, Inhabited

/-- The fields of an object in their order. -/
abbrev Fields := List (String × Value)

section Entries

variable {κ α : Type} [DecidableEq κ]

/-- Binds a key. A key that is bound keeps its place; a new one comes last. -/
def put (key : κ) (value : α) : List (κ × α) → List (κ × α)
  | [] => [(key, value)]
  | (k, v) :: rest => if k = key then (k, value) :: rest else (k, v) :: put key value rest

/-- Removes a key; the order of the others is kept. -/
def without (key : κ) (entries : List (κ × α)) : List (κ × α) :=
  entries.filter fun e => e.1 ≠ key

/-- The entries with each key once: the place of its first entry, the value of
its last. -/
def lastWins (entries : List (κ × α)) : List (κ × α) :=
  entries.foldl (fun done e => put e.1 e.2 done) []

def keysOf (entries : List (κ × α)) : List κ :=
  entries.map Prod.fst

@[simp] theorem lookup_put_self [BEq κ] [LawfulBEq κ] (key : κ) (value : α) (entries : List (κ × α)) :
    (put key value entries).lookup key = some value := by
  induction entries with
  | nil => simp [put]
  | cons e rest ih =>
    obtain ⟨k, v⟩ := e
    by_cases same : k = key
    · simp [put, same]
    · have apart : (key == k) = false := by simpa using fun h => same h.symm
      simp [put, same, List.lookup_cons, apart, ih]

theorem lookup_put_of_ne [BEq κ] [LawfulBEq κ] {key other : κ} (apart : other ≠ key) (value : α)
    (entries : List (κ × α)) : (put key value entries).lookup other = entries.lookup other := by
  induction entries with
  | nil =>
    have no : (other == key) = false := by simpa using apart
    simp [put, List.lookup_cons, no]
  | cons e rest ih =>
    obtain ⟨k, v⟩ := e
    by_cases same : k = key
    · subst same
      have no : (other == k) = false := by simpa using apart
      simp [put, List.lookup_cons, no]
    · simp only [put, same, if_false, List.lookup_cons, ih]

/-- Binding a key adds it at the end unless it was there. -/
theorem keysOf_put (key : κ) (value : α) (entries : List (κ × α)) :
    keysOf (put key value entries) = if key ∈ keysOf entries then keysOf entries else keysOf entries ++ [key] := by
  induction entries with
  | nil => simp [put, keysOf]
  | cons e rest ih =>
    obtain ⟨k, v⟩ := e
    by_cases same : k = key
    · simp [put, keysOf, same]
    · have apart : ¬key = k := fun h => same h.symm
      simp only [keysOf] at ih
      by_cases inside : key ∈ rest.map Prod.fst <;> simp_all [put, keysOf]

end Entries

namespace Value

def fields? : Value → Option Fields
  | object fields => some fields
  | _ => none

def string? : Value → Option String
  | string s => some s
  | _ => none

/-- The name of a value's kind in messages about documents. -/
def kindPhrase : Value → String
  | null => "null"
  | bool _ => "a boolean"
  | number _ => "a number"
  | string _ => "a string"
  | array _ => "a list"
  | object _ => "a mapping"

/-- The name of a value's kind in messages about expressions. -/
def kindName : Value → String
  | null => "null"
  | bool _ => "boolean"
  | number _ => "number"
  | string _ => "string"
  | array _ => "array"
  | object _ => "object"

mutual

/-- Equality of values: the order of object fields does not count, and numbers
compare by kind and value. -/
def alike : Value → Value → Bool
  | null, null => true
  | bool a, bool b => a == b
  | number a, number b => a.alike b
  | string a, string b => a == b
  | array a, array b => alikeItems a b
  | object a, object b => a.length == b.length && alikeFields a b
  | _, _ => false

/-- Item by item, in order. -/
def alikeItems : List Value → List Value → Bool
  | [], [] => true
  | a :: as, b :: bs => alike a b && alikeItems as bs
  | _, _ => false

/-- Each field has its equal under the same key of the other object. -/
def alikeFields : List (String × Value) → Fields → Bool
  | [], _ => true
  | (key, a) :: rest, other =>
    (match other.lookup key with
      | some b => alike a b
      | none => false) && alikeFields rest other

end

mutual

/-- No object of the value has a key twice. -/
def WellFormed : Value → Prop
  | array items => WellFormedItems items
  | object fields => (keysOf fields).Nodup ∧ WellFormedFields fields
  | _ => True

def WellFormedItems : List Value → Prop
  | [] => True
  | item :: rest => WellFormed item ∧ WellFormedItems rest

def WellFormedFields : List (String × Value) → Prop
  | [] => True
  | (_, value) :: rest => WellFormed value ∧ WellFormedFields rest

end

mutual

/-- The value with each object key once; see `lastWins`. -/
def unrepeated : Value → Value
  | array items => array (unrepeatedItems items)
  | object fields => object (lastWins (unrepeatedFields fields))
  | other => other

def unrepeatedItems : List Value → List Value
  | [] => []
  | item :: rest => unrepeated item :: unrepeatedItems rest

def unrepeatedFields : List (String × Value) → List (String × Value)
  | [] => []
  | (key, value) :: rest => (key, unrepeated value) :: unrepeatedFields rest

end

end Value

end LayeredConfig
