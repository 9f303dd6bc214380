import LayeredConfig.Document.Load
import LayeredConfig.Expr.Deferred

namespace LayeredConfig

/-- A value whose tagged texts are deferred expressions. A part without any is
kept as it is. -/
inductive Compiled
  | plain (v : Value)
  | array (items : List Compiled)
  | object (fields : List (String × Compiled))
  | deferred (d : Deferred)
  deriving Repr, Inhabited

/-- A step from a value into a part of it. -/
inductive Slot
  | key (k : String)
  | index (i : Nat)
  deriving DecidableEq, Repr, Inhabited

/-- A position as text: keys with dots between them, indices in brackets. -/
def positionText (position : List Slot) : String :=
  position.foldl
    (fun out slot =>
      match slot with
      | .key k => if out = "" then k else out ++ "." ++ k
      | .index i => out ++ "[" ++ toString i ++ "]")
    ""

namespace Value

/-- The part one step inside a value. -/
def slot? (v : Value) : Slot → Option Value
  | .key k => match v with
    | .object fields => fields.lookup k
    | _ => none
  | .index i => match v with
    | .array items => items[i]?
    | _ => none

/-- The part at a position. -/
def inside? (v : Value) (position : List Slot) : Option Value :=
  position.foldlM slot? v

mutual

/-- Whether a tagged text stands anywhere in the value. -/
def hasTagged : Value → Bool
  | .string s => (taggedBody? s).isSome
  | .array items => hasTaggedItem items
  | .object fields => hasTaggedField fields
  | _ => false

def hasTaggedItem : List Value → Bool
  | [] => false
  | item :: rest => hasTagged item || hasTaggedItem rest

def hasTaggedField : List (String × Value) → Bool
  | [] => false
  | (_, value) :: rest => hasTagged value || hasTaggedField rest

end

end Value

/-- The documents a merged value came from, and the directory for a text that
none of them holds. -/
structure Binding where
  documents : List Document
  fallback : Location

namespace Binding

/-- The last document that holds a text at a position. -/
def origin? (b : Binding) (position : List Slot) (text : String) : Option Document :=
  b.documents.reverse.find? fun d => ((Value.object d.entities).inside? position).any fun v =>
    v.string? = some text

/-- Compiles a text where its document is. -/
def compileText (b : Binding) (position : List Slot) (text : String) : Except Fault Compiled :=
  let origin := b.origin? position text
  let dir := origin.elim b.fallback Document.dir
  match Deferred.compile text dir with
  | .ok (some d) => .ok (.deferred d)
  | .ok none => .ok (.plain (.string text))
  | .error cause =>
    .error (.badExpression (positionText position) (origin.elim b.fallback Document.location) cause)

mutual

/-- Compiles the value at a position, up to the first text that fails. -/
def compile (b : Binding) (position : List Slot) : Value → Except Fault Compiled
  | .string text => b.compileText position text
  | .array items =>
    if Value.hasTaggedItem items then (compileItems b position 0 items).map .array else .ok (.plain (.array items))
  | .object fields =>
    if Value.hasTaggedField fields then (compileFields b position fields).map .object
    else .ok (.plain (.object fields))
  | other => .ok (.plain other)

/-- Compiles the items from an index on. -/
def compileItems (b : Binding) (position : List Slot) (index : Nat) : List Value → Except Fault (List Compiled)
  | [] => .ok []
  | item :: rest => do
    let item ← compile b (position ++ [.index index]) item
    let rest ← compileItems b position (index + 1) rest
    .ok (item :: rest)

def compileFields (b : Binding) (position : List Slot) :
    List (String × Value) → Except Fault (List (String × Compiled))
  | [] => .ok []
  | (key, value) :: rest => do
    let value ← compile b (position ++ [.key key]) value
    let rest ← compileFields b position rest
    .ok ((key, value) :: rest)

end

end Binding

/-- The merged entities of a resolution, compiled. -/
structure Configuration where
  entities : List (String × Compiled)
  deriving Repr, Inhabited

/-- Compiles every entity of merged documents. -/
def Configuration.compile (merged : Fields) (documents : List Document) (fallback : Location) :
    Except Fault Configuration :=
  ((Binding.mk documents fallback).compileFields [] merged).map Configuration.mk

end LayeredConfig
