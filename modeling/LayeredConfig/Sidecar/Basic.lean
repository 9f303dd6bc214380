import LayeredConfig.Clock
import LayeredConfig.Document.Load
import LayeredConfig.Json.Reader
import LayeredConfig.Origin.Declarations

namespace LayeredConfig

/-- What a sidecar says about an entity. -/
structure SidecarEntity where
  line : Nat
  data : Value
  deriving Repr, Inhabited

/-- The description of a document beside the cache: where the document is, what
its entities are and where it declares them. -/
structure Sidecar where
  filePath : String
  relPath : String
  entities : List (String × SidecarEntity)
  updatedAt : Instant
  deriving Repr, Inhabited

namespace Sidecar

def entityValue (e : SidecarEntity) : Value :=
  .object [("line", .number (.int e.line)), ("data", e.data)]

/-- The sidecar as a value, field by field. -/
def toValue (s : Sidecar) : Value :=
  .object
    [("filePath", .string s.filePath), ("relPath", .string s.relPath),
      ("entities", .object (s.entities.map fun (key, e) => (key, entityValue e))),
      ("updatedAt", .string s.updatedAt.toExact)]

/-- What is read of a text that describes an entity. -/
def entityParts : Json.Selection :=
  .named [("line", .everything), ("data", .everything)]

/-- What is read of the text of a sidecar. -/
def parts : Json.Selection :=
  .named
    [("filePath", .everything), ("relPath", .everything), ("entities", .each entityParts),
      ("updatedAt", .everything)]

/-- The values of fields in their order: from an object that has each of them
once, besides others, or from a list of just these. -/
def fieldValues? (names : List String) : Value → Option (List Value)
  | .object fields =>
    names.mapM fun name =>
      match fields.filter (·.1 = name) with
      | [(_, v)] => some v
      | _ => none
  | .array items => if items.length = names.length then some items else none
  | _ => none

def entityOf? (v : Value) : Option SidecarEntity :=
  match fieldValues? ["line", "data"] v with
  | some [.number (.int line), data] => if line < 0 then none else some ⟨line.toNat, data.unrepeated⟩
  | _ => none

def entitiesOf? : List (String × Value) → Option (List (String × SidecarEntity))
  | [] => some []
  | (key, v) :: rest => do
    let e ← entityOf? v
    let rest ← entitiesOf? rest
    some ((key, e) :: rest)

/-- Reads a sidecar from a value in which keys may be repeated. -/
def ofValue? (v : Value) : Option Sidecar :=
  match fieldValues? ["filePath", "relPath", "entities", "updatedAt"] v with
  | some [.string file, .string rel, .object entities, .string time] => do
    let entities ← entitiesOf? entities
    let time ← Instant.read? time
    some ⟨file, rel, lastWins entities, time⟩
  | _ => none

end Sidecar

end LayeredConfig
