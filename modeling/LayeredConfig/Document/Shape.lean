import LayeredConfig.Value.Basic

namespace LayeredConfig

/-- The top-level key that refers to the schema. -/
def schemaKey : String := "$schema"

/-- The key under which an older shape nested the whole document. -/
def nestingKey : String := "config"

/-- The top-level key that lists the documents a document extends. -/
def extendsKey : String := "extends"

/-- Entities are the top-level keys that open with a number sign. -/
def isEntityKey (key : String) : Bool :=
  key.toList.head? = some '#'

/-- What bringing a document into shape did. -/
inductive ShapeChange
  | wrapped
  | hoisted
  | repointed
  deriving DecidableEq, Repr, Inhabited

def ShapeChange.phrase : ShapeChange → String
  | wrapped => "wrapped raw document in envelope"
  | hoisted => "hoisted legacy config wrapper"
  | repointed => "updated stale $schema reference"

/-- The fields with the given schema reference in front, in place of their own. -/
def withSchemaFirst (body : Fields) (expected : String) : Fields :=
  (schemaKey, .string expected) :: without schemaKey body

/-- The mapping nested in a document that holds nothing but it and a schema
reference. -/
def nested? (doc : Fields) : Option Fields :=
  if doc.all fun e => e.1 = schemaKey || e.1 = nestingKey then
    (doc.lookup nestingKey).bind Value.fields?
  else none

/-- Brings a document into its current shape, in which the schema reference is
the expected one; none when it has that shape. -/
def reshape? (doc : Fields) (expected : String) : Option (ShapeChange × Fields) :=
  match doc.lookup schemaKey with
  | none => some (.wrapped, withSchemaFirst doc expected)
  | some schema =>
    match nested? doc with
    | some inner => some (.hoisted, withSchemaFirst inner expected)
    | none =>
      if schema.string? = some expected then none
      else some (.repointed, put schemaKey (.string expected) doc)

/-- The document in its current shape. -/
def reshaped (doc : Fields) (expected : String) : Fields :=
  (reshape? doc expected).elim doc Prod.snd

end LayeredConfig
