import LayeredConfig.Document.Shape

namespace LayeredConfig

def createdKey : String := "createdAt"
def updatedKey : String := "updatedAt"

/-- The fields of an entity with both stamps, and how many were added. A missing
stamp is the other one, and the given time when both are missing. -/
def stampFields (now : String) (entity : Fields) : Fields × Nat :=
  match entity.lookup createdKey, entity.lookup updatedKey with
  | some _, some _ => (entity, 0)
  | some created, none => (put updatedKey created entity, 1)
  | none, some updated => (put createdKey updated entity, 1)
  | none, none => (put updatedKey (.string now) (put createdKey (.string now) entity), 2)

/-- Stamps one top-level field. Null entities become mappings; other entities
that are no mappings are left alone, as are keys of other kinds. -/
def stampField (now : String) (field : String × Value) : (String × Value) × Nat :=
  if isEntityKey field.1 then
    match field.2 with
    | .null => let (entity, added) := stampFields now []; ((field.1, .object entity), added)
    | .object entity => let (entity, added) := stampFields now entity; ((field.1, .object entity), added)
    | _ => (field, 0)
  else (field, 0)

/-- Stamps every entity of a document, and counts the stamps added. -/
def stampAll (now : String) (doc : Fields) : Fields × Nat :=
  let stamped := doc.map (stampField now)
  (stamped.map Prod.fst, stamped.foldl (fun n s => n + s.2) 0)

end LayeredConfig
