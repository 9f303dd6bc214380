import LayeredConfig.Document.Load
import LayeredConfig.Value.Overlay

namespace LayeredConfig

/-- Top-level keys of former times and where their contents belong now. -/
def formerKeys : List (String × String) :=
  [("workspace", "#workspace"), ("javascript", "#javascript-api"), ("env", "#shell-env.env"),
    ("name", "#workspace.name")]

/-- The first top-level key of a document that is no entity key. -/
def foreignKey? (d : Document) : Option String :=
  (keysOf d.entities).find? (!isEntityKey ·)

/-- The documents laid over each other, the first at the bottom. -/
def overlayDocuments (documents : List Document) : Fields :=
  documents.foldl (fun merged d => overlayFields merged d.entities) []

/-- The first document with a foreign key fails. -/
def checkKeys : List Document → Except Fault Unit
  | [] => .ok ()
  | d :: rest =>
    match foreignKey? d with
    | none => checkKeys rest
    | some key => .error (.foreignKey key d.location (formerKeys.lookup key))

/-- Merges documents in order; every top-level key must be an entity key. -/
def mergeDocuments (documents : List Document) : Except Fault Fields :=
  (checkKeys documents).map fun _ => overlayDocuments documents

end LayeredConfig
