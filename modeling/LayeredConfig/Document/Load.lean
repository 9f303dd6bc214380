import LayeredConfig.Clock
import LayeredConfig.Document.Placeholder
import LayeredConfig.Document.Stamp
import LayeredConfig.Outcome
import LayeredConfig.Yaml.Printer
import LayeredConfig.Yaml.Reader

namespace LayeredConfig

/-- How documents are kept up to date: where their schema is, and whether
entities get their stamps. -/
structure Upkeep where
  schema : Location
  stamping : Bool
  deriving DecidableEq, Repr, Inhabited

/-- A document as loaded: its place in canonical form, its fields without the
schema reference and the parents, the references to its parents, and the text
its file holds. -/
structure Document where
  location : Location
  entities : Fields
  parents : List String
  rawText : String
  refreshed : Bool
  deriving Repr, Inhabited

namespace Document

def dir (d : Document) : Location :=
  d.location.dir

/-- The value that a text of a file stands for. -/
def parse (file : Location) (text : String) : Except Fault Value :=
  match Yaml.read? text with
  | some v => .ok v
  | none => .error (.unreadable file)

/-- The fields at the top level; an empty document has none. -/
def topFields (file : Location) : Value → Except Fault Fields
  | .object fields => .ok fields
  | .null => .ok []
  | other => .error (.malformed file (.topLevel other.kindPhrase))

/-- The references of a list; the first entry that is no string is a fault. -/
def references (file : Location) : List Value → Except Fault (List String)
  | [] => .ok []
  | .string s :: rest => (references file rest).map (s :: ·)
  | other :: _ => .error (.malformed file (.extendsEntry other.kindPhrase))

/-- The references to parents: a list of strings, one string, or nothing. -/
def parentsOf (file : Location) (fields : Fields) : Except Fault (List String) :=
  match fields.lookup extendsKey with
  | none => .ok []
  | some .null => .ok []
  | some (.string s) => .ok [s]
  | some (.array items) => references file items
  | some other => .error (.malformed file (.extendsValue other.kindPhrase))

/-- The fields of a document brought up to date. -/
def upkeep (policy : Upkeep) (dir : Location) (now : String) (fields : Fields) : Fields :=
  let shaped := reshaped fields (policy.schema.referenceFrom dir)
  if policy.stamping then (stampAll now shaped).1 else shaped

/-- The document that a text stands for, with its placeholders filled. -/
def ofText (file : Location) (text : String) (refreshed : Bool) : Except Fault Document := do
  let value ← parse file (fillPlaceholders text file.dir)
  let fields ← topFields file value
  let parents ← parentsOf file fields
  .ok ⟨file, without extendsKey (without schemaKey fields), parents, text, refreshed⟩

/-- Writes a value to a file as a document, and gives the text. -/
def save (files : FileTree) (file : Location) (v : Value) : Outcome String :=
  let text := Yaml.print v
  match files.write file (.text text) with
  | .ok files => .done files text
  | .error cause => .failed files (.access file cause)

/-- The value that a file holds. -/
def stored (files : FileTree) (file : Location) : Except Fault (String × Value) :=
  match files.read file with
  | .error cause => .error (.access file cause)
  | .ok text => (parse file text).map (text, ·)

/-- Brings a file up to date: it is written only if its value changes. The result
is its text and whether it was written. -/
def refresh (policy : Upkeep) (now : String) (files : FileTree) (file : Location) : Outcome (String × Bool) :=
  let loaded : Except Fault (String × Value × Fields) := do
    let (text, value) ← stored files file
    let fields ← topFields file value
    .ok (text, value, fields)
  match loaded with
  | .error fault => .failed files fault
  | .ok (text, value, fields) =>
    let upgraded := Value.object (upkeep policy file.dir now fields)
    if upgraded.alike value then .done files (text, false)
    else (save files file upgraded).andThen fun files text => .done files (text, true)

/-- Loads the document at a place; its file is brought up to date first. -/
def load (policy : Upkeep) (now : Instant) (files : FileTree) (place : Location) : Outcome Document :=
  let file := place.normalize
  (refresh policy now.toMillis files file).andCheck fun (text, refreshed) => ofText file text refreshed

end Document

end LayeredConfig
