import LayeredConfig.Settings.Fault
import LayeredConfig.Toml.Reader
import LayeredConfig.Value.Overlay

namespace LayeredConfig.Settings

def textOf : Value → Except SettingsIssue String
  | .string s => .ok s
  | other => .error (.wrongKind other .text)

def flagOf : Value → Except SettingsIssue Bool
  | .bool b => .ok b
  | other => .error (.wrongKind other .flag)

def textsOf : Value → Except SettingsIssue (List String)
  | .array items => items.mapM textOf
  | other => .error (.wrongKind other .list)

/-- Takes over one field, and leaves fields of other names alone. -/
def withField (s : Settings) (field : String × Value) : Except SettingsIssue Settings :=
  let (name, v) := field
  if name = "schema_path" then (textOf v).map fun t => { s with schemaPath := t }
  else if name = "cache_dir" then (textOf v).map fun t => { s with cacheDir := t }
  else if name = "emit_cache" then (flagOf v).map fun b => { s with emitCache := b }
  else if name = "module_dirs" then (textsOf v).map fun ts => { s with moduleDirs := ts }
  else if name = "module_paths" then (textsOf v).map fun ts => { s with modulePaths := ts }
  else if name = "backfill_timestamps" then (flagOf v).map fun b => { s with stamping := b }
  else .ok s

/-- The settings of a list that has a value for each field in turn. The module
paths count as given when the list ends right before them. -/
def ofItems (items : List Value) : Except SettingsIssue Settings := do
  let names := keysOf builtin.ownFields
  let s ← (names.zip items).foldlM withField { builtin with layers := [] }
  if items.length < names.length then .error (.tooFew (if items.length = 4 then 5 else items.length))
  else if names.length < items.length then .error (.tooMany items.length)
  else .ok s

/-- The fields that settings cannot do without. -/
def requiredFields : List String :=
  (keysOf builtin.ownFields).filter (· ≠ "module_paths")

/-- The settings that fields stand for, in any order. -/
def ofFields (fields : Fields) : Except SettingsIssue Settings := do
  let s ← fields.foldlM withField { builtin with layers := [] }
  match requiredFields.find? (· ∉ keysOf fields) with
  | some name => .error (.missing name)
  | none => .ok s

/-- The settings of merged layers. -/
def ofValue : Value → Except SettingsIssue Settings
  | .object fields => ofFields fields
  | .array items => ofItems items
  | other => .error (.wrongKind other .whole)

/-- A path may be neither blank nor absolute. -/
def checkPath (field value : String) : Except SettingsIssue Unit :=
  if value.toList.all isBlank then .error (.blank field)
  else if Location.isAbsolute ⟨value⟩ then .error (.absolute field value)
  else .ok ()

def check (s : Settings) : Except SettingsIssue Settings := do
  checkPath "schema_path" s.schemaPath
  checkPath "cache_dir" s.cacheDir
  if s.moduleDirs.isEmpty then .error .noModuleDirs else .ok s

/-- The settings file of a workspace unless another one is named. -/
def defaultFile : String := ".workspace/wsconfig.toml"

/-- The settings file to read. A named file is read whether it exists or not. -/
def fileOf? (files : FileTree) (workspace : Location) (named : Option Location) : Option Location :=
  match named with
  | some file => some (file.absolutize workspace)
  | none =>
    let file := workspace.join defaultFile
    if files.isFile file then some file else none

def readFile (files : FileTree) (file : Location) : Except SettingsFault Value :=
  match files.read file with
  | .error cause => .error (.access file cause)
  | .ok text =>
    match Toml.read? text with
    | some v => .ok v
    | none => .error (.unreadable file)

/-- The layers, from the weakest to the strongest, with their values. -/
def layersOf (files : FileTree) (workspace : Location) (named : Option Location) (overrides : Option Value) :
    Except SettingsFault (List (SettingsLayer × Value)) := do
  let fileLayer ← match fileOf? files workspace named with
    | none => .ok []
    | some file => (readFile files file).map fun v => [(⟨.file, some file.text⟩, v)]
  let overrideLayer := overrides.elim [] fun v => [(⟨.cli, none⟩, v)]
  .ok ((⟨.builtin, none⟩, .object builtin.ownFields) :: fileLayer ++ overrideLayer)

/-- Loads the settings of a workspace: built-in values, the settings file over
them, and overrides over both. -/
def load (files : FileTree) (workspace : Location) (named : Option Location) (overrides : Option Value) :
    Except SettingsFault Settings := do
  let layers ← layersOf files workspace named overrides
  let s ← ((ofValue (overlayAll (layers.map Prod.snd))).bind check).mapError .invalid
  .ok { s with layers := layers.map Prod.fst }

end LayeredConfig.Settings
