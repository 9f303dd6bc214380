import LayeredConfig.FileTree.Basic
import LayeredConfig.Value.Basic

namespace LayeredConfig

/-- Where settings come from. -/
inductive LayerOrigin
  | builtin
  | file
  | cli
  deriving DecidableEq, Repr, Inhabited

def LayerOrigin.name : LayerOrigin → String
  | builtin => "builtin"
  | file => "file"
  | cli => "cli"

/-- A layer that took part in the settings, and its file if it has one. -/
structure SettingsLayer where
  origin : LayerOrigin
  path : Option String
  deriving DecidableEq, Repr, Inhabited

/-- The settings of a workspace. Paths are taken from its root. -/
structure Settings where
  schemaPath : String
  cacheDir : String
  emitCache : Bool
  moduleDirs : List String
  modulePaths : List String
  stamping : Bool
  layers : List SettingsLayer
  deriving DecidableEq, Repr, Inhabited

namespace Settings

def builtin : Settings where
  schemaPath := ".workspace/schema/workspace-config.schema.json"
  cacheDir := ".workspace/cache/entities"
  emitCache := true
  moduleDirs := ["node_modules"]
  modulePaths := []
  stamping := true
  layers := [⟨.builtin, none⟩]

def textList (items : List String) : Value :=
  .array (items.map .string)

/-- The fields that a layer can set, in their order. -/
def ownFields (s : Settings) : Fields :=
  [("schema_path", .string s.schemaPath), ("cache_dir", .string s.cacheDir), ("emit_cache", .bool s.emitCache),
    ("module_dirs", textList s.moduleDirs), ("module_paths", textList s.modulePaths),
    ("backfill_timestamps", .bool s.stamping)]

def layerValue (l : SettingsLayer) : Value :=
  .object (("origin", .string l.origin.name) :: l.path.elim [] fun p => [("path", .string p)])

def toValue (s : Settings) : Value :=
  .object (s.ownFields ++ [("sources", .array (s.layers.map layerValue))])

def schemaLocation (s : Settings) (workspace : Location) : Location :=
  Location.absolutize ⟨s.schemaPath⟩ workspace

def cacheLocation (s : Settings) (workspace : Location) : Location :=
  Location.absolutize ⟨s.cacheDir⟩ workspace

def moduleRoots (s : Settings) (workspace : Location) : List Location :=
  s.modulePaths.map fun p => Location.absolutize ⟨p⟩ workspace

end Settings

end LayeredConfig
