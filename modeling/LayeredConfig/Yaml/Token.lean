namespace LayeredConfig.Yaml

/-- The bytes of a tag. They need not be UTF-8. -/
abbrev TagBytes := List UInt8

/-- The bytes of characters that take one byte each. -/
def plainBytes (cs : List Char) : TagBytes :=
  cs.map Char.toUInt8

/-- A unit of the stream. Blocks have their starts and ends from indentation. -/
inductive Token
  | streamEnd
  | version (major minor : Nat)
  | tagShorthand (handle : String) (expansion : TagBytes)
  | documentStart
  | documentEnd
  | blockSequenceStart
  | blockMappingStart
  | blockEnd
  | flowSequenceStart
  | flowSequenceEnd
  | flowMappingStart
  | flowMappingEnd
  | blockEntry
  | flowEntry
  | key
  | value
  | alias (name : String)
  | anchor (name : String)
  | tag (handle : String) (suffix : TagBytes)
  | scalar (content : String) (plain : Bool)
  deriving DecidableEq, Repr, Inhabited

end LayeredConfig.Yaml
