import LayeredConfig.Json.Printer
import LayeredConfig.Settings.Basic
import LayeredConfig.Text.Hidden

namespace LayeredConfig

/-- What a field of the settings takes. -/
inductive SettingsKind
  | text
  | flag
  | list
  | whole
  deriving DecidableEq, Repr, Inhabited

def SettingsKind.phrase : SettingsKind → String
  | text => "a string"
  | flag => "a boolean"
  | list => "a sequence"
  | whole => "struct EngineSettings"

/-- Why settings are refused. -/
inductive SettingsIssue
  | wrongKind (found : Value) (expected : SettingsKind)
  | missing (field : String)
  | tooFew (count : Nat)
  | tooMany (count : Nat)
  | blank (field : String)
  | absolute (field value : String)
  | noModuleDirs
  deriving Repr, Inhabited

/-- A character of a quoted text in a message. Hidden ones are written by number. -/
def shownChar (c : Char) : List Char :=
  if c = '"' then ['\\', '"']
  else if c = '\\' then ['\\', '\\']
  else if c = '\n' then ['\\', 'n']
  else if c = '\r' then ['\\', 'r']
  else if c = '\t' then ['\\', 't']
  else if c.toNat = 0 then ['\\', '0']
  else if isHidden c then '\\' :: 'u' :: '\x7b' :: Nat.toDigits 16 c.toNat ++ ['\x7d']
  else [c]

/-- What a value is, in messages about settings. -/
def foundPhrase : Value → String
  | .null => "null"
  | .bool b => s!"boolean \x60{b}\x60"
  | .number (.int n) => s!"integer \x60{n}\x60"
  | .number (.float x) => s!"floating point \x60{String.ofList (NumberLayout.signed.text x)}\x60"
  | .string s => "string " ++ String.ofList ('"' :: s.toList.flatMap shownChar ++ ['"'])
  | .array _ => "sequence"
  | .object _ => "map"

def SettingsIssue.message : SettingsIssue → String
  | wrongKind found expected => s!"invalid type: {foundPhrase found}, expected {expected.phrase}"
  | missing field => s!"missing field \x60{field}\x60"
  | tooFew count => s!"invalid length {count}, expected {SettingsKind.whole.phrase} with 6 elements"
  | tooMany count => s!"invalid length {count}, expected fewer elements in array"
  | blank field => s!"{field} must not be empty"
  | absolute field value => s!"{field} must be relative to the workspace root, got {value}"
  | noModuleDirs => "module_dirs must list at least one directory name"

/-- Why settings could not be loaded. -/
inductive SettingsFault
  | access (file : Location) (cause : AccessFault)
  | unreadable (file : Location)
  | invalid (issue : SettingsIssue)
  deriving Repr, Inhabited

def SettingsFault.message : SettingsFault → String
  | access file cause => s!"IO error: {file.text}: {cause.message}"
  | unreadable file => s!"Parse error: {file.text} is no settings file"
  | invalid issue => s!"Invalid settings: {issue.message}"

end LayeredConfig
