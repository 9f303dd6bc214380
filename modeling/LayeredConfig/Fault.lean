import LayeredConfig.Document.Shape
import LayeredConfig.Expr.Fault

namespace LayeredConfig

/-- What is wrong with the top level of a document, or with all that it extends. -/
inductive Malformation
  | topLevel (kind : String)
  | extendsValue (kind : String)
  | extendsEntry (kind : String)
  | extendsWithoutEnd
  deriving DecidableEq, Repr, Inhabited

def Malformation.message : Malformation → String
  | topLevel kind => s!"top level must be a mapping, found {kind}"
  | extendsValue kind => s!"\x60extends\x60 must be a list of strings, found {kind}"
  | extendsEntry kind => s!"\x60extends\x60 entries must be strings, found {kind}"
  | extendsWithoutEnd => "\x60extends\x60 leads on without end"

/-- Why a reference into a package leads nowhere. -/
inductive ReferenceFault
  | noPackageName
  | noFile (package : String)
  | outside (remainder package : String)
  | notInstalled (package : String)
  deriving DecidableEq, Repr, Inhabited

def ReferenceFault.message : ReferenceFault → String
  | noPackageName => "not a valid package name"
  | noFile package => s!"reference names package \x60{package}\x60 but no file inside it"
  | outside remainder package => s!"path \x60{remainder}\x60 points outside package \x60{package}\x60"
  | notInstalled package => s!"package \x60{package}\x60 is not installed"

/-- An objection of a validator to an entity, at a dotted path inside it. -/
structure Issue where
  path : String
  message : String
  deriving DecidableEq, Repr, Inhabited

/-- Everything that ends a resolution or a write. -/
inductive Fault
  | access (file : Location) (cause : AccessFault)
  | unreadable (file : Location)
  | malformed (file : Location) (cause : Malformation)
  | missingTarget (target : Location) (referrer : Option Location) (chain : List Location)
  | circular (chain : List Location) (repeated : Location)
  | foreignKey (key : String) (file : Location) (moveTo : Option String)
  | badReference (reference : String) (referrer : Location) (cause : ReferenceFault) (searched : List Location)
  | badExpression (position : String) (file : Location) (cause : ExprFault)
  | rejected (entity : String) (file : Location) (issues : List Issue)
  | evaluation (cause : ExprFault)
  | emptyPath (file : Location)
  deriving DecidableEq, Repr, Inhabited

namespace Fault

/-- The bound of a walk is spent at a place. No document is refused for this and no
reference, so it is told from all that a walk can find, a cycle included. -/
abbrev endless (place : Location) : Fault :=
  .malformed place .extendsWithoutEnd

/-- The numbered places of a chain of documents. -/
def chainText (chain : List Location) : String :=
  let shown := if chain.isEmpty then ["\n  (root document)"]
    else chain.zipIdx.map fun (l, i) => s!"\n  {i + 1}. {l.text}"
  "\n\nResolution chain:" ++ String.join shown

def message : Fault → String
  | access file cause => s!"Failed to access {file.text}: {cause.message}"
  | unreadable file => s!"Failed to parse {file.text}: the text cannot be read"
  | malformed file cause => s!"Failed to parse {file.text}: {cause.message}"
  | missingTarget target referrer chain =>
    let origin := referrer.elim "" fun r => s!"\n  referenced from: {r.text}"
    let advice := match referrer with
      | some r => s!"\n\nCreate {target.text} or fix the \x60extends\x60 entry in {r.text}."
      | none => s!"\n\nCreate {target.text} or point the command at an existing config file."
    s!"Extends target not found: {target.text}" ++ origin ++ chainText chain ++ advice
  | circular chain repeated =>
    s!"Circular extends detected: {repeated.text} already appears in its own extends chain." ++ chainText chain ++
      s!"\n  -> {repeated.text} (repeated)" ++
        "\n\nRemove one of the \x60extends\x60 entries that closes the loop."
  | foreignKey key file moveTo =>
    s!"Invalid top-level key \x60{key}\x60 in {file.text}.\n" ++
      "Only \x60extends\x60 and entity keys starting with '#' are allowed at the top level." ++
      moveTo.elim "" fun new => s!"\nThe \x60{key}\x60 key is deprecated: move its contents to \x60{new}\x60."
  | badReference reference referrer cause searched =>
    let looked := if searched.isEmpty then ""
      else "\n\nSearched:" ++ String.join (searched.map fun l => s!"\n  {l.text}")
    s!"Cannot resolve packaged extends reference \x60{reference}\x60 from {referrer.text}: {cause.message}" ++
      looked ++ "\n\nInstall the package or use a relative \x60./\x60 reference."
  | badExpression position file cause =>
    s!"Invalid deferred expression at \x60{position}\x60 (declared in {file.text}):\n  {cause.message}"
  | rejected entity file issues =>
    s!"Entity \x60{entity}\x60 in {file.text} failed schema validation; nothing was written." ++
      String.join (issues.map fun i => s!"\n  - {i.path}: {i.message}")
  | evaluation cause => s!"Deferred expression evaluation failed: {cause.message}"
  | emptyPath file =>
    s!"Cannot set a value in {file.text}: the path must name at least one key and contain no empty keys"

end Fault

end LayeredConfig
