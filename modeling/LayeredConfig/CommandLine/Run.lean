import LayeredConfig.CommandLine.Arguments
import LayeredConfig.Edit
import LayeredConfig.Settings.Load
import LayeredConfig.Workspace

namespace LayeredConfig.CommandLine

/-- What the program leaves: an exit code and texts on its two outputs. -/
structure Reply where
  code : Nat
  output : String
  complaint : String
  deriving DecidableEq, Repr, Inhabited

def said (text : String) : Reply :=
  ⟨0, text, ""⟩

def complained (text : String) : Reply :=
  ⟨1, "", text⟩

def usage : String :=
  "usage: wsconfig resolve|tree|sources|set|cache clear\n"

/-- The arguments do not fit. -/
def misused : Reply :=
  ⟨2, "", usage⟩

def valueLines (v : Value) : String :=
  Json.printIndented v ++ "\n"

/-- The workspace that the options name, with its settings. -/
def workspaceOf (files : FileTree) (options : WorkspaceOptions) (overrides : Option Value) :
    Except String Workspace :=
  match Settings.load files ⟨options.workspace⟩ (options.settings.map Location.mk) overrides with
  | .ok settings => .ok (Workspace.openAt files ⟨options.workspace⟩ settings)
  | .error fault => .error s!"Error loading settings: {fault.message}\n"

/-- Resolves the root document of a workspace and answers about it. -/
def aboutRoot (now : Instant) (files : FileTree) (root : Option String) (options : WorkspaceOptions)
    (overrides : Option Value) (answer : Workspace → FileTree → Resolution → Reply) : FileTree × Reply :=
  match workspaceOf files options overrides with
  | .error text => (files, complained text)
  | .ok workspace =>
    let outcome := workspace.resolve now files (root.elim workspace.defaultDocument Location.mk)
    match outcome.result with
    | .ok resolution => (outcome.files, answer workspace outcome.files resolution)
    | .error fault => (outcome.files, complained (fault.message ++ "\n"))

/-- The declarations of all entities or of one. -/
def aboutSources (entity : Option String) (sources : List (String × List Source)) : Reply :=
  match entity with
  | none => said (valueLines (sourcesValue sources))
  | some key =>
    match sources.lookup key with
    | some list => said (valueLines (.array (list.map Source.toValue)))
    | none =>
      let declared := ", ".intercalate (keysOf sources)
      complained s!"Entity '{key}' is not declared in any document.\nDeclared entities: {declared}\n"

/-- Sets a value: JSON if it is, else the text itself. -/
def setValue (files : FileTree) (file path value : String) (ifAbsent : Bool) : FileTree × Reply :=
  let keys := ((pieces '.' path.toList).filter (· ≠ [])).map String.ofList
  if keys.isEmpty then (files, complained "Path must name at least one key\n")
  else
    let outcome := Edit.set files ⟨file⟩ keys ((Json.read? value).getD (.string value)) ifAbsent
    match outcome.result with
    | .ok result => (outcome.files, said (result.name ++ "\n"))
    | .error fault => (outcome.files, complained (fault.message ++ "\n"))

/-- Does what a command says. -/
def run (now : Instant) (files : FileTree) : Command → FileTree × Reply
  | .resolve root options evaluated noCache =>
    let overrides := if noCache then some (.object [("emit_cache", .bool false)]) else none
    aboutRoot now files root options overrides fun _ files resolution =>
      match resolution.toValue files evaluated with
      | .ok v => said (valueLines v)
      | .error fault => complained (fault.message ++ "\n")
  | .tree root options =>
    aboutRoot now files root options none fun workspace _ resolution =>
      said (resolution.lineage.draw workspace.root)
  | .sources root options entity =>
    aboutRoot now files root options none fun _ _ resolution => aboutSources entity resolution.sources
  | .set file path value ifAbsent => setValue files file path value ifAbsent
  | .clearCache options =>
    match workspaceOf files options none with
    | .error text => (files, complained text)
    | .ok workspace =>
      let outcome := workspace.clearCache files
      match outcome.result with
      | .ok removed =>
        (outcome.files, said s!"Removed {removed} sidecar(s) from {workspace.sidecarStore.dir.text}\n")
      | .error fault => (outcome.files, complained (fault.message ++ "\n"))
  | .help => (files, said usage)
  | .version => (files, said "wsconfig 0.1.0\n")

/-- The directories that a command may look into besides the current one: those
of the files it names, its workspace, and the packages around that. -/
def Command.outlook (files : FileTree) : Command → List Location
  | .resolve root options _ _ => around root options
  | .tree root options => around root options
  | .sources root options _ => around root options
  | .set file _ _ _ => [(Location.mk file).absolutize files.current |>.dir]
  | .clearCache options => around none options
  | .help => []
  | .version => []
where
  around (root : Option String) (options : WorkspaceOptions) : List Location :=
    let workspace := (Location.mk options.workspace).absolutize files.current
    let settings := match workspaceOf files options none with
      | .ok w => w.settings
      | .error _ => Settings.builtin
    let named := (root.toList ++ options.settings.toList).map fun file =>
      ((Location.mk file).absolutize workspace).dir
    workspace :: named ++ settings.moduleRoots workspace ++
      workspace.ancestors.flatMap fun above => settings.moduleDirs.map above.join

/-- Runs the program with its arguments. -/
def runArguments (now : Instant) (files : FileTree) (args : List String) : FileTree × Reply :=
  match Command.ofArguments? args with
  | some command => run now files command
  | none => (files, misused)

end LayeredConfig.CommandLine
