import LayeredConfig.Json.Printer
import LayeredConfig.Json.Reader
import LayeredConfig.Sidecar.Basic

namespace LayeredConfig

/-- The directory that holds the sidecars of a workspace. -/
structure SidecarStore where
  workspace : Location
  dir : Location
  deriving DecidableEq, Repr, Inhabited

/-- The file name of the sidecar of a document: its path, with tildes for
slashes. -/
def sidecarName (relPath : String) : String :=
  String.ofList (relPath.toList.map fun c => if c = '/' ∨ c = '\\' then '~' else c) ++ ".json"

namespace SidecarStore

/-- The path of a document from the workspace, with forward slashes. -/
def relPath (s : SidecarStore) (document : Location) : String :=
  (document.relativeTo s.workspace).slashed

/-- Where the sidecar of a document is. -/
def place (s : SidecarStore) (document : Location) : Location :=
  s.dir.join (sidecarName (s.relPath document))

/-- The sidecar of a document. -/
def describe (s : SidecarStore) (now : Instant) (d : Document) : Sidecar :=
  ⟨d.location.slashed, s.relPath d.location,
    d.entities.map fun (key, data) => (key, ⟨declarationLine d.rawText key, data⟩), now⟩

/-- The documents without those whose place an earlier one has. -/
def firstByPlace : List Document → List Document
  | [] => []
  | d :: rest => d :: (firstByPlace rest).filter fun later => !later.location.same d.location

/-- Writes the sidecar of a document and gives its place. -/
def write (s : SidecarStore) (now : Instant) (files : FileTree) (d : Document) : Outcome Location :=
  let target := s.place d.location
  match files.write target (.text (Json.printIndented (s.describe now d).toValue)) with
  | .ok files => .done files target
  | .error cause => .failed files (.access target cause)

/-- Makes the directory and writes one sidecar for each place of a document. -/
def emit (s : SidecarStore) (now : Instant) (files : FileTree) (documents : List Document) :
    Outcome (List Location) :=
  match files.makeDirs s.dir with
  | (files, some cause) => .failed files (.access s.dir cause)
  | (files, none) => Outcome.inTurn (s.write now) files (firstByPlace documents)

/-- The sidecar of a document, if there is one. -/
def load (s : SidecarStore) (files : FileTree) (document : Location) : Except Fault (Option Sidecar) :=
  let target := s.place document
  if !files.isFile target then .ok none
  else match files.read target with
    | .error cause => .error (.access target cause)
    | .ok text =>
      match (Json.readSelected? Sidecar.parts text).bind Sidecar.ofValue? with
      | some sidecar => .ok (some sidecar)
      | none => .error (.unreadable target)

/-- Whether a file name is that of a sidecar. -/
def isSidecarName (name : String) : Bool :=
  Location.extension? ⟨name⟩ = some "json"

/-- Removes one sidecar. -/
def removeOne (s : SidecarStore) (files : FileTree) (name : String) : Outcome Unit :=
  let target := s.dir.join name
  match files.delete target with
  | .ok files => .done files ()
  | .error cause => .failed files (.access target cause)

/-- Removes every sidecar directly in the directory, and counts them. -/
def clear (s : SidecarStore) (files : FileTree) : Outcome Nat :=
  match files.locate s.dir with
  | .error _ => .done files 0
  | .ok names =>
    if files.isDirAt names then
      let found := (files.filesIn names).filter isSidecarName
      (Outcome.inTurn s.removeOne files found).andThen fun files removed => .done files removed.length
    else .done files 0

end SidecarStore

end LayeredConfig
