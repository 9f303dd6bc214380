import LayeredConfig.Ancestry.Walk
import LayeredConfig.Combined.Access
import LayeredConfig.Combined.Invocation
import LayeredConfig.Combined.Merge
import LayeredConfig.Origin.Sources
import LayeredConfig.Settings.Basic
import LayeredConfig.Sidecar.Store

namespace LayeredConfig

/-- A workspace: its root, absolute and in canonical form, and its settings. -/
structure Workspace where
  root : Location
  settings : Settings
  deriving Repr, Inhabited

/-- Everything known about a resolved document. -/
structure Resolution where
  configuration : Configuration
  lineage : Lineage
  sources : List (String × List Source)
  documents : List Document
  sidecars : List Location
  deriving Repr, Inhabited

namespace Workspace

/-- The workspace at a place. A relative place is taken from the current
directory. -/
def openAt (files : FileTree) (place : Location) (settings : Settings) : Workspace :=
  ⟨place.absolutize files.current, settings⟩

/-- The root document unless another one is named. -/
def defaultDocument (w : Workspace) : Location :=
  w.root.join ".workspace/workspace.yaml"

def upkeep (w : Workspace) : Upkeep :=
  ⟨w.settings.schemaLocation w.root, w.settings.stamping⟩

def search (w : Workspace) : PackageSearch :=
  ⟨w.settings.moduleDirs, w.settings.moduleRoots w.root⟩

def sidecarStore (w : Workspace) : SidecarStore :=
  ⟨w.root, w.settings.cacheLocation w.root⟩

/-- The entities of an ancestry: merged, with the fields of the invocation, and
compiled. -/
def combine (w : Workspace) (a : Ancestry) : Except Fault Configuration := do
  let merged ← mergeDocuments a.documents
  let root := a.lineage.location
  Configuration.compile (withInvocation merged w.root root) a.documents (root.parent?.getD w.root)

/-- Resolves a document with everything it extends. A relative place is taken
from the root of the workspace. Sidecars are written last, if at all. -/
def resolve (w : Workspace) (now : Instant) (files : FileTree) (place : Location) : Outcome Resolution :=
  ((⟨w.upkeep, w.search, now⟩ : Surroundings).ancestry files (place.absolutize w.root)).andThen
      fun files ancestry =>
    match w.combine ancestry with
    | .error fault => .failed files fault
    | .ok configuration =>
      let emitted :=
        if w.settings.emitCache then w.sidecarStore.emit now files ancestry.documents else .done files []
      emitted.andThen fun files sidecars =>
        .done files
          ⟨configuration, ancestry.lineage, entitySources ancestry.documents, ancestry.documents, sidecars⟩

/-- Removes the sidecars of the workspace, and counts them. -/
def clearCache (w : Workspace) (files : FileTree) : Outcome Nat :=
  w.sidecarStore.clear files

end Workspace

/-- The resolution as a value, with deferred expressions as they were written or
with their values. -/
def Resolution.toValue (r : Resolution) (files : FileTree) (evaluated : Bool) : Except Fault Value := do
  let merged ← if evaluated then r.configuration.evaluate files else .ok r.configuration.shown
  .ok (.object
    [("mergedConfig", .object merged), ("extendsTree", r.lineage.toValue),
      ("entitySources", sourcesValue r.sources)])

end LayeredConfig
