import LayeredConfig.Ancestry.Lineage
import LayeredConfig.Ancestry.Package
import LayeredConfig.Document.Load

namespace LayeredConfig

/-- A document with everything it extends: the tree of references, and the
documents in the order of merging, each after its parents. -/
structure Ancestry where
  lineage : Lineage
  documents : List Document
  deriving Repr, Inhabited

/-- How documents are loaded and their parents found. -/
structure Surroundings where
  policy : Upkeep
  search : PackageSearch
  /-- One instant serves all loads of a run, and the sidecars after it. The program takes the
  time anew for each of them, so stamps that are equal here may grow from one document to
  the next there. A load stamps the document that it reads with the instant and looks at
  no other time. -/
  now : Instant
  deriving Repr, Inhabited

namespace Surroundings

/-- The place of a parent. It may not be one of the branch, which ends with the
document that names it, and must be a file. -/
def parent (s : Surroundings) (files : FileTree) (branch : List Location) (referrer : Location)
    (reference : String) :
    Except Fault Location := do
  let target ← locateReference s.search files reference referrer
  if branch.any (·.same target) then .error (.circular branch target)
  else if files.isFile target then .ok target
  else .error (.missingTarget target (some referrer) branch)

/-- Loads a document below a branch, and its parents with all they extend. The
fuel bounds the length of the branch; where it is spent the walk ends with a fault
of its own. -/
def visit (s : Surroundings) (fuel : Nat) (files : FileTree) (above : List Location) (reference : Option String)
    (place : Location) : Outcome Ancestry :=
  match fuel with
  | 0 => .failed files (.endless place)
  | fuel + 1 =>
    (Document.load s.policy s.now files place).andThen fun files document =>
      let branch := above ++ [document.location]
      let visitParent (files : FileTree) (reference : String) : Outcome Ancestry :=
        match s.parent files branch document.location reference with
        | .error fault => .failed files fault
        | .ok target => visit s fuel files branch (some reference) target
      (Outcome.inTurn visitParent files document.parents).andThen fun files parents =>
        .done files
          ⟨.node document.location reference (parents.map Ancestry.lineage),
            parents.flatMap Ancestry.documents ++ [document]⟩

/-- A branch names no place twice. A file has one absolute place in canonical
form, and one for each number of steps up that fits into a place. -/
def branchBound (files : FileTree) : Nat :=
  (FileTree.longestPlace + 3) * files.entries.length + 1

/-- The ancestry of the document at a place. -/
def ancestry (s : Surroundings) (files : FileTree) (place : Location) : Outcome Ancestry :=
  let root := place.normalize
  if files.isFile root then s.visit (branchBound files) files [] none root
  else .failed files (.missingTarget root none [])

end Surroundings

end LayeredConfig
