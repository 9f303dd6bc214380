import LayeredConfig.Document.Load
import LayeredConfig.Origin.Declarations

namespace LayeredConfig

/-- Where a document declares an entity. -/
structure Source where
  location : Location
  line : Nat
  deriving DecidableEq, Repr, Inhabited

/-- The declaration of one of its keys in a document. -/
def sourceIn (d : Document) (key : String) : Source :=
  ⟨d.location, declarationLine d.rawText key⟩

/-- Adds the declarations of a document behind those found so far. -/
def addSources (found : List (String × List Source)) (d : Document) : List (String × List Source) :=
  (keysOf d.entities).foldl (fun found key => put key ((found.lookup key).getD [] ++ [sourceIn d key]) found) found

/-- Every entity key with its declarations, the keys in the order of their
characters. Documents come in the order of merging and are visited from the most
specific one, so in the end each list is turned round. -/
def entitySources (documents : List Document) : List (String × List Source) :=
  ((documents.reverse.foldl addSources []).mergeSort (·.1 ≤ ·.1)).map fun (key, list) => (key, list.reverse)

def Source.toValue (s : Source) : Value :=
  .object [("documentLocation", .string s.location.text), ("lineNumber", .number (.int s.line))]

def sourcesValue (sources : List (String × List Source)) : Value :=
  .object (sources.map fun (key, list) => (key, .array (list.map Source.toValue)))

end LayeredConfig
