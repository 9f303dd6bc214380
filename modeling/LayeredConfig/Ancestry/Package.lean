import LayeredConfig.Fault

namespace LayeredConfig

/-- A reference into a package: the name of the package and a path inside it. -/
structure PackageReference where
  package : String
  remainder : String
  deriving DecidableEq, Repr, Inhabited

namespace PackageReference

/-- How many segments name the package of a reference. -/
def nameLength (reference : String) : Nat :=
  if reference.toList.head? = some '@' then 2 else 1

/-- The bytes of a name of so many segments, the first of them behind `lead` bytes
and each later one behind a slash. No segment of a name is missing, empty or an at
sign alone. -/
def nameBytes? : (count lead : Nat) → List (List Char) → Option Nat
  | 0, _, _ => some 0
  | _ + 1, _, [] => none
  | count + 1, lead, part :: rest =>
    if part = [] ∨ part = ['@'] then none
    else (nameBytes? count 1 rest).map (lead + (String.ofList part).utf8ByteSize + ·)

/-- Where the name of the package ends in a reference, in bytes. -/
def nameEnd? (reference : String) : Option Nat :=
  nameBytes? (nameLength reference) 0 (pieces '/' reference.toList)

/-- Splits a reference behind the name of its package, which is one segment, or
two if it opens with an at sign. The byte behind the name is a slash, or there is
none. -/
def ofText? (reference : String) : Option PackageReference := do
  let stop ← nameEnd? reference
  let (package, _) ← cutAt? stop reference.toList
  let remainder := (cutAt? (stop + 1) reference.toList).elim [] Prod.snd
  some ⟨String.ofList package, String.ofList remainder⟩

end PackageReference

/-- Where packages are looked for: roots that hold packages, and names of
directories that do so wherever they are found on the way up. -/
structure PackageSearch where
  dirNames : List String
  roots : List Location
  deriving DecidableEq, Repr, Inhabited

namespace PackageSearch

/-- The directories a package may be in, in the order they are tried: the roots,
then the named directories from the given one upwards. -/
def candidates (search : PackageSearch) (package : String) (dir : Location) : List Location :=
  search.roots.map (·.join package) ++
    dir.ancestors.flatMap fun above => search.dirNames.map fun name => (above.join name).join package

/-- The first candidate that exists, or all that were tried. -/
def locate (search : PackageSearch) (files : FileTree) (package : String) (dir : Location) :
    Except (List Location) Location :=
  let tried := search.candidates package dir
  match tried.find? (files.isDir ·) with
  | some found => .ok found.normalize
  | none => .error tried

/-- The place a reference into a package stands for. What follows the name of the
package may not lead out of it. -/
def target (search : PackageSearch) (files : FileTree) (reference : String) (dir referrer : Location) :
    Except Fault Location :=
  let bad (cause : ReferenceFault) (tried : List Location) : Except Fault Location :=
    .error (.badReference reference referrer cause tried)
  match PackageReference.ofText? reference with
  | none => bad .noPackageName []
  | some ⟨package, remainder⟩ =>
    if remainder = "" then bad (.noFile package) []
    else
      let inside := Location.normalize ⟨remainder⟩
      if inside.isAbsolute ∨ inside.steps.head? = some .up then bad (.outside remainder package) []
      else match search.locate files package dir with
        | .ok found => .ok (found.join inside.text)
        | .error tried => bad (.notInstalled package) tried

end PackageSearch

/-- The place a reference in a document stands for: a path from the directory of
the document if it opens with a dot or is absolute, else a file of a package. -/
def locateReference (search : PackageSearch) (files : FileTree) (reference : String) (referrer : Location) :
    Except Fault Location :=
  let place : Location := ⟨reference⟩
  if reference.toList.head? = some '.' || place.isAbsolute then .ok (place.absolutize referrer.dir)
  else search.target files reference referrer.dir referrer

end LayeredConfig
