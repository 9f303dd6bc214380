import LayeredConfig.Location.Basic
import LayeredConfig.Value.Basic

namespace LayeredConfig

/-- What a regular file holds. Bytes are kept apart from text only when they
are no UTF-8. -/
inductive Body
  | text (s : String)
  | bytes (bs : List UInt8)
  deriving DecidableEq, Repr, Inhabited

inductive Entry
  | directory
  | file (body : Body)
  deriving DecidableEq, Repr, Inhabited

/-- A finite tree of files, as a map from the names on the way to an entry, and the
current directory. The root always exists.

Three things of a real file system are left out. There are no links, so two places that
lead to different names are different files. There are no permissions, so what exists
can be read, written and removed. Names are texts, as places are, so there are none that
are no Unicode. What is proved of the effects of a run is said of such trees: of a
resolution in `Proofs.Workspace`, `Proofs.Footprint` and `Proofs.Locality`, of a load in
`Proofs.Document.Effect`, of emission and clearing in `Proofs.Sidecar`. -/
structure FileTree where
  entries : List (List String × Entry)
  here : List String
  deriving Repr, Inhabited

/-- Why access to a file failed. -/
inductive AccessFault
  | notFound
  | isDirectory
  | notDirectory
  | alreadyExists
  | notText
  | zeroInName
  | nameTooLong
  deriving DecidableEq, Repr, Inhabited

def AccessFault.message : AccessFault → String
  | notFound => "No such file or directory (os error 2)"
  | isDirectory => "Is a directory (os error 21)"
  | notDirectory => "Not a directory (os error 20)"
  | alreadyExists => "File exists (os error 17)"
  | notText => "stream did not contain valid UTF-8"
  | zeroInName => "file name contained an unexpected NUL byte"
  | nameTooLong => "File name too long (os error 36)"

namespace FileTree

/-- Only the root, as current directory. -/
def empty : FileTree :=
  ⟨[], []⟩

def entry? (t : FileTree) (names : List String) : Option Entry :=
  match names with
  | [] => some .directory
  | _ => t.entries.lookup names

/-- The current directory. -/
def current (t : FileTree) : Location :=
  ⟨"/" ++ "/".intercalate t.here⟩

def isDirAt (t : FileTree) (names : List String) : Bool :=
  t.entry? names == some .directory

/-- Walks written parts from a directory. Every part, a dot included, needs a
directory to be looked up in; only the last may be missing, and then the result
is the name it would have. -/
def walk (t : FileTree) (dir : List String) : List (List Char) → Except AccessFault (List String)
  | [] => .ok dir
  | part :: rest =>
    match t.entry? dir with
    | none => .error .notFound
    | some (.file _) => .error .notDirectory
    | some .directory =>
      if Location.idle part then t.walk dir rest
      else if part = ['.', '.'] then t.walk dir.dropLast rest
      else
        let name := String.ofList part
        if 255 < name.utf8ByteSize then .error .nameTooLong else t.walk (dir ++ [name]) rest

/-- The bytes a place may have as it is written. -/
def longestPlace : Nat := 4095

/-- Whether a place can be looked up at all. -/
def checkPlace (l : Location) : Except AccessFault Unit :=
  if l.text = "" then .error .notFound
  else if l.text.toList.contains '\x00' then .error .zeroInName
  else if longestPlace < l.text.utf8ByteSize then .error .nameTooLong
  else .ok ()

/-- The names that the parts of a place stand for. -/
def follow (t : FileTree) (l : Location) : Except AccessFault (List String) :=
  t.walk (if l.isAbsolute then [] else t.here) (pieces '/' l.text.toList)

/-- The names a place stands for. -/
def locate (t : FileTree) (l : Location) : Except AccessFault (List String) := do
  checkPlace l
  t.follow l

def isFile (t : FileTree) (l : Location) : Bool :=
  match t.locate l with
  | .ok names => match t.entry? names with
    | some (.file _) => true
    | _ => false
  | .error _ => false

def isDir (t : FileTree) (l : Location) : Bool :=
  match t.locate l with
  | .ok names => t.isDirAt names
  | .error _ => false

/-- The text of a file. -/
def read (t : FileTree) (l : Location) : Except AccessFault String := do
  let names ← t.locate l
  match t.entry? names with
  | none => .error .notFound
  | some .directory => .error .isDirectory
  | some (.file (.bytes _)) => .error .notText
  | some (.file (.text s)) => .ok s

/-- Replaces the content of a file or makes a file in a directory that exists. -/
def write (t : FileTree) (l : Location) (body : Body) : Except AccessFault FileTree := do
  let names ← t.locate l
  match t.entry? names with
  | some .directory => .error .isDirectory
  | some (.file _) => .ok { t with entries := put names (.file body) t.entries }
  | none =>
    match t.entry? names.dropLast with
    | some .directory => .ok { t with entries := put names (.file body) t.entries }
    | some (.file _) => .error .notDirectory
    | none => .error .notFound

/-- Makes one directory in a directory that exists. Slashes may follow its
name. -/
def makeDir (t : FileTree) (l : Location) : Except AccessFault FileTree := do
  checkPlace l
  let names ← t.follow l.unslashed
  match t.entry? names with
  | some _ => .error .alreadyExists
  | none =>
    match t.entry? names.dropLast with
    | some .directory => .ok { t with entries := put names .directory t.entries }
    | some (.file _) => .error .notDirectory
    | none => .error .notFound

/-- Makes a directory and what is missing above it. A directory that exists is
left as it is. What was made above a directory stays, also if it cannot be made. -/
def makeDirsWithin : Nat → FileTree → Location → FileTree × Option AccessFault
  | 0, t, _ => (t, some .notFound)
  | fuel + 1, t, l =>
    let made (t : FileTree) : FileTree × Option AccessFault :=
      match t.makeDir l with
      | .ok t => (t, none)
      | .error fault => (t, if t.isDir l then none else some fault)
    if l.text = "" then (t, none)
    else match t.makeDir l with
      | .error .notFound =>
        match l.parent? with
        | none => (t, some .notFound)
        | some above =>
          match makeDirsWithin fuel t above with
          | (t, none) => made t
          | failed => failed
      | _ => made t

def makeDirs (t : FileTree) (l : Location) : FileTree × Option AccessFault :=
  makeDirsWithin (l.text.length + 1) t l

/-- The names of the regular files directly inside a directory. -/
def filesIn (t : FileTree) (names : List String) : List String :=
  t.entries.filterMap fun e =>
    match e.2 with
    | .file _ => if e.1 ≠ [] ∧ e.1.dropLast = names then e.1.getLast? else none
    | .directory => none

def remove (t : FileTree) (names : List String) : FileTree :=
  { t with entries := without names t.entries }

/-- Removes a file. -/
def delete (t : FileTree) (l : Location) : Except AccessFault FileTree := do
  let names ← t.locate l
  match t.entry? names with
  | none => .error .notFound
  | some .directory => .error .isDirectory
  | some (.file _) => .ok (t.remove names)

/-- Removes an entry and everything below it. -/
def removeAll (t : FileTree) (names : List String) : FileTree :=
  { t with entries := t.entries.filter fun e => !names.isPrefixOf e.1 }

/-- The names of all regular files at or below a directory. -/
def filesBelow (t : FileTree) (names : List String) : List (List String) :=
  t.entries.filterMap fun e =>
    match e.2 with
    | .file _ => if names.isPrefixOf e.1 then some e.1 else none
    | .directory => none

end FileTree

end LayeredConfig
