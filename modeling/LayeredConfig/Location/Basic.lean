import LayeredConfig.Text.Blank

namespace LayeredConfig

/-- A place in a tree of files, as written. Work on places is lexical: no file
is looked at, and links are never followed. -/
structure Location where
  text : String
  deriving DecidableEq, Repr, Inhabited

/-- One part of a place. -/
inductive Step
  | root
  | here
  | up
  | name (s : String)
  deriving DecidableEq, Repr, Inhabited

namespace Location

def isAbsolute (l : Location) : Bool :=
  l.text.toList.head? = some '/'

/-- The start of a place, which is the root, a leading dot or nothing, and the
parts after it as they are written. -/
def dissect (l : Location) : Option Step × List (List Char) :=
  match l.text.toList with
  | '/' :: body => (some .root, pieces '/' body)
  | ['.'] => (some .here, [])
  | '.' :: '/' :: body => (some .here, [] :: pieces '/' body)
  | body => (none, pieces '/' body)

/-- Whether a written part counts for nothing: an empty one or a single dot. -/
def idle (part : List Char) : Bool :=
  part == [] || part == ['.']

def stepOf (part : List Char) : Step :=
  if part = ['.', '.'] then .up else .name (String.ofList part)

/-- The parts of a place. Repeated and final slashes and inner dots count for
nothing; a leading dot counts. -/
def steps (l : Location) : List Step :=
  let (start, body) := l.dissect
  start.toList ++ (body.filter (!idle ·)).map stepOf

/-- Two places are the same when their parts are. -/
def same (a b : Location) : Bool :=
  a.steps == b.steps

def Step.text : Step → String
  | .root => "/"
  | .here => "."
  | .up => ".."
  | .name s => s

/-- The text of a start and written parts after it. -/
def assemble (start : Option Step) (body : List (List Char)) : Location :=
  ⟨String.ofList ((start.elim [] fun s => (Step.text s).toList) ++ joinWith '/' body)⟩

/-- Continues a base by a text; an absolute text takes the place of the base. -/
def join (base : Location) (text : String) : Location :=
  match text.toList with
  | '/' :: _ => ⟨text⟩
  | _ =>
    match base.text.toList.getLast? with
    | none => ⟨text⟩
    | some '/' => ⟨base.text ++ text⟩
    | some _ => ⟨base.text ++ "/" ++ text⟩

def dropIdleEnd (body : List (List Char)) : List (List Char) :=
  (body.reverse.dropWhile idle).reverse

/-- The place without its last part; none for the root and the empty place.
What is left keeps its written form. -/
def parent? (l : Location) : Option Location :=
  let (start, body) := l.dissect
  match dropIdleEnd body with
  | [] => match start with
    | some .here => some ⟨""⟩
    | _ => none
  | kept => some (assemble start (dropIdleEnd kept.dropLast))

/-- The directory that holds a place; the root when there is none. -/
def dir (l : Location) : Location :=
  l.parent?.getD ⟨"/"⟩

/-- The place without slashes at its end; the root keeps its one. -/
def unslashed (l : Location) : Location :=
  match l.text.toList.reverse.dropWhile (· = '/') with
  | [] => if l.text = "" then l else ⟨"/"⟩
  | kept => ⟨String.ofList kept.reverse⟩

/-- The place itself and everything above it, nearest first. -/
def ancestorsWithin : Nat → Location → List Location
  | 0, l => [l]
  | fuel + 1, l => l :: (l.parent?.elim [] (ancestorsWithin fuel))

def ancestors (l : Location) : List Location :=
  ancestorsWithin l.text.length l

/-- Removes that many parts from the front of written parts. -/
def dropParts : Nat → List (List Char) → List (List Char)
  | 0, body => body
  | _ + 1, [] => []
  | n + 1, part :: rest => if idle part then dropParts (n + 1) rest else dropParts n rest

/-- What follows a base, as written; none when the base is not the start of
the place. -/
def below? (l base : Location) : Option String :=
  let (start, body) := l.dissect
  let above := base.steps
  if above.isPrefixOf l.steps then
    if above.isEmpty then some (assemble start (dropIdleEnd body)).text
    else
      let left := dropParts (above.length - start.toList.length) body
      some (assemble none (dropIdleEnd (left.dropWhile idle))).text
  else none

/-- The last part, when it is a name. -/
def fileName? (l : Location) : Option String :=
  match l.steps.getLast? with
  | some (.name s) => some s
  | _ => none

/-- What follows the last dot of the file name, unless the dot opens the name. -/
def extension? (l : Location) : Option String :=
  l.fileName?.bind fun name =>
    let cut := pieces '.' name.toList
    if cut.length < 2 ∨ joinWith '.' cut.dropLast = [] then none
    else cut.getLast?.map String.ofList

/-- Folds a part into the canonical parts met so far, which come last first. -/
def settle (done : List Step) : Step → List Step
  | .here => done
  | .up => match done with
    | .name _ :: rest => rest
    | .root :: _ => done
    | _ => .up :: done
  | .root => [.root]
  | .name s => .name s :: done

/-- The text of canonical parts in order. -/
def ofSteps (steps : List Step) : Location :=
  match steps with
  | [] => ⟨"."⟩
  | .root :: rest => assemble (some .root) (rest.map (Step.text · |>.toList))
  | steps => assemble none (steps.map (Step.text · |>.toList))

/-- Without dots, and without a parent step after a name. -/
def normalize (l : Location) : Location :=
  ofSteps (l.steps.foldl settle []).reverse

/-- A place taken from a base directory unless it is absolute, in canonical
form. -/
def absolutize (l base : Location) : Location :=
  if l.isAbsolute then l.normalize else (base.join l.text).normalize

/-- The number of parts that two places share at the front. -/
def sharedSteps : List Step → List Step → Nat
  | a :: as, b :: bs => if a = b then sharedSteps as bs + 1 else 0
  | _, _ => 0

/-- The way from a base to a place: up to the part they share, then down. -/
def relativeTo (l base : Location) : Location :=
  let shared := sharedSteps l.steps base.steps
  let up := List.replicate (base.steps.length - shared) Step.up
  (up ++ l.steps.drop shared).foldl (fun out step => out.join (Step.text step)) ⟨""⟩

/-- The text with forward slashes only. -/
def slashed (l : Location) : String :=
  String.ofList (l.text.toList.map fun c => if c = '\\' then '/' else c)

/-- A reference to a place from a directory. It starts with a dot. -/
def referenceFrom (target dir : Location) : String :=
  let way := (target.relativeTo dir).slashed
  if way = ".." ∨ "../".toList.isPrefixOf way.toList then way else "./" ++ way

end Location

end LayeredConfig
