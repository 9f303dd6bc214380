import LayeredConfig.Document.Load
import LayeredConfig.Value.KeyPath

namespace LayeredConfig

/-- What became of a request to set a value. -/
inductive EditResult
  | written
  | unchanged
  | alreadyPresent
  deriving DecidableEq, Repr, Inhabited

def EditResult.name : EditResult → String
  | written => "written"
  | unchanged => "unchanged"
  | alreadyPresent => "already_present"

namespace Edit

/-- The fields that a file holds, read now. -/
def fieldsOf (files : FileTree) (file : Location) : Except Fault Fields := do
  let (_, value) ← Document.stored files file
  Document.topFields file value

/-- The value at a path in a file. -/
def get (files : FileTree) (file : Location) (path : List String) : Except Fault (Option Value) :=
  (fieldsOf files file).map (valueAt? · path)

/-- A path names one key or more, and none of them is empty. -/
def checkPath (file : Location) (path : List String) : Except Fault Unit :=
  if path.isEmpty || path.contains "" then .error (.emptyPath file) else .ok ()

/-- The result when nothing need be written: a value may be kept, or is the one
to set. -/
def settled? (fields : Fields) (path : List String) (value : Value) (onlyIfAbsent : Bool) : Option EditResult :=
  match valueAt? fields path with
  | none => none
  | some existing =>
    if onlyIfAbsent then some .alreadyPresent
    else if existing.alike value then some .unchanged
    else none

/-- Sets the value at a path in a file. The file is written only if that changes
its value. -/
def set (files : FileTree) (file : Location) (path : List String) (value : Value) (onlyIfAbsent : Bool) :
    Outcome EditResult :=
  match (checkPath file path).bind fun _ => fieldsOf files file with
  | .error fault => .failed files fault
  | .ok fields =>
    match settled? fields path value onlyIfAbsent with
    | some result => .done files result
    | none =>
      (Document.save files file (.object (setAt fields path value))).andThen fun files _ => .done files .written

/-- The outcome of setting a value inside an entity, and the entities that the
validator was asked about. -/
structure EntityEdit where
  outcome : Outcome EditResult
  consulted : List (String × Value)

/-- Sets a value inside an entity. The validator sees the entity as it would
become; if it has an objection, nothing is written. -/
def setInEntity (validate : String → Value → List Issue) (files : FileTree) (file : Location) (entity : String)
    (path : List String) (value : Value) : EntityEdit :=
  let whole := entity :: path
  match (checkPath file whole).bind fun _ => fieldsOf files file with
  | .error fault => ⟨.failed files fault, []⟩
  | .ok fields =>
    match settled? fields whole value false with
    | some result => ⟨.done files result, []⟩
    | none =>
      let changed := setAt fields whole value
      let proposed := (changed.lookup entity).getD .null
      match validate entity proposed with
      | [] =>
        ⟨(Document.save files file (.object changed)).andThen fun files _ => .done files .written,
          [(entity, proposed)]⟩
      | issues => ⟨.failed files (.rejected entity file issues), [(entity, proposed)]⟩

end Edit

end LayeredConfig
