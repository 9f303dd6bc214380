import LayeredConfig.Expr.Fault
import LayeredConfig.Expr.Pick
import LayeredConfig.Json.Printer
import LayeredConfig.Json.Reader

namespace LayeredConfig.Expr

/-- The text that a value adds to a join; none for null, lists and objects. -/
def joinText? : Value → Option (List Char)
  | .string s => some s.toList
  | .number n => some (Json.numberText n)
  | .bool b => some (toString b).toList
  | _ => none

/-- Joins values from left to right; `index` counts the arguments before. -/
def joinValues (index : Nat) : List Value → Except ExprFault (List Char)
  | [] => .ok []
  | v :: rest =>
    match joinText? v with
    | none => .error (.argument .join index v.kindName)
    | some s => (joinValues (index + 1) rest).map (s ++ ·)

/-- The part of a JSON file at a dotted path. The file is read now. -/
def pickFrom (tree : FileTree) (file : Location) (path : String) : Except ExprFault Value :=
  match tree.read file with
  | .error fault => .error (.pickFile file (.access fault))
  | .ok content =>
    match Json.read? content with
    | none => .error (.pickFile file .notJson)
    | some document => (pickPath document path).mapError (.pickPath file path)

def apply (tree : FileTree) (dir : Location) : Function → List Value → Except ExprFault Value
  | .join, values => (joinValues 0 values).map fun s => .string (String.ofList s)
  | .pick, [.string file, .string path] => pickFrom tree (dir.join file) path
  | .pick, [.string _, path] => .error (.argument .pick 1 path.kindName)
  | .pick, [file, _] => .error (.argument .pick 0 file.kindName)
  | .pick, values => .error (.arity .pick values.length)

mutual

/-- The value of an expression; files are taken from a directory. -/
def evaluate (tree : FileTree) (dir : Location) : Expr → Except ExprFault Value
  | .text s => .ok (.string s)
  | .call function args => do
    let values ← evaluateAll tree dir args
    apply tree dir function values

/-- The values of expressions, up to the first that fails. -/
def evaluateAll (tree : FileTree) (dir : Location) : List Expr → Except ExprFault (List Value)
  | [] => .ok []
  | arg :: rest => do
    let value ← evaluate tree dir arg
    let values ← evaluateAll tree dir rest
    .ok (value :: values)

end

end LayeredConfig.Expr
