import LayeredConfig.Expr.Evaluation
import LayeredConfig.Expr.Reader

namespace LayeredConfig

/-- The body of a tagged text, which is `jit(` body `)` with blanks around. -/
def taggedBody? (text : String) : Option String := do
  let inside ← afterOpening? "jit(".toList (trimBoth isBlank text.toList)
  let body ← beforeEnding? [')'] inside
  some (String.ofList body)

/-- An expression whose value is asked for later: the tagged text it was
written as, and the directory its files are taken from. -/
structure Deferred where
  source : String
  expr : Expr
  baseDir : Location
  deriving Repr, Inhabited

/-- Compiles a text; a text without the tag is no deferred expression. -/
def Deferred.compile (text : String) (baseDir : Location) : Except ExprFault (Option Deferred) :=
  match taggedBody? text with
  | none => .ok none
  | some body => (Expr.read body).map fun expr => some ⟨text, expr, baseDir⟩

/-- The value now; every file is read again. -/
def Deferred.evaluate (tree : FileTree) (d : Deferred) : Except ExprFault Value :=
  d.expr.evaluate tree d.baseDir

end LayeredConfig
