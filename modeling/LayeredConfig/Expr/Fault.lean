import LayeredConfig.Expr.Basic
import LayeredConfig.FileTree.Basic

namespace LayeredConfig

/-- What a reader of expressions misses or refuses at some place of a text. -/
inductive Expected
  | opening
  | expression
  | moreInput
  | commaOrClosing
  | closingQuote
  | knownEscape
  | endOfInput
  deriving DecidableEq, Repr, Inhabited

def Expected.message : Expected → String
  | opening => "expected '('"
  | expression => "expected a string literal or a function call"
  | moreInput => "unexpected end of expression"
  | commaOrClosing => "expected ',' or ')'"
  | closingQuote => "unterminated string literal"
  | knownEscape => "unsupported escape sequence"
  | endOfInput => "unexpected trailing input"

/-- Why a file could not be picked from. -/
inductive PickFileFault
  | access (fault : AccessFault)
  | notJson
  deriving DecidableEq, Repr, Inhabited

def PickFileFault.message : PickFileFault → String
  | .access fault => fault.message
  | .notJson => "invalid JSON"

/-- Why an expression could not be read or evaluated. Offsets count bytes. -/
inductive ExprFault
  | syntaxError (input : String) (offset : Nat) (expected : Expected)
  | unknownFunction (name : String)
  | arity (function : Function) (actual : Nat)
  | argument (function : Function) (index : Nat) (kind : String)
  | pickFile (file : Location) (cause : PickFileFault)
  | pickPath (file : Location) (path segment : String)
  deriving DecidableEq, Repr, Inhabited

namespace ExprFault

/-- What a function takes as an argument. -/
def accepts : Function → String
  | .join => "a string, number or boolean"
  | .pick => "a string"

def message : ExprFault → String
  | syntaxError input offset expected =>
    s!"Syntax error at offset {offset} in \x60{input}\x60: {expected.message}"
  | unknownFunction name => s!"Unknown function \x60{name}\x60; only join() and pick() are supported"
  | arity function actual => s!"{function.name}() expects 2 argument(s), got {actual}"
  | argument function index kind =>
    s!"{function.name}() argument {index} must be {accepts function}, got {kind}"
  | pickFile file cause => s!"pick() could not read {file.text}: {cause.message}"
  | pickPath file path segment =>
    s!"pick() path \x60{path}\x60 is undefined at segment \x60{segment}\x60 in {file.text}"

end ExprFault

end LayeredConfig
