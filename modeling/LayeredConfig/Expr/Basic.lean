namespace LayeredConfig

/-- The functions an expression can call. -/
inductive Function
  | join
  | pick
  deriving DecidableEq, Repr, Inhabited

def Function.name : Function → String
  | join => "join"
  | pick => "pick"

def Function.ofName? (name : String) : Option Function :=
  if name = "join" then some .join else if name = "pick" then some .pick else none

/-- An expression: a text or a call whose arguments are expressions. -/
inductive Expr
  | text (s : String)
  | call (function : Function) (args : List Expr)
  deriving Repr, Inhabited

namespace Expr

mutual

def beq : Expr → Expr → Bool
  | text a, text b => a == b
  | call f as, call g bs => f == g && beqList as bs
  | _, _ => false

def beqList : List Expr → List Expr → Bool
  | [], [] => true
  | a :: as, b :: bs => beq a b && beqList as bs
  | _, _ => false

end

/-- A character between single quotes. -/
def escaped (c : Char) : List Char :=
  if c = '\'' then ['\\', '\'']
  else if c = '\\' then ['\\', '\\']
  else if c = '\n' then ['\\', 'n']
  else if c = '\t' then ['\\', 't']
  else [c]

mutual

/-- The written form: texts in single quotes, a comma and a blank between
arguments. -/
def written : Expr → List Char
  | text s => '\'' :: s.toList.flatMap escaped ++ ['\'']
  | call f args => f.name.toList ++ '(' :: writtenArgs args ++ [')']

def writtenArgs : List Expr → List Char
  | [] => []
  | [arg] => written arg
  | arg :: next :: rest => written arg ++ ',' :: ' ' :: writtenArgs (next :: rest)

end

def print (e : Expr) : String :=
  String.ofList e.written

end Expr

end LayeredConfig
