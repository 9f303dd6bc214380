import LayeredConfig.Expr.Fault
import LayeredConfig.Text.Blank

namespace LayeredConfig.Expr

/-- Why reading stopped: something is missing in front of the rest of the text,
or a call names no known function. -/
inductive Refusal
  | missing (expected : Expected) (rest : List Char)
  | unknownFunction (name : String)
  deriving DecidableEq, Repr

def isNameStart (c : Char) : Bool :=
  c.isAlpha || c = '_'

def isNameChar (c : Char) : Bool :=
  c.isAlphanum || c = '_'

/-- The characters up to the closing quote, and what follows it. -/
def quotedRest (quote : Char) : List Char → Except Refusal (List Char × List Char)
  | [] => .error (.missing .closingQuote [])
  | c :: rest =>
    if c = quote then .ok ([], rest)
    else if c = '\\' then
      match rest with
      | [] => .error (.missing .closingQuote [])
      | d :: after =>
        let escaped :=
          if d = 'n' then some '\n'
          else if d = 't' then some '\t'
          else if d = '\\' ∨ d = '\'' ∨ d = '"' then some d
          else none
        match escaped with
        | none => .error (.missing .knownEscape rest)
        | some s => (quotedRest quote after).map fun (more, rest) => (s :: more, rest)
    else (quotedRest quote rest).map fun (more, rest) => (c :: more, rest)

/-- The opening parenthesis of a call, with blanks before it. -/
def opening (cs : List Char) : Except Refusal (Unit × List Char) :=
  match skipBlank cs with
  | '(' :: rest => .ok ((), rest)
  | rest => .error (.missing .opening rest)

mutual

/-- Reads one expression with blanks before it. -/
def expression (fuel : Nat) (cs : List Char) : Except Refusal (Expr × List Char) :=
  match fuel with
  | 0 => .error (.missing .moreInput [])
  | fuel + 1 =>
    match skipBlank cs with
    | [] => .error (.missing .moreInput [])
    | c :: rest =>
      if c = '\'' ∨ c = '"' then (quotedRest c rest).map fun (s, rest) => (.text (String.ofList s), rest)
      else if isNameStart c then
        let name := String.ofList (c :: rest.takeWhile isNameChar)
        match Function.ofName? name with
        | none => .error (.unknownFunction name)
        | some function => do
          let (_, rest) ← opening (rest.dropWhile isNameChar)
          match skipBlank rest with
          | ')' :: rest => .ok (.call function [], rest)
          | rest =>
            let (args, rest) ← arguments fuel rest
            .ok (.call function args, rest)
      else .error (.missing .expression (c :: rest))

/-- Reads one argument or more and the closing parenthesis. -/
def arguments (fuel : Nat) (cs : List Char) : Except Refusal (List Expr × List Char) :=
  match fuel with
  | 0 => .error (.missing .moreInput [])
  | fuel + 1 => do
    let (arg, rest) ← expression fuel cs
    match skipBlank rest with
    | ',' :: rest =>
      let (args, rest) ← arguments fuel rest
      .ok (arg :: args, rest)
    | ')' :: rest => .ok ([arg], rest)
    | rest => .error (.missing .commaOrClosing rest)

end

def byteLength (cs : List Char) : Nat :=
  cs.foldl (fun n c => n + c.utf8Size) 0

/-- Reads a whole text as one expression. Each call of the two readers above
goes with a character of its own, and there are two of them. -/
def read (input : String) : Except ExprFault Expr :=
  let cs := input.toList
  let found : Except Refusal Expr := do
    let (e, rest) ← expression (2 * cs.length + 2) cs
    match skipBlank rest with
    | [] => .ok e
    | rest => .error (.missing .endOfInput rest)
  found.mapError fun
    | .missing expected rest => .syntaxError input (byteLength cs - byteLength rest) expected
    | .unknownFunction name => .unknownFunction name

end LayeredConfig.Expr
