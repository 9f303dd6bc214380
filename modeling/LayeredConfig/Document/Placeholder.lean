import LayeredConfig.Location.Basic

namespace LayeredConfig

/-- The placeholder for the directory of a document. -/
def dirToken : List Char :=
  "\x7b__dirname\x7d".toList

/-- The opening of a call that makes a path absolute. -/
def resolveOpening : List Char :=
  "resolve(".toList

/-- Replaces each occurrence of a token, from left to right. -/
def replaceToken (token new : List Char) : Nat → List Char → List Char
  | 0, cs => cs
  | _ + 1, [] => []
  | fuel + 1, c :: rest =>
    match afterOpening? token (c :: rest) with
    | some after => new ++ replaceToken token new fuel after
    | none => c :: replaceToken token new fuel rest

/-- A call at the start of the text: its quoted literal and what follows it.
Blanks may stand inside the parentheses beside the literal, which cannot hold
its own quote. -/
def resolveCall? (cs : List Char) : Option (List Char × List Char) := do
  let inside ← afterOpening? resolveOpening cs
  match inside.dropWhile isAsciiBlank with
  | [] => none
  | quote :: rest =>
    if quote = '\'' ∨ quote = '"' then
      match rest.dropWhile (· ≠ quote) with
      | [] => none
      | _ :: after =>
        match after.dropWhile isAsciiBlank with
        | ')' :: after => some (rest.takeWhile (· ≠ quote), after)
        | _ => none
    else none

/-- Replaces each call, from left to right, by the value of its literal. -/
def replaceCalls (value : List Char → List Char) : Nat → List Char → List Char
  | 0, cs => cs
  | _ + 1, [] => []
  | fuel + 1, c :: rest =>
    match resolveCall? (c :: rest) with
    | some (literal, after) => value literal ++ replaceCalls value fuel after
    | none => c :: replaceCalls value fuel rest

/-- Fills the placeholders of a document's text: first the directory token,
then the calls, whose paths are taken from the directory. Paths are put in with
forward slashes. -/
def fillPlaceholders (text : String) (dir : Location) : String :=
  let cs := text.toList
  let named := replaceToken dirToken dir.slashed.toList (cs.length + 1) cs
  let value := fun literal => (Location.absolutize ⟨String.ofList literal⟩ dir).slashed.toList
  String.ofList (replaceCalls value (named.length + 1) named)

end LayeredConfig
