import LayeredConfig.Text.Blank

namespace LayeredConfig

/-- The entity key that a line declares: a quoted key that opens with a number
sign, after blanks, with a colon behind it. The quoted key cannot hold its own
quote. -/
def declaredKey? (line : List Char) : Option String :=
  match line.dropWhile isAsciiBlank with
  | quote :: '#' :: rest =>
    if quote = '\'' ∨ quote = '"' then
      match rest.dropWhile (· ≠ quote) with
      | [] => none
      | _ :: after =>
        match after.dropWhile isAsciiBlank with
        | ':' :: _ => some (String.ofList ('#' :: rest.takeWhile (· ≠ quote)))
        | _ => none
    else none
  | _ => none

/-- The declared keys of numbered lines, each with the first line that declares
it, in the order of the lines. -/
def declarationsFrom (number : Nat) : List (List Char) → List (String × Nat)
  | [] => []
  | line :: rest =>
    let later := declarationsFrom (number + 1) rest
    match declaredKey? line with
    | none => later
    | some key => (key, number) :: later.filter fun e => e.1 ≠ key

/-- The first line, counted from 1, on which each entity key is declared. -/
def declarations (text : String) : List (String × Nat) :=
  declarationsFrom 1 (linesOf text.toList)

/-- The line of a key; keys that are written in another way are put on line 1. -/
def declarationLine (text : String) (key : String) : Nat :=
  ((declarations text).lookup key).getD 1

end LayeredConfig
