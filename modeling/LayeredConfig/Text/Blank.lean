namespace LayeredConfig

/-- Whether a character has the Unicode property White_Space. -/
def isBlank (c : Char) : Bool :=
  let n := c.toNat
  (9 ≤ n && n ≤ 13) || n == 0x20 || n == 0x85 || n == 0xA0 || n == 0x1680 || (0x2000 ≤ n && n ≤ 0x200A) ||
    n == 0x2028 || n == 0x2029 || n == 0x202F || n == 0x205F || n == 0x3000

/-- White space within ASCII. Declaration lines and placeholder calls are
recognised with this narrower class. -/
def isAsciiBlank (c : Char) : Bool :=
  (9 ≤ c.toNat && c.toNat ≤ 13) || c == ' '

def skipBlank (cs : List Char) : List Char :=
  cs.dropWhile isBlank

/-- The text without the characters of a class at its two ends. -/
def trimBoth (p : Char → Bool) (cs : List Char) : List Char :=
  ((cs.dropWhile p).reverse.dropWhile p).reverse

/-- The pieces between separators: one more than there are separators. -/
def pieces (sep : Char) : List Char → List (List Char)
  | [] => [[]]
  | c :: rest =>
    if c = sep then [] :: pieces sep rest
    else match pieces sep rest with
      | [] => [[c]]
      | piece :: more => (c :: piece) :: more

/-- Joins pieces with a separator between two neighbours. -/
def joinWith (sep : Char) : List (List Char) → List Char
  | [] => []
  | [piece] => piece
  | piece :: more => piece ++ sep :: joinWith sep more

theorem pieces_ne_nil (sep : Char) (cs : List Char) : pieces sep cs ≠ [] := by
  cases cs with
  | nil => simp [pieces]
  | cons c rest =>
    simp only [pieces]
    split
    · simp
    · split <;> simp

/-- Nothing is lost by cutting a text at its separators. -/
theorem joinWith_pieces (sep : Char) (cs : List Char) : joinWith sep (pieces sep cs) = cs := by
  induction cs with
  | nil => rfl
  | cons c rest ih =>
    simp only [pieces]
    split
    · next same =>
      cases cut : pieces sep rest with
      | nil => exact absurd cut (pieces_ne_nil sep rest)
      | cons piece more =>
        rw [cut] at ih
        simp only [joinWith, List.nil_append, ih, same]
    · cases cut : pieces sep rest with
      | nil => exact absurd cut (pieces_ne_nil sep rest)
      | cons piece more =>
        rw [cut] at ih
        cases more with
        | nil => simp only [joinWith] at ih ⊢; rw [ih]
        | cons => simp only [joinWith, List.cons_append] at ih ⊢; rw [ih]

/-- Cuts a text behind so many bytes; none where no character ends. -/
def cutAt? : Nat → List Char → Option (List Char × List Char)
  | 0, cs => some ([], cs)
  | _ + 1, [] => none
  | bytes + 1, c :: cs =>
    if c.utf8Size ≤ bytes + 1 then
      (cutAt? (bytes + 1 - c.utf8Size) cs).map fun (front, back) => (c :: front, back)
    else none

/-- The lines of a text. A line ends at a line feed, which a carriage return
may precede; a last line needs no end and is dropped when empty. -/
def linesOf (cs : List Char) : List (List Char) :=
  let cut := pieces '\n' cs
  let ended := cut.dropLast.map fun line =>
    match line.getLast? with
    | some '\r' => line.dropLast
    | _ => line
  match cut.getLast? with
  | some (c :: last) => ended ++ [c :: last]
  | _ => ended

/-- Removes the given opening if the text has it. -/
def afterOpening? : List Char → List Char → Option (List Char)
  | [], cs => some cs
  | _ :: _, [] => none
  | p :: ps, c :: cs => if p = c then afterOpening? ps cs else none

theorem afterOpening?_append (token rest : List Char) : afterOpening? token (token ++ rest) = some rest := by
  induction token with
  | nil => rfl
  | cons c token ih => rw [List.cons_append, afterOpening?, if_pos rfl, ih]

theorem afterOpening?_eq_some {token cs rest : List Char} (found : afterOpening? token cs = some rest) :
    cs = token ++ rest := by
  induction token generalizing cs with
  | nil => simpa [afterOpening?] using found
  | cons p ps ih =>
    cases cs with
    | nil => simp [afterOpening?] at found
    | cons c cs =>
      rw [afterOpening?] at found
      split at found
      · next same => rw [same, ih found, List.cons_append]
      · cases found

/-- Removes the given ending if the text has it. -/
def beforeEnding? (ending cs : List Char) : Option (List Char) :=
  (afterOpening? ending.reverse cs.reverse).map List.reverse

def digitValue? (base : Nat) (c : Char) : Option Nat :=
  let v :=
    if c.isDigit then some (c.toNat - '0'.toNat)
    else if 'a' ≤ c ∧ c ≤ 'z' then some (c.toNat - 'a'.toNat + 10)
    else if 'A' ≤ c ∧ c ≤ 'Z' then some (c.toNat - 'A'.toNat + 10)
    else none
  v.filter (· < base)

/-- Reads a text of digits only; there must be one at least. -/
def natOfDigits? (base : Nat) : List Char → Option Nat
  | [] => none
  | cs => cs.foldlM (fun n c => (digitValue? base c).map (n * base + ·)) 0

/-- The unsigned machine words are the numbers below this. -/
def wordLimit : Nat := 18446744073709551616

/-- Reads an unsigned machine word in decimal; a plus sign may precede it. -/
def wordOfText? (cs : List Char) : Option Nat :=
  let digits := match cs with
    | '+' :: rest => rest
    | _ => cs
  (natOfDigits? 10 digits).filter (· < wordLimit)

end LayeredConfig
