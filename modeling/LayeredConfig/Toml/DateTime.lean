import LayeredConfig.Clock
import LayeredConfig.Value.Basic

namespace LayeredConfig.Toml

/-- How far the hour of a time may go, and which offsets there are. -/
structure TimeLimits where
  lastHour : Nat
  offsetFits : Nat → Nat → Bool

/-- The limits of dates and times that stand for themselves. -/
def TimeLimits.bare : TimeLimits :=
  ⟨23, fun hour minute => hour ≤ 23 && minute ≤ 59⟩

/-- The limits of dates and times inside a text, where a day may end at hour 24. -/
def TimeLimits.inText : TimeLimits :=
  ⟨24, fun hour minute => hour * 60 + minute ≤ 1440⟩

/-- Exactly that many digits. -/
def fixedDigits? (width : Nat) (cs : List Char) : Option (Nat × List Char) :=
  let digits := cs.take width
  if digits.length = width ∧ digits.all Char.isDigit then (natOfDigits? 10 digits).map (·, cs.drop width) else none

/-- A number of two digits within bounds. -/
def twoDigits? (low high : Nat) (cs : List Char) : Option (Nat × List Char) :=
  (fixedDigits? 2 cs).filter fun (n, _) => low ≤ n && n ≤ high

def mark? (c : Char) : List Char → Option (List Char)
  | d :: rest => if c = d then some rest else none
  | [] => none

/-- A date in its written form. -/
def date? (cs : List Char) : Option (List Char × List Char) := do
  let (year, rest) ← fixedDigits? 4 cs
  let (month, rest) ← (mark? '-' rest).bind (twoDigits? 1 12)
  let (day, rest) ← (mark? '-' rest).bind (twoDigits? 1 31)
  if (CivilDay.mk year month day).valid then some (cs.take 10, rest) else none

/-- A time of day in its written form. The fraction of the second has nine
digits at most and no zeros at its end. -/
def time? (limits : TimeLimits) (cs : List Char) : Option (List Char × List Char) := do
  let (_, rest) ← twoDigits? 0 limits.lastHour cs
  let (_, rest) ← (mark? ':' rest).bind (twoDigits? 0 59)
  let (_, rest) ← (mark? ':' rest).bind (twoDigits? 0 60)
  match rest with
  | '.' :: more =>
    let digits := more.takeWhile Char.isDigit
    if digits.isEmpty then some (cs.take 8, rest)
    else
      let kept := ((digits.take 9).reverse.dropWhile (· = '0')).reverse
      some (cs.take 8 ++ (if kept.isEmpty then [] else '.' :: kept), more.drop digits.length)
  | _ => some (cs.take 8, rest)

/-- An offset from universal time in its written form. It has less than sixty
minutes beside its hours, and one of zero is never negative. -/
def offset? (limits : TimeLimits) (cs : List Char) : Option (List Char × List Char) :=
  match cs with
  | [] => none
  | c :: rest =>
    if c = 'Z' ∨ c = 'z' then some (['Z'], rest)
    else if c = '+' ∨ c = '-' then do
      let (hour, rest) ← fixedDigits? 2 rest
      let (minute, rest) ← (mark? ':' rest).bind (fixedDigits? 2)
      let all := hour * 60 + minute
      if limits.offsetFits hour minute then
        some ((if all = 0 then '+' else c) :: padded 2 (all / 60) ++ ':' :: padded 2 (all % 60), rest)
      else none
    else none

/-- A date, a time or both in their written form. A blank may stand for the letter
between them. -/
def dateTime? (limits : TimeLimits) (cs : List Char) : Option (List Char × List Char) :=
  match date? cs with
  | none => time? limits cs
  | some (d, rest) =>
    let timed : Option (List Char × List Char) := do
      let c ← rest.head?
      if c = 'T' ∨ c = 't' ∨ c = ' ' then time? limits (rest.drop 1) else none
    match timed with
    | none => some (d, rest)
    | some (t, rest) =>
      let (o, rest) := (offset? limits rest).getD ([], rest)
      some (d ++ 'T' :: t ++ o, rest)

/-- A table that has this key first is no table but a date or time. -/
def dateKey : String := "$__toml_private_datetime"

/-- A date or time as the table it is handed on as. -/
def datedValue (text : List Char) : Value :=
  .object [(dateKey, .string (String.ofList text))]

/-- The date or time that a text holds, and nothing else. -/
def textDate? (s : String) : Option String :=
  (dateTime? .inText s.toList).bind fun (text, rest) => if rest.isEmpty then some (String.ofList text) else none

example : textDate? "1979-05-27 24:00:00.50z" = some "1979-05-27T24:00:00.5Z" := by decide +kernel
example : textDate? "1979-02-30" = none := by decide +kernel

mutual

/-- Puts dates and times, as texts, where a table stands for one. The first key
of such a table must have a text for one; its other keys do not count. -/
def settleDates? : Value → Option Value
  | .array items => (settleItems? items).map .array
  | .object [] => some (.object [])
  | .object ((key, v) :: rest) =>
    if key = dateKey then v.string?.bind fun s => (textDate? s).map .string
    else do
      let v ← settleDates? v
      let rest ← settleFields? rest
      some (.object ((key, v) :: rest))
  | v => some v

def settleItems? : List Value → Option (List Value)
  | [] => some []
  | item :: rest => do
    let item ← settleDates? item
    let rest ← settleItems? rest
    some (item :: rest)

def settleFields? : List (String × Value) → Option (List (String × Value))
  | [] => some []
  | (key, v) :: rest => do
    let v ← settleDates? v
    let rest ← settleFields? rest
    some ((key, v) :: rest)

end

end LayeredConfig.Toml
