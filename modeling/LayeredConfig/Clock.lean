import LayeredConfig.Text.Blank

namespace LayeredConfig

/-- A moment of universal time: whole seconds since 1970-01-01T00:00:00Z and
nanoseconds. A leap second is written with a thousand million nanoseconds or
more after the second before it. -/
structure Instant where
  seconds : Int
  nanos : Nat
  deriving DecidableEq, Repr, Inhabited

/-- A day of the Gregorian calendar, also before it came into use. -/
structure CivilDay where
  year : Int
  month : Nat
  day : Nat
  deriving DecidableEq, Repr, Inhabited

namespace CivilDay

def isLeap (year : Int) : Bool :=
  year % 4 = 0 && (year % 100 ≠ 0 || year % 400 = 0)

def daysIn (year : Int) (month : Nat) : Nat :=
  if month = 2 then (if isLeap year then 29 else 28)
  else if month = 4 ∨ month = 6 ∨ month = 9 ∨ month = 11 then 30
  else 31

def valid (d : CivilDay) : Bool :=
  1 ≤ d.month && d.month ≤ 12 && 1 ≤ d.day && d.day ≤ daysIn d.year d.month

/-- Days since 1970-01-01. Years start in March here, so that the leap day is
the last of its year, and 400 years have 146097 days. -/
def toDays (d : CivilDay) : Int :=
  let y := if d.month ≤ 2 then d.year - 1 else d.year
  let era := y / 400
  let yearOfEra := y % 400
  let monthFromMarch : Int := (d.month + 9) % 12
  let dayOfYear := (153 * monthFromMarch + 2) / 5 + d.day - 1
  era * 146097 + yearOfEra * 365 + yearOfEra / 4 - yearOfEra / 100 + dayOfYear - 719468

def ofDays (days : Int) : CivilDay :=
  let z := days + 719468
  let era := z / 146097
  let dayOfEra := z % 146097
  let yearOfEra := (dayOfEra - dayOfEra / 1460 + dayOfEra / 36524 - dayOfEra / 146096) / 365
  let dayOfYear := dayOfEra - (365 * yearOfEra + yearOfEra / 4 - yearOfEra / 100)
  let monthFromMarch := (5 * dayOfYear + 2) / 153
  let day := dayOfYear - (153 * monthFromMarch + 2) / 5 + 1
  let month := if monthFromMarch < 10 then monthFromMarch + 3 else monthFromMarch - 9
  let year := yearOfEra + era * 400 + (if month ≤ 2 then 1 else 0)
  ⟨year, month.toNat, day.toNat⟩

example : (CivilDay.mk 1970 1 1).toDays = 0 := by decide
example : ofDays (CivilDay.mk 2024 2 29).toDays = ⟨2024, 2, 29⟩ := by decide
example : ofDays (CivilDay.mk (-1) 12 31).toDays = ⟨-1, 12, 31⟩ := by decide

end CivilDay

/-- Decimal digits with leading zeros up to a width. -/
def padded (width n : Nat) : List Char :=
  let digits := Nat.toDigits 10 n
  List.replicate (width - digits.length) '0' ++ digits

namespace Instant

/-- A year has four digits; one outside of 0 to 9999 also has its sign. -/
def yearText (year : Int) : List Char :=
  if 0 ≤ year ∧ year ≤ 9999 then padded 4 year.natAbs
  else (if year < 0 then '-' else '+') :: padded 4 year.natAbs

/-- Date and time up to the second; a leap second is second 60. -/
def dayAndTime (t : Instant) : List Char :=
  let d := CivilDay.ofDays (t.seconds / 86400)
  let s := (t.seconds % 86400).toNat
  let leap := if 1000000000 ≤ t.nanos then 1 else 0
  yearText d.year ++ '-' :: padded 2 d.month ++ '-' :: padded 2 d.day ++ 'T' :: padded 2 (s / 3600) ++
    ':' :: padded 2 (s / 60 % 60) ++ ':' :: padded 2 (s % 60 + leap)

/-- With three digits of the second's fraction, cut and not rounded. -/
def toMillis (t : Instant) : String :=
  String.ofList (t.dayAndTime ++ '.' :: padded 3 (t.nanos % 1000000000 / 1000000) ++ ['Z'])

/-- With as many of 0, 3, 6 or 9 digits of the fraction as it needs. -/
def toExact (t : Instant) : String :=
  let nanos := t.nanos % 1000000000
  let fraction :=
    if nanos = 0 then []
    else if nanos % 1000000 = 0 then '.' :: padded 3 (nanos / 1000000)
    else if nanos % 1000 = 0 then '.' :: padded 6 (nanos / 1000)
    else '.' :: padded 9 nanos
  String.ofList (t.dayAndTime ++ fraction ++ ['Z'])

/-- One digit or more, at most `width` of them. -/
def number? (width : Nat) (cs : List Char) : Option (Nat × List Char) :=
  let digits := (cs.take width).takeWhile Char.isDigit
  (natOfDigits? 10 digits).map (·, cs.drop digits.length)

/-- A number after blanks. -/
def field? (width : Nat) (cs : List Char) : Option (Nat × List Char) :=
  number? width (skipBlank cs)

/-- A year with a sign has any number of digits. -/
def year? (cs : List Char) : Option (Int × List Char) :=
  match skipBlank cs with
  | '-' :: rest => (number? rest.length rest).map fun (n, rest) => (-(n : Int), rest)
  | '+' :: rest => (number? rest.length rest).map fun (n, rest) => ((n : Int), rest)
  | rest => (number? 4 rest).map fun (n, rest) => ((n : Int), rest)

/-- A given character after blanks. -/
def mark? (c : Char) (cs : List Char) : Option (List Char) :=
  match skipBlank cs with
  | d :: rest => if c = d then some rest else none
  | [] => none

/-- The fraction of a second in nanoseconds; digits after the ninth are cut. -/
def fraction? : List Char → Option (Nat × List Char)
  | '.' :: rest => do
    let (n, after) ← number? 9 rest
    let used := rest.length - after.length
    some (n * Nat.pow 10 (9 - used), after.dropWhile Char.isDigit)
  | cs => some (0, cs)

/-- The offset from universal time in seconds: a letter Z, the name UTC, or
signed hours and minutes. -/
def offset? (cs : List Char) : Option (Int × List Char) :=
  match cs with
  | 'Z' :: rest => some (0, rest)
  | 'z' :: rest => some (0, rest)
  | a :: b :: c :: rest =>
    if [a, b, c].map Char.toLower = ['u', 't', 'c'] then some (0, rest)
    else
      let sign : Option Int := if a = '+' then some 1 else if a = '-' ∨ a = '\u2212' then some (-1) else none
      sign.bind fun sign =>
        match natOfDigits? 10 [b, c], rest.dropWhile fun c => c = ':' || isBlank c with
        | some hours, d :: e :: after =>
          (natOfDigits? 10 [d, e]).bind fun minutes =>
            if minutes < 60 then some (sign * (hours * 3600 + minutes * 60), after) else none
        | _, _ => none
  | _ => none

/-- The days that a time stamp may have: those from the year -262143 to the year
262142. -/
def isDated (days : Int) : Bool :=
  (CivilDay.mk (-262143) 1 1).toDays ≤ days && days ≤ (CivilDay.mk 262142 12 31).toDays

/-- Reads a time stamp with date, time and offset. Blanks may stand between
its parts, and a blank may stand for the letter between date and time. The day as
written and the day in universal time must both be dated. -/
def read? (text : String) : Option Instant := do
  let (year, cs) ← year? text.toList
  let (month, cs) ← (mark? '-' cs).bind (field? 2)
  let (day, cs) ← (mark? '-' cs).bind (field? 2)
  let cs ← match cs with
    | c :: rest => if c = 'T' ∨ c = 't' ∨ c = ' ' then some rest else none
    | [] => none
  let (hour, cs) ← field? 2 cs
  let (minute, cs) ← (mark? ':' cs).bind (field? 2)
  let (second, cs) ← (mark? ':' cs).bind (field? 2)
  let (nanos, cs) ← fraction? cs
  let (offset, cs) ← offset? (skipBlank cs)
  let d : CivilDay := ⟨year, month, day⟩
  if (skipBlank cs).isEmpty && d.valid && isDated d.toDays && hour < 24 && minute < 60 && second ≤ 60 &&
      -86400 < offset && offset < 86400 then
    let leap := if second = 60 then 1 else 0
    let seconds := d.toDays * 86400 + hour * 3600 + minute * 60 + (second - leap : Nat) - offset
    if isDated (seconds / 86400) then some ⟨seconds, nanos + leap * 1000000000⟩ else none
  else none

example : read? "-262143-01-01T00:00:00+00:01" = none := by decide +kernel
example : (read? "2024-1-2 3:04:60Z").map toExact = some "2024-01-02T03:04:60Z" := by decide +kernel

end Instant

end LayeredConfig
