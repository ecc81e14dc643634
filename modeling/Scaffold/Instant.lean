import Scaffold.Text.Blank

/-!
# Instants

An instant is a date and a time of day in UTC, to the nanosecond. It is written
as `2024-01-02T03:04:05Z`, with three, six or nine digits of a fraction where
they are needed.

Reading accepts any offset of less than a day, which is taken off, and allows
white space between the parts and a space in the place of the `T`. A second 60 is
a leap second.
-/

namespace Scaffold

/-- Whether a year of the Gregorian calendar has a 29th of February. -/
def isLeapYear (year : Int) : Bool := year % 4 = 0 && (year % 100 ≠ 0 || year % 400 = 0)

/-- How many days a month has. -/
def daysInMonth (year : Int) (month : Nat) : Nat :=
  if month = 2 then (if isLeapYear year then 29 else 28)
  else if month = 4 ∨ month = 6 ∨ month = 9 ∨ month = 11 then 30
  else 31

/-- A day of the Gregorian calendar. -/
structure Date where
  year : Int
  month : Nat
  day : Nat
  deriving DecidableEq, Repr

namespace Date

/-- Whether the day exists. -/
def isValid (d : Date) : Bool :=
  1 ≤ d.month && d.month ≤ 12 && 1 ≤ d.day && d.day ≤ daysInMonth d.year d.month

/-- The day after. -/
def next (d : Date) : Date :=
  if d.day < daysInMonth d.year d.month then { d with day := d.day + 1 }
  else if d.month < 12 then ⟨d.year, d.month + 1, 1⟩
  else ⟨d.year + 1, 1, 1⟩

/-- The day before. -/
def previous (d : Date) : Date :=
  if 1 < d.day then { d with day := d.day - 1 }
  else if 1 < d.month then ⟨d.year, d.month - 1, daysInMonth d.year (d.month - 1)⟩
  else ⟨d.year - 1, 12, 31⟩

end Date

/-- A date and a time of day in UTC. -/
structure Instant where
  date : Date
  hour : Nat
  minute : Nat
  /-- The second, 60 being a leap second. -/
  second : Nat
  nanos : Nat
  deriving DecidableEq, Repr

namespace Instant

/-- The first instant of the clock. -/
def epoch : Instant := ⟨⟨1970, 1, 1⟩, 0, 0, 0, 0⟩

/-- Whether the instant exists, and is no leap second. -/
def isRegular (i : Instant) : Bool :=
  i.date.isValid && i.hour < 24 && i.minute < 60 && i.second < 60 && i.nanos < 1000000000

/-! ## Writing -/

/-- A year in four digits, with a sign if it needs more or is negative. -/
def yearText (year : Int) : Text :=
  if 0 ≤ year ∧ year ≤ 9999 then Text.ofNatPadded 4 year.toNat
  else (if year < 0 then '-' else '+') :: Text.ofNatPadded 4 year.natAbs

/-- The date, with dashes. -/
def dateText (d : Date) : Text :=
  yearText d.year ++ '-' :: Text.ofNatPadded 2 d.month ++ '-' :: Text.ofNatPadded 2 d.day

/-- The time of day without the fraction, with colons. -/
def timeText (i : Instant) : Text :=
  Text.ofNatPadded 2 i.hour ++ ':' :: Text.ofNatPadded 2 i.minute
    ++ ':' :: Text.ofNatPadded 2 i.second

/-- The fraction of the second, as long as it needs to be. -/
def fractionText (nanos : Nat) : Text :=
  if nanos = 0 then []
  else if nanos % 1000000 = 0 then '.' :: Text.ofNatPadded 3 (nanos / 1000000)
  else if nanos % 1000 = 0 then '.' :: Text.ofNatPadded 6 (nanos / 1000)
  else '.' :: Text.ofNatPadded 9 nanos

/-- The instant as it is stored. -/
def render (i : Instant) : Text :=
  dateText i.date ++ 'T' :: timeText i ++ fractionText i.nanos ++ ['Z']

/-- The instant as it is shown, without the fraction. -/
def display (i : Instant) : Text := dateText i.date ++ ' ' :: timeText i ++ " UTC".toList

/-! ## Reading -/

/-- The text without the white space in front of it. -/
def skipBlank (t : Text) : Text := t.dropWhile isBlank

/-- The number that decimal digits stand for. -/
def digitsValue (digits : Text) : Nat :=
  digits.foldl (fun n c => n * 10 + (c.toNat - '0'.toNat)) 0

/-- Between one and `width` digits, white space in front of them left out. -/
def readNumber (width : Nat) (t : Text) : Option (Nat × Text) :=
  let t := skipBlank t
  let digits := (t.take width).takeWhile Char.isDigit
  if digits = [] then none else some (digitsValue digits, t.drop digits.length)

/-- A year: four digits, or any number of them behind a sign. -/
def readYear (t : Text) : Option (Int × Text) :=
  match skipBlank t with
  | '-' :: rest => if rest.head?.any Char.isDigit then
      (readNumber rest.length rest).map fun (n, rest) => (-(n : Int), rest) else none
  | '+' :: rest => if rest.head?.any Char.isDigit then
      (readNumber rest.length rest).map fun (n, rest) => ((n : Int), rest) else none
  | t => (readNumber 4 t).map fun (n, rest) => ((n : Int), rest)

/-- A separator, white space in front of it left out. -/
def readMark (mark : Char) (t : Text) : Option Text :=
  match skipBlank t with
  | c :: rest => if c = mark then some rest else none
  | [] => none

/-- The fraction of a second, of which nine digits count. -/
def readFraction (t : Text) : Option (Nat × Text) :=
  match t with
  | '.' :: rest =>
    let digits := rest.takeWhile Char.isDigit
    if digits = [] then none
    else
      let counted := digits.take 9
      some (digitsValue counted * Nat.pow 10 (9 - counted.length), rest.drop digits.length)
  | _ => some (0, t)

/-- An offset from UTC in minutes. -/
def readOffset (t : Text) : Option (Int × Text) :=
  match t with
  | [] => none
  | c :: rest =>
    if c = 'Z' ∨ c = 'z' then some (0, rest)
    else if (t.take 3).map Char.toUpper = ['U', 'T', 'C'] then some (0, t.drop 3)
    else if c = '+' ∨ c = '-' ∨ c = '−' then
      match rest with
      | h₁ :: h₂ :: rest =>
        if h₁.isDigit ∧ h₂.isDigit then
          match rest.dropWhile fun c => c = ':' || isBlank c with
          | m₁ :: m₂ :: rest =>
            if m₁.isDigit ∧ m₁ < '6' ∧ m₂.isDigit then
              let minutes : Int := digitsValue [h₁, h₂] * 60 + digitsValue [m₁, m₂]
              some (if c = '+' then minutes else -minutes, rest)
            else none
          | _ => none
        else none
      | _ => none
    else none

/-- Move an instant by less than a day. -/
def addMinutes (i : Instant) (minutes : Int) : Instant :=
  let total : Int := i.hour * 60 + i.minute + minutes
  let (date, ofDay) :=
    if total < 0 then (i.date.previous, total + 1440)
    else if total ≥ 1440 then (i.date.next, total - 1440)
    else (i.date, total)
  { i with date, hour := ofDay.toNat / 60, minute := ofDay.toNat % 60 }

/-- Whether the calendar reaches as far as the year of the date. -/
def isCalendarDate (d : Date) : Bool := -262143 ≤ d.year && d.year ≤ 262142

/-- Read an instant. The calendar has to reach it, both as it is written and in UTC. -/
def parse? (t : Text) : Option Instant := do
  let (year, t) ← readYear t
  let t ← readMark '-' t
  let (month, t) ← readNumber 2 t
  let t ← readMark '-' t
  let (day, t) ← readNumber 2 t
  let t ← match t with
    | c :: rest => if c = 'T' ∨ c = 't' ∨ c = ' ' then some rest else none
    | [] => none
  let (hour, t) ← readNumber 2 t
  let t ← readMark ':' t
  let (minute, t) ← readNumber 2 t
  let t ← readMark ':' t
  let (second, t) ← readNumber 2 t
  let (nanos, t) ← readFraction t
  let (offset, t) ← readOffset (skipBlank t)
  let date : Date := ⟨year, month, day⟩
  let instant := addMinutes ⟨date, hour, minute, second, nanos⟩ (-offset)
  if skipBlank t = [] ∧ date.isValid ∧ isCalendarDate date ∧ hour < 24 ∧ minute < 60
      ∧ second ≤ 60 ∧ offset.natAbs < 1440 ∧ isCalendarDate instant.date then
    some instant
  else none

end Instant

end Scaffold
