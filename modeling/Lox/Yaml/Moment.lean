import Lox.Data
import Lox.Yaml.Basic

/-!
# Dates and times

A date is year, month and day between dashes. A time behind it has hours, minutes and seconds between
colons, then maybe a fraction, then maybe the distance to universal time. What has this form need not
be a moment: months, days and times are checked against the calendar.
-/

namespace Lox.Yaml

/-! ### The form -/

/-- The parts of a moment as they are written. -/
structure WrittenTime where
  hour : Nat
  minute : Nat
  second : Nat
  microsecond : Nat
  offset : Option Int
deriving DecidableEq, Repr

structure WrittenMoment where
  day : Day
  time : Option WrittenTime
  /-- Month and day have two digits each. -/
  isPadded : Bool
deriving DecidableEq, Repr

/-- The number of at least `least` and at most `most` digits at the front of a text. -/
def digits? (least most : Nat) (cs : List Char) : Option (Nat × List Char) :=
  let ds := (cs.take most).takeWhile Char.isDigit
  if ds.length < least then none
  else some (ds.foldl (fun n d => 10 * n + (d.toNat - '0'.toNat)) 0, cs.drop ds.length)

def behind? (c : Char) : List Char → Option (List Char)
  | [] => none
  | d :: ds => if d = c then some ds else none

def writtenDay? (cs : List Char) : Option (Day × List Char) := do
  let (year, cs) ← digits? 4 4 cs
  let (month, cs) ← digits? 1 2 (← behind? '-' cs)
  let (day, cs) ← digits? 1 2 (← behind? '-' cs)
  return (⟨year, month, day⟩, cs)

/-- The fraction at the front of a text in millionths; further digits count for nothing. -/
def fraction (cs : List Char) : Nat × List Char :=
  match cs with
  | '.' :: cs =>
    let ds := cs.takeWhile Char.isDigit
    let six := (ds ++ List.replicate 6 '0').take 6
    (six.foldl (fun n d => 10 * n + (d.toNat - '0'.toNat)) 0, cs.drop ds.length)
  | cs => (0, cs)

def isBlank (c : Char) : Bool := c == ' ' || c == '\t'

/-- The distance to universal time in seconds, which is the whole text; nothing means unknown. -/
def offset? (cs : List Char) : Option (Option Int) :=
  if cs.isEmpty then some none
  else
    match cs.dropWhile isBlank with
    | ['Z'] => some (some 0)
    | sign :: cs =>
      if sign = '+' ∨ sign = '-' then do
        let (hours, cs) ← digits? 1 2 cs
        let minutes ←
          if cs.isEmpty then some 0
          else do
            let (minutes, cs) ← digits? 2 2 (← behind? ':' cs)
            if cs.isEmpty then some minutes else none
        let seconds : Int := hours * 3600 + minutes * 60
        return some (if sign = '-' then -seconds else seconds)
      else none
    | [] => none

/-- What separates a date from a time: the letter T or blanks. -/
def timeMark? : List Char → Option (List Char)
  | [] => none
  | c :: cs =>
    if c = 'T' ∨ c = 't' then some cs
    else if isBlank c then some (cs.dropWhile isBlank)
    else none

def writtenTime? (cs : List Char) : Option WrittenTime := do
  let (hour, cs) ← digits? 1 2 (← timeMark? cs)
  let (minute, cs) ← digits? 2 2 (← behind? ':' cs)
  let (second, cs) ← digits? 2 2 (← behind? ':' cs)
  let (microsecond, cs) := fraction cs
  return ⟨hour, minute, second, microsecond, ← offset? cs⟩

def writtenMoment? (cs : List Char) : Option WrittenMoment := do
  let (day, rest) ← writtenDay? cs
  if rest.isEmpty then return ⟨day, none, cs.length == 10⟩
  else return ⟨day, some (← writtenTime? rest), false⟩

/-! ### The calendar -/

def isLeapYear (year : Nat) : Bool :=
  year % 4 == 0 && (year % 100 != 0 || year % 400 == 0)

def daysIn (year month : Nat) : Nat :=
  if month = 2 then if isLeapYear year then 29 else 28
  else if month = 4 ∨ month = 6 ∨ month = 9 ∨ month = 11 then 30
  else 31

def checkDay (d : Day) : Except Fault Unit :=
  if d.year = 0 then .error (invalidValue "year 0 is out of range")
  else if d.month = 0 ∨ 12 < d.month then .error (invalidValue "month must be in 1..12")
  else if d.day = 0 ∨ daysIn d.year d.month < d.day then
    .error (invalidValue "day is out of range for month")
  else .ok ()

def checkTime (t : WrittenTime) : Except Fault Unit :=
  if 23 < t.hour then .error (invalidValue "hour must be in 0..23")
  else if 59 < t.minute then .error (invalidValue "minute must be in 0..59")
  else if 59 < t.second then .error (invalidValue "second must be in 0..59")
  else .ok ()

def checkOffset (offset : Option Int) : Except Fault Unit :=
  match offset with
  | none => .ok ()
  | some seconds =>
    if seconds.natAbs < 86400 then .ok ()
    else
      .error (invalidValue
        ("offset must be a timedelta strictly between -timedelta(hours=24) and " ++
          "timedelta(hours=24), not " ++ Data.durationText seconds ++ "."))

def WrittenMoment.toData (m : WrittenMoment) : Except Fault Data :=
  match m.time with
  | none => do
    checkDay m.day
    return .date m.day
  | some t => do
    checkOffset t.offset
    checkDay m.day
    checkTime t
    return .time m.day ⟨t.hour, t.minute, t.second, t.microsecond, t.offset⟩

end Lox.Yaml
