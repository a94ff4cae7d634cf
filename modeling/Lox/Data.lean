import Lox.Decimal.Notation
import Lox.Text.Numeral
import Lox.Text.Quoted

/-!
# Plain data

What a configuration document holds: null, booleans, numbers, texts, dates, lists and mappings.
Messages about a document show the data they complain about, as far as the host can write them out.
How a text becomes data is not settled here: a reader is any function that finds data in texts.
-/

namespace Lox

structure Day where
  year : Nat
  month : Nat
  day : Nat
deriving DecidableEq, Repr, Inhabited

/-- A time of day, with the distance to universal time in seconds if it is known. -/
structure DayTime where
  hour : Nat
  minute : Nat
  second : Nat
  microsecond : Nat
  offset : Option Int
deriving DecidableEq, Repr, Inhabited

/-- A value of a document. The entries of a mapping are in the order of their keys' first occurrence. -/
inductive Data where
  | null
  | boolean (b : Bool)
  | integer (n : Int)
  | float (x : Float)
  | text (s : String)
  | date (d : Day)
  | time (d : Day) (t : DayTime)
  | list (items : List Data)
  | mapping (entries : List (Data × Data))
deriving Inhabited

namespace Data

def typeName : Data → String
  | null => "NoneType"
  | boolean _ => "bool"
  | integer _ => "int"
  | float _ => "float"
  | text _ => "str"
  | date _ => "datetime.date"
  | time _ _ => "datetime.datetime"
  | list _ => "list"
  | mapping _ => "dict"

def shortTypeName : Data → String
  | date _ => "date"
  | time _ _ => "datetime"
  | d => d.typeName

/-- A span of time in days and seconds; the seconds are never negative. -/
def durationText (seconds : Int) : String :=
  let days := seconds.fdiv 86400
  let rest := seconds.fmod 86400
  let parts := (if days = 0 then [] else ["days=" ++ toString days]) ++
    (if rest = 0 then [] else ["seconds=" ++ toString rest])
  "datetime.timedelta(" ++ (if parts.isEmpty then "0" else ", ".intercalate parts) ++ ")"

def zoneText (seconds : Int) : String :=
  if seconds = 0 then "datetime.timezone.utc"
  else "datetime.timezone(" ++ durationText seconds ++ ")"

def dayParts (d : Day) : List String := [toString d.year, toString d.month, toString d.day]

/-- The parts of a time of day; seconds and fractions are left out where nothing follows them. -/
def timeParts (t : DayTime) : List String :=
  let fine :=
    if t.microsecond ≠ 0 then [toString t.second, toString t.microsecond]
    else if t.second ≠ 0 then [toString t.second]
    else []
  let zone := (t.offset.map fun o => "tzinfo=" ++ zoneText o).toList
  [toString t.hour, toString t.minute] ++ fine ++ zone

mutual

def shown : Data → String
  | null => "None"
  | boolean b => if b then "True" else "False"
  | integer n => toString n
  | float x => Decimal.marked x
  | text s => Text.quoted s
  | date d => "datetime.date(" ++ ", ".intercalate (dayParts d) ++ ")"
  | time d t => "datetime.datetime(" ++ ", ".intercalate (dayParts d ++ timeParts t) ++ ")"
  | list items => "[" ++ ", ".intercalate (shownItems items) ++ "]"
  | mapping entries => "\x7b" ++ ", ".intercalate (shownEntries entries) ++ "\x7d"

def shownItems : List Data → List String
  | [] => []
  | d :: ds => d.shown :: shownItems ds

def shownEntries : List (Data × Data) → List String
  | [] => []
  | (k, v) :: es => (k.shown ++ ": " ++ v.shown) :: shownEntries es

end

/-! ### What the host can show -/

/-- How far the host goes in reading and writing. -/
structure Bounds where
  /-- The most digits that an integer may have in a text, if there is a limit. -/
  digits : Option Nat := some 4300
  /-- How many lists and mappings may stand in each other where data are shown. -/
  nesting : Nat := 900
deriving DecidableEq, Repr, Inhabited

/-- Why data cannot be shown. -/
inductive Obstacle where
  | integer
  | nesting
deriving DecidableEq, Repr, Inhabited

def Obstacle.message : Obstacle → String
  | integer => "Exceeds the limit for integer string conversion"
  | nesting => "maximum recursion depth exceeded while getting the repr of an object"

mutual

/-- The first thing in the data that keeps them from being shown where parts may be nested that deep. -/
def obstacleWithin (digits : Option Nat) : (levels : Nat) → Data → Option Obstacle
  | 0, _ => some .nesting
  | _ + 1, integer n =>
    if Text.withinLimit digits (Decimal.digitChars n.natAbs).length then none else some .integer
  | levels + 1, list items => obstacleInItems digits levels items
  | levels + 1, mapping entries => obstacleInEntries digits levels entries
  | _ + 1, _ => none

def obstacleInItems (digits : Option Nat) (levels : Nat) : List Data → Option Obstacle
  | [] => none
  | d :: ds => (obstacleWithin digits levels d).or (obstacleInItems digits levels ds)

def obstacleInEntries (digits : Option Nat) (levels : Nat) : List (Data × Data) → Option Obstacle
  | [] => none
  | (k, v) :: es =>
    ((obstacleWithin digits levels k).or (obstacleWithin digits levels v)).or
      (obstacleInEntries digits levels es)

end

def obstacle? (bounds : Bounds) (d : Data) : Option Obstacle :=
  obstacleWithin bounds.digits (bounds.nesting + 1) d

/-! ### Reading -/

/-- Why a text gives no data: it is not well formed, or the reader breaks down over it. -/
inductive Fault where
  | malformed
  | uncaught (kind message : String)
deriving DecidableEq, Repr, Inhabited

/-- A reader of documents. -/
abbrev Reader : Type := String → Except Fault Data

/-! ### Entries -/

def isEmpty : Data → Bool
  | null => true
  | boolean b => !b
  | integer n => n == 0
  | float x => x == 0.0
  | text s => s.isEmpty
  | date _ | time _ _ => false
  | list items => items.isEmpty
  | mapping entries => entries.isEmpty

def number? : Data → Option Float
  | boolean b => some (if b then 1.0 else 0.0)
  | integer n => some (Float.ofInt n)
  | float x => some x
  | _ => none

def sameKey : Data → Data → Bool
  | null, null => true
  | text s, text t => s == t
  | integer m, integer n => m == n
  | date d, date e => d == e
  | time d t, time e u => d == e && t == u
  | a, b =>
    match a.number?, b.number? with
    | some x, some y => x == y
    | _, _ => false

/-- Adds an entry; if the key is there already its value is replaced. -/
def putEntry (entries : List (Data × Data)) (k v : Data) : List (Data × Data) :=
  if entries.any fun e => e.1.sameKey k then
    entries.map fun e => if e.1.sameKey k then (e.1, v) else e
  else entries ++ [(k, v)]

def lookupText (name : String) : List (Data × Data) → Option Data
  | [] => none
  | (.text k, v) :: es => if k == name then some v else lookupText name es
  | _ :: es => lookupText name es

def isText (name : String) : Data → Bool
  | text s => s == name
  | _ => false

end Data

end Lox
