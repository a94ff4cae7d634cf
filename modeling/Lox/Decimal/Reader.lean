import Lox.Decimal.Shortest
import Lox.Text.Blank
import Lox.Text.Numeral

/-!
# Reading decimal numerals

A numeral is an optional sign before either one of the words `inf`, `infinity` and `nan` in any case,
or digits with an optional point before, among or behind them and an optional exponent. Two digits
may have one underscore between them, and the decimal digits of every script are digits. The value
is the nearest double; what is too large is infinite.
-/

namespace Lox.Decimal

/-! ### The value of digits -/

def infinity : Float := 1.0 / 0.0

/-- The nearest double to `digits · 10 ^ exponent`. Beyond the range of doubles the power of ten is
not formed: from `10 ^ 310` on all is infinite, below `10 ^ -330` all is zero. -/
def nearestFloat (digits : Nat) (exponent : Int) : Float :=
  let magnitude : Int := (Nat.toDigits 10 digits).length + exponent
  if digits = 0 then 0.0
  else if 310 < magnitude then infinity
  else if magnitude < -330 then 0.0
  else Float.ofScientific digits (decide (exponent < 0)) exponent.natAbs

def natOfDigits (ds : List Char) : Nat :=
  ds.foldl (fun n d => 10 * n + (d.toNat - '0'.toNat)) 0

/-- The value of digits with at most one point among them, as programs write numbers. -/
def ofLexeme (cs : List Char) : Float :=
  let whole := cs.takeWhile Char.isDigit
  let fraction := (cs.dropWhile Char.isDigit).drop 1
  nearestFloat (natOfDigits (whole ++ fraction)) (-(fraction.length : Int))

/-! ### Spelling variants of digits -/

def asciiDigit (c : Char) : Char :=
  match Text.digitValue? c with
  | some d => Char.ofNat ('0'.toNat + d)
  | none => c

/-- The text without its underscores, each of which has to stand between two digits; `behind` says
whether a digit came just before. -/
def joinDigits : (behind : Bool) → List Char → Option (List Char)
  | _, [] => some []
  | behind, c :: cs =>
    if c = '_' then
      if behind && (cs.head?.map Char.isDigit).getD false then joinDigits false cs else none
    else
      (joinDigits c.isDigit cs).map (c :: ·)

theorem joinDigits_of_not_mem (cs : List Char) (h : '_' ∉ cs) (behind : Bool) :
    joinDigits behind cs = some cs := by
  induction cs generalizing behind with
  | nil => rfl
  | cons c cs ih =>
    have hc : c ≠ '_' := fun e => h (e ▸ List.mem_cons_self)
    have hcs : '_' ∉ cs := fun m => h (List.mem_cons_of_mem _ m)
    simp [joinDigits, hc, ih hcs]

/-! ### Numerals -/

/-- A sign at the front of a text: whether it is a minus, and the rest. -/
def splitSign : List Char → Bool × List Char
  | '-' :: cs => (true, cs)
  | '+' :: cs => (false, cs)
  | cs => (false, cs)

def allDigits? (cs : List Char) : Option Nat :=
  if !cs.isEmpty && cs.all Char.isDigit then some (natOfDigits cs) else none

/-- The exponent part at the end of a numeral; nothing means zero. -/
def exponentPart? : List Char → Option Int
  | [] => some 0
  | c :: cs =>
    if c = 'e' ∨ c = 'E' then
      let (negative, digits) := splitSign cs
      (allDigits? digits).map fun n => if negative then -(n : Int) else n
    else none

/-- The digits of an unsigned numeral without its point, and the power of ten they count. -/
def scaled? (cs : List Char) : Option Scaled :=
  let whole := cs.takeWhile Char.isDigit
  let afterWhole := cs.dropWhile Char.isDigit
  let (fraction, rest) :=
    match afterWhole with
    | '.' :: r => (r.takeWhile Char.isDigit, r.dropWhile Char.isDigit)
    | r => ([], r)
  if whole.isEmpty && fraction.isEmpty then none
  else (exponentPart? rest).map fun e => ⟨natOfDigits (whole ++ fraction), e - fraction.length⟩

def unsigned? (cs : List Char) : Option Float :=
  let word := String.ofList (cs.map Char.toLower)
  if word = "inf" ∨ word = "infinity" then some infinity
  else if word = "nan" then some (0.0 / 0.0)
  else (scaled? cs).map fun d => nearestFloat d.digits d.exponent

def float? (text : String) : Option Float := do
  let cs ← joinDigits false ((Text.trimChars text.toList).map asciiDigit)
  let (negative, body) := splitSign cs
  let x ← unsigned? body
  return if negative then -x else x

/-- A blank that may stand around an integer: any but the information separators. -/
def isIntegerBlank (c : Char) : Bool :=
  Text.isBlank c && !(decide (0x1C ≤ c.toNat) && decide (c.toNat ≤ 0x1F))

/-- The characters of a text without the blanks that may stand around an integer. -/
def trimInteger (cs : List Char) : List Char :=
  ((cs.dropWhile isIntegerBlank).reverse.dropWhile isIntegerBlank).reverse

/-- The integer that a text denotes: an optional sign and digits, not more than the limit, with
underscores between two digits and blanks around all allowed. -/
def integer? (limit : Option Nat) (text : String) : Option Int := do
  let cs ← joinDigits false ((trimInteger text.toList).map asciiDigit)
  let (negative, digits) := splitSign cs
  let n ← allDigits? digits
  if Text.withinLimit limit digits.length then return if negative then -(n : Int) else n else none

end Lox.Decimal
