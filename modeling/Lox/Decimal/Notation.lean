import Lox.Decimal.Reader

/-!
# Decimal notations of doubles

Three ways to write a double down. The marked notation uses the fewest digits that read back and shows
that the value is a double. Printed numbers are made of it: its decimal is written out without an
exponent, and zeros that say nothing are taken away. Integral literals in a tree are written in full.
-/

namespace Lox.Decimal

def digitChars (n : Nat) : List Char := Nat.toDigits 10 n

/-- How a notation writes what is not settled by the digits. -/
structure Style where
  /-- Decimal exponents (of the first digit) that are written without exponent part. -/
  positional : Int → Bool
  /-- What follows an integral value written without exponent part. -/
  integralTail : List Char
  nan : String
deriving Inhabited

/-- An exponent from `1e+16` up and from `1e-05` down, and a point where no exponent is written. -/
def Style.marked : Style where
  positional e := decide (-4 ≤ e) && decide (e < 16)
  integralTail := ['.', '0']
  nan := "nan"

/-- Digits with the decimal point behind the first `point` of them; zeros fill the gap where the
point lies outside the digits. -/
def positionalChars (tail : List Char) (digits : List Char) (point : Int) : List Char :=
  if point ≤ 0 then
    '0' :: '.' :: (List.replicate (-point).toNat '0' ++ digits)
  else if (digits.length : Int) ≤ point then
    digits ++ List.replicate (point.toNat - digits.length) '0' ++ tail
  else
    digits.take point.toNat ++ '.' :: digits.drop point.toNat

def exponentChars (digits : List Char) (exponent : Int) : List Char :=
  let lead := digits.take 1
  let fraction := digits.drop 1
  let mantissa := if fraction.isEmpty then lead else lead ++ '.' :: fraction
  let magnitude := digitChars exponent.natAbs
  let sign := if exponent < 0 then '-' else '+'
  mantissa ++ 'e' :: sign :: (if magnitude.length < 2 then '0' :: magnitude else magnitude)

/-- The characters without those at the end that are the given one. -/
def dropBack (last : Char) (cs : List Char) : List Char := (cs.reverse.dropWhile (· == last)).reverse

/-- The digits of a natural number without the zeros at its end. -/
def significantDigits (n : Nat) : List Char := dropBack '0' (digitChars n)

def Scaled.chars (style : Style) (d : Scaled) : List Char :=
  let point : Int := (digitChars d.digits).length + d.exponent
  let digits := significantDigits d.digits
  if style.positional (point - 1) then positionalChars style.integralTail digits point
  else exponentChars digits (point - 1)

def Style.write (style : Style) (x : Float) : String :=
  match Binary.ofFloat x with
  | .nan => style.nan
  | .infinite negative => if negative then "-inf" else "inf"
  | .finite negative mantissa exponent =>
    let magnitude :=
      if mantissa = 0 then '0' :: style.integralTail
      else (shortest mantissa exponent).chars style
    String.ofList (if negative then '-' :: magnitude else magnitude)

/-- Numbers that show their kind. -/
def marked (x : Float) : String := Style.marked.write x

/-! ### Printed numbers -/

/-- A decimal with its digits at their places, without an exponent. -/
def Scaled.fixedChars (d : Scaled) : List Char :=
  positionalChars [] (digitChars d.digits) ((digitChars d.digits).length + d.exponent)

/-- Where there is a point, the zeros at the end go, and the point too if it is at the end then. -/
def withoutIdleZeros (cs : List Char) : List Char :=
  if cs.contains '.' then dropBack '.' (dropBack '0' cs) else cs

/-- A number as it is printed: the decimal of its marked notation, without an exponent. -/
def plain (x : Float) : String :=
  match Binary.ofFloat x with
  | .nan => "NaN"
  | .infinite negative => if negative then "-inf" else "inf"
  | .finite _ _ _ =>
    let (negative, body) := splitSign (marked x).toList
    let fixed := ((scaled? body).map Scaled.fixedChars).getD []
    String.ofList (withoutIdleZeros (if negative then '-' :: fixed else fixed))

/-! ### Numbers in trees -/

/-- A double as the tree printer shows it: an integral value in full, any other with its shortest
digits. -/
def exact (x : Float) : String :=
  match integerValue? x with
  | some n => toString n
  | none => marked x

end Lox.Decimal
