/-!
# Doubles as dyadic numbers

A finite double is `± mantissa · 2 ^ exponent` with natural `mantissa`. This module takes the three
parts out of the 64 bits: one sign bit, eleven bits of biased exponent, 52 bits of fraction.
-/

namespace Lox.Decimal

/-- The parts of a double: not a number, an infinity, or a finite dyadic number. -/
inductive Binary where
  | nan
  | infinite (negative : Bool)
  | finite (negative : Bool) (mantissa : Nat) (exponent : Int)
deriving DecidableEq, Repr

namespace Binary

def ofBits (bits : UInt64) : Binary :=
  let n : Nat := bits.toNat
  let negative := decide (Nat.pow 2 63 ≤ n)
  let biased : Nat := n / Nat.pow 2 52 % Nat.pow 2 11
  let fraction : Nat := n % Nat.pow 2 52
  if biased = 2047 then
    if fraction = 0 then .infinite negative else .nan
  else if biased = 0 then
    .finite negative fraction (-1074)
  else
    .finite negative (Nat.pow 2 52 + fraction) (Int.ofNat biased - 1075)

def ofFloat (x : Float) : Binary := ofBits x.toBits

end Binary

/-- The integer that a finite double equals, if it has no fractional part. -/
def integerValue? (x : Float) : Option Int :=
  match Binary.ofFloat x with
  | .nan | .infinite _ => none
  | .finite negative mantissa exponent =>
    let magnitude? : Option Nat :=
      if 0 ≤ exponent then some (mantissa * Nat.pow 2 exponent.toNat)
      else
        let divisor := Nat.pow 2 (-exponent).toNat
        if mantissa % divisor = 0 then some (mantissa / divisor) else none
    magnitude?.map fun n => if negative then -(n : Int) else n

end Lox.Decimal
