import Lox.Decimal.Binary

/-!
# The shortest decimal that reads back

A positive dyadic number `m · 2 ^ q` stands for the interval of reals that round to it: half a unit
of the last place to either side, a quarter below a power of two, the ends included when `m` is even.
On each decimal grid `10 ^ e` only the two neighbours of the number can be the nearest point of the
interval, so grids are tried from coarse to fine and the first one with a hit gives the fewest
digits. All arithmetic is exact.
-/

namespace Lox.Decimal

/-- The decimal number `digits · 10 ^ exponent`. -/
structure Scaled where
  digits : Nat
  exponent : Int
deriving DecidableEq, Repr

/-- The interval of reals that round to a double, in units of a quarter of its last place. -/
structure RoundingInterval where
  low : Nat
  centre : Nat
  high : Nat
  closed : Bool
deriving DecidableEq, Repr

/-- The rounding interval of `m · 2 ^ q`: the gap below a power of two is half as wide, except below
the least normal number. -/
def roundingInterval (m : Nat) (q : Int) : RoundingInterval where
  low := if m = Nat.pow 2 52 ∧ q ≠ -1074 then 4 * m - 1 else 4 * m - 2
  centre := 4 * m
  high := 4 * m + 2
  closed := m % 2 == 0

/-- The point `d · grid` lies in the interval, whose ends are counted in multiples of `unit`. -/
def RoundingInterval.holds (i : RoundingInterval) (unit grid d : Nat) : Bool :=
  if i.closed then decide (i.low * unit ≤ d * grid) && decide (d * grid ≤ i.high * unit)
  else decide (i.low * unit < d * grid) && decide (d * grid < i.high * unit)

/-- The point of one grid that lies in the interval and is nearest to its centre; of two points at
the same distance the even one. -/
def RoundingInterval.nearest? (i : RoundingInterval) (unit grid : Nat) : Option Nat :=
  let below := i.centre * unit / grid
  let above := below + 1
  match below != 0 && i.holds unit grid below, i.holds unit grid above with
  | false, false => none
  | true, false => some below
  | false, true => some above
  | true, true =>
    let down := i.centre * unit - below * grid
    let up := above * grid - i.centre * unit
    if down < up then some below
    else if up < down then some above
    else if below % 2 = 0 then some below
    else some above

def positivePower (base : Nat) (e : Int) : Nat := Nat.pow base e.toNat

/-- The first hit on the grids `10 ^ e`, `10 ^ (e - 1)`, ..., at most `count` of them. -/
def firstHit (i : RoundingInterval) (q : Int) : Nat → Int → Option Scaled
  | 0, _ => none
  | count + 1, e =>
    let unit := positivePower 2 (q - 2) * positivePower 10 (-e)
    let grid := positivePower 2 (2 - q) * positivePower 10 e
    match i.nearest? unit grid with
    | some d => some ⟨d, e⟩
    | none => firstHit i q count (e - 1)

/-- A bound on the coarsest grid that can hold a point of the interval: `log₁₀ 2 < 0.30103`. -/
def coarsestGrid (m : Nat) (q : Int) : Int :=
  (((m.log2 : Int) + q + 2) * 30103).fdiv 100000 + 1

/-- The decimal with the fewest digits that rounds to `m · 2 ^ q`, and of those the nearest.
Seventeen digits always suffice, so the search ends within the given count. -/
def shortest (m : Nat) (q : Int) : Scaled :=
  (firstHit (roundingInterval m q) q 24 (coarsestGrid m q)).getD ⟨m, q⟩

end Lox.Decimal
