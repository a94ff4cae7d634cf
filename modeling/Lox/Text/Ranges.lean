/-!
# Sets of characters as tables of code point ranges

A property of characters is kept as a table of closed ranges. Membership is a search of the table,
so a statement about one character is a finite check.
-/

namespace Lox.Text

def inRanges (table : Array (Nat × Nat)) (c : Char) : Bool :=
  table.any fun r => decide (r.1 ≤ c.toNat) && decide (c.toNat ≤ r.2)

end Lox.Text
