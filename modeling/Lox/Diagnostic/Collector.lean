import Lox.Diagnostic.Basic

/-!
# Collecting diagnostics

The diagnostics of one pass, in the order they were added, with a limit on the errors after which
the pass is asked to stop. Adding never drops anything; the limit is only reported.
-/

namespace Lox

/-- The diagnostics of a pass and its error limit. -/
structure Collector where
  limit : Nat := 20
  entries : List Diagnostic := []
deriving Repr, Inhabited

namespace Collector

def add (c : Collector) (d : Diagnostic) : Collector :=
  { c with entries := c.entries ++ [d] }

def errorCount (c : Collector) : Nat := c.entries.countP Diagnostic.isError

def warningCount (c : Collector) : Nat := c.entries.countP Diagnostic.isWarning

def hasErrors (c : Collector) : Bool := decide (0 < c.errorCount)

def hasWarnings (c : Collector) : Bool := decide (0 < c.warningCount)

def isFull (c : Collector) : Bool := decide (c.limit ≤ c.errorCount)

theorem errorCount_add (c : Collector) (d : Diagnostic) :
    (c.add d).errorCount = c.errorCount + if d.isError then 1 else 0 := by
  simp only [errorCount, add, List.countP_append, List.countP_cons, List.countP_nil, Nat.zero_add]

theorem isFull_add (c : Collector) (d : Diagnostic) (h : c.isFull = true) :
    (c.add d).isFull = true := by
  simp only [isFull, decide_eq_true_eq] at h ⊢
  rw [errorCount_add]
  exact Nat.le_trans h (Nat.le_add_right ..)

end Collector

end Lox
