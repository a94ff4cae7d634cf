/-!
# The lines of a source text

A line ends at a line feed, a carriage return or both together, at a vertical tab, a form feed, an
information separator other than the last, the next-line character, or a Unicode line or paragraph
separator. A break at the end of the text begins no further line.
-/

namespace Lox.Source

def isLineBreak (c : Char) : Bool :=
  c == '\n' || c == '\r' || c == '\x0B' || c == '\x0C' || c == '\x1C' || c == '\x1D' ||
    c == '\x1E' || c == '\u0085' || c == '\u2028' || c == '\u2029'

/-- The lines of a text, `current` holding the characters of the unfinished line, last one first. A
carriage return before a line feed belongs to the break that the line feed makes. -/
def linesFrom (current : List Char) : List Char → List String
  | [] => if current.isEmpty then [] else [String.ofList current.reverse]
  | c :: rest =>
    if c == '\r' && rest.head? == some '\n' then linesFrom current rest
    else if isLineBreak c then String.ofList current.reverse :: linesFrom [] rest
    else linesFrom (c :: current) rest

def lines (source : String) : List String := linesFrom [] source.toList

theorem linesFrom_of_no_break (current cs : List Char) (h : ∀ c ∈ cs, isLineBreak c = false)
    (hne : current ≠ [] ∨ cs ≠ []) :
    linesFrom current cs = [String.ofList (current.reverse ++ cs)] := by
  induction cs generalizing current with
  | nil =>
    have hc : current ≠ [] := hne.resolve_right (fun k => k rfl)
    simp [linesFrom, hc]
  | cons c cs ih =>
    have hb : isLineBreak c = false := h c List.mem_cons_self
    have hr : c ≠ '\r' := fun e => by
      rw [e] at hb
      exact absurd hb (by decide)
    have ih' := ih (c :: current) (fun d hd => h d (List.mem_cons_of_mem _ hd)) (Or.inl (by simp))
    simp [linesFrom, hb, hr, ih']

def line? (source : String) : Nat → Option String
  | 0 => none
  | n + 1 => (lines source)[n]?

end Lox.Source
