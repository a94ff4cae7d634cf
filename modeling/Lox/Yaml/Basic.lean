import Lox.Data
import Lox.Text.Newlines

/-!
# The characters of a YAML text

Indentation decides how a YAML text is read, so every character carries the place it stands at.
Lines, columns and offsets count from zero.
-/

namespace Lox.Yaml

abbrev Fault : Type := Data.Fault

/-- A number or a moment that does not exist. -/
def invalidValue (message : String) : Fault := .uncaught "ValueError" message

/-- A number without any digit. -/
def noDigits : Fault := .uncaught "IndexError" "string index out of range"

/-! ### Places -/

/-- A character of a text and where it stands. -/
structure Glyph where
  char : Char
  line : Nat
  column : Nat
  offset : Nat
deriving DecidableEq, Repr, Inhabited

def isBreak (c : Char) : Bool :=
  c == '\n' || c == '\u0085' || c == '\u2028' || c == '\u2029'

def glyphsFrom (line column offset : Nat) : List Char → List Glyph
  | [] => []
  | c :: cs =>
    ⟨c, line, column, offset⟩ ::
      if isBreak c then glyphsFrom (line + 1) 0 (offset + 1) cs
      else if c == '\uFEFF' then glyphsFrom line column (offset + 1) cs
      else glyphsFrom line (column + 1) (offset + 1) cs

/-- The characters of a text, without the mark of byte order that it may begin with. -/
def glyphs (text : String) : List Glyph :=
  match glyphsFrom 0 0 0 (Text.unifyNewlines text.toList) with
  | [] => []
  | g :: gs => if g.char == '\uFEFF' then gs else g :: gs

/-- The character may stand in a text: control characters other than tabs and line ends may not. -/
def mayOccur (c : Char) : Bool :=
  let n := c.toNat
  n == 0x09 || n == 0x0A || n == 0x0D || n == 0x85 || (decide (0x20 ≤ n) && decide (n ≤ 0x7E)) ||
    (decide (0xA0 ≤ n) && n != 0xFFFE && n != 0xFFFF)

/-! ### Looking ahead -/

def next? (gs : List Glyph) : Option Char := gs.head?.map Glyph.char

def nextIs (c : Char) (gs : List Glyph) : Bool := next? gs == some c

def isSpacing (c : Char) : Bool := c == ' ' || c == '\t' || isBreak c

def spacingNext (gs : List Glyph) : Bool :=
  match next? gs with
  | none => true
  | some c => isSpacing c

def lineEndNext (gs : List Glyph) : Bool :=
  match next? gs with
  | none => true
  | some c => isBreak c

def spaceOrEndNext (gs : List Glyph) : Bool := nextIs ' ' gs || lineEndNext gs

def markNext (c : Char) (gs : List Glyph) : Bool :=
  (gs.take 3).map Glyph.char == [c, c, c] && spacingNext (gs.drop 3)

def anyMarkNext (gs : List Glyph) : Bool := markNext '-' gs || markNext '.' gs

/-! ### Skipping -/

def skipSpaces (gs : List Glyph) : List Glyph := gs.dropWhile fun g => g.char == ' '

def skipLine (gs : List Glyph) : List Glyph := gs.dropWhile fun g => !isBreak g.char

def skipComment (gs : List Glyph) : List Glyph := if nextIs '#' gs then skipLine gs else gs

/-- Skips the rest of a line on which only spaces and a comment may stand. -/
def skipBlankLine (gs : List Glyph) : Except Fault (List Glyph) :=
  match skipComment (skipSpaces gs) with
  | [] => .ok []
  | g :: rest => if isBreak g.char then .ok rest else .error .malformed

/-! ### Line ends in scalars -/

/-- What the end of a line means in a scalar: the separators of lines and paragraphs stand for
themselves, all others for a line feed. -/
def breakChar (c : Char) : Char := if c == '\u2028' || c == '\u2029' then c else '\n'

/-- Line ends in a scalar that is written over several lines: a line feed alone becomes a space, and
before others it is left out. -/
def foldBreaks (first : Char) (more : List Char) : List Char :=
  if first ≠ '\n' then first :: more
  else if more.isEmpty then [' ']
  else more

def hexValue? (c : Char) : Option Nat :=
  if c.isDigit then some (c.toNat - '0'.toNat)
  else if 'a' ≤ c ∧ c ≤ 'f' then some (c.toNat - 'a'.toNat + 10)
  else if 'A' ≤ c ∧ c ≤ 'F' then some (c.toNat - 'A'.toNat + 10)
  else none

def hexNumber? (cs : List Char) : Option Nat :=
  cs.foldl (fun n c => n.bind fun n => (hexValue? c).map fun d => 16 * n + d) (some 0)

end Lox.Yaml
