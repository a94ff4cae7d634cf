import Lox.Yaml.Basic

/-!
# Scalars that may run over several lines

A plain scalar ends where something else must begin; a quoted one at its closing quote. Both may be
broken over lines, and the line ends inside are folded. Each reader gives the text of the scalar and
the characters behind it; `fuel` bounds the recursion.
-/

namespace Lox.Yaml

/-! ### Plain scalars -/

def flowIndicators : List Char := [',', '?', '[', ']', '{', '}']

def flowValueEnds : List Char := [',', '[', ']', '{', '}']

def endsPlain (inFlow : Bool) (c : Char) (ahead : List Glyph) : Bool :=
  isSpacing c ||
    (c == ':' && (spacingNext ahead ||
      (inFlow && ((next? ahead).map flowValueEnds.contains).getD false))) ||
    (inFlow && flowIndicators.contains c)

def plainRun (inFlow : Bool) : List Glyph → List Char × List Glyph
  | [] => ([], [])
  | g :: gs =>
    if endsPlain inFlow g.char gs then ([], g :: gs)
    else
      let (cs, rest) := plainRun inFlow gs
      (g.char :: cs, rest)

/-- The further line ends among the spaces at the front of a text, and what is behind them; nothing
if a line with a document mark begins there. -/
def laterBreaks : List Glyph → Option (List Char) × List Glyph
  | [] => (some [], [])
  | g :: gs =>
    if g.char == ' ' then laterBreaks gs
    else if isBreak g.char then
      if anyMarkNext gs then (none, gs)
      else
        let (cs, rest) := laterBreaks gs
        (cs.map (breakChar g.char :: ·), rest)
    else (some [], g :: gs)

/-- What stands between two stretches of a plain scalar. -/
structure Gap where
  /-- The characters that it means; none if the scalar cannot go on. -/
  chars : List Char
  /-- It goes over the end of a line. -/
  brokenLine : Bool
  rest : List Glyph
deriving Repr

/-- The gap at the front of a text: spaces, or line ends with spaces around them. -/
def gap (gs : List Glyph) : Gap :=
  let spaces := gs.takeWhile fun g => g.char == ' '
  match skipSpaces gs with
  | [] => ⟨spaces.map Glyph.char, false, []⟩
  | g :: rest =>
    if !isBreak g.char then ⟨spaces.map Glyph.char, false, g :: rest⟩
    else if anyMarkNext rest then ⟨[], true, rest⟩
    else
      match laterBreaks rest with
      | (none, rest) => ⟨[], true, rest⟩
      | (some more, rest) => ⟨foldBreaks (breakChar g.char) more, true, rest⟩

/-- What a plain scalar gives: its text, whether a line end was read behind its last character, and
the rest. -/
structure PlainScalar where
  text : List Char
  brokenLine : Bool
  rest : List Glyph
deriving Repr

def isDedented (indent : Nat) : List Glyph → Bool
  | [] => true
  | g :: _ => decide (g.column < indent)

/-- A plain scalar, of whose lines all but the first have to be indented outside flow collections;
`before` is the gap in front. -/
def plainFrom (inFlow : Bool) (indent : Nat) : (fuel : Nat) → (before : Gap) → PlainScalar
  | 0, before => ⟨[], before.brokenLine, before.rest⟩
  | fuel + 1, before =>
    match plainRun inFlow before.rest with
    | ([], rest) => ⟨[], before.brokenLine, rest⟩
    | (run, rest) =>
      let behind := gap rest
      if behind.chars.isEmpty || nextIs '#' behind.rest ||
          (!inFlow && isDedented indent behind.rest) then
        ⟨before.chars ++ run, behind.brokenLine, behind.rest⟩
      else
        let tail := plainFrom inFlow indent fuel behind
        { tail with text := before.chars ++ run ++ tail.text }

def plainScalar (inFlow : Bool) (indent : Nat) (gs : List Glyph) : PlainScalar :=
  plainFrom inFlow indent gs.length ⟨[], false, gs⟩

/-! ### Quoted scalars -/

def escapedChar? : Char → Option Char
  | '0' => some '\x00'
  | 'a' => some '\x07'
  | 'b' => some '\x08'
  | 't' => some '\t'
  | '\t' => some '\t'
  | 'n' => some '\n'
  | 'v' => some '\x0B'
  | 'f' => some '\x0C'
  | 'r' => some '\r'
  | 'e' => some '\x1B'
  | ' ' => some ' '
  | '"' => some '"'
  | '\\' => some '\\'
  | '/' => some '/'
  | 'N' => some '\u0085'
  | '_' => some '\u00A0'
  | 'L' => some '\u2028'
  | 'P' => some '\u2029'
  | _ => none

def codeLength? : Char → Option Nat
  | 'x' => some 2
  | 'u' => some 4
  | 'U' => some 8
  | _ => none

/-- The character of a code; a code of no character gives the replacement character. -/
def charOfCode (code : Nat) : Except Fault Char :=
  if code.isValidChar then .ok (Char.ofNat code)
  else if 0x10FFFF < code then .error (invalidValue "chr() arg not in range(0x110000)")
  else .ok '\uFFFD'

/-- Spaces, tabs and line ends at the front of a text: the line ends, and what is behind. No line may
be a document mark. -/
def quotedBreaks (atLineStart : Bool) : List Glyph → Except Fault (List Char × List Glyph)
  | [] => .ok ([], [])
  | g :: gs =>
    if atLineStart && anyMarkNext (g :: gs) then .error .malformed
    else if g.char == ' ' || g.char == '\t' then quotedBreaks false gs
    else if isBreak g.char then do
      let (cs, rest) ← quotedBreaks true gs
      return (breakChar g.char :: cs, rest)
    else .ok ([], g :: gs)

def escape : List Glyph → Except Fault (List Char × List Glyph)
  | [] => .error .malformed
  | g :: gs =>
    match escapedChar? g.char, codeLength? g.char with
    | some c, _ => .ok ([c], gs)
    | none, some n =>
      let digits := (gs.take n).map Glyph.char
      match hexNumber? digits with
      | some code =>
        if digits.length = n then do
          return ([← charOfCode code], gs.drop n)
        else .error .malformed
      | none => .error .malformed
    | none, none =>
      if isBreak g.char then quotedBreaks true gs else .error .malformed

/-- The meaning of the spacing at the front of a text: line ends are folded, and spaces and tabs
before or behind a line end are left out. -/
def quotedGap (gs : List Glyph) : Except Fault (List Char × List Glyph) :=
  let isBlank := fun (g : Glyph) => g.char == ' ' || g.char == '\t'
  match gs.dropWhile isBlank with
  | [] => .error .malformed
  | g :: rest =>
    if isBreak g.char then do
      let (more, rest) ← quotedBreaks true rest
      return (foldBreaks (breakChar g.char) more, rest)
    else .ok ((gs.takeWhile isBlank).map Glyph.char, g :: rest)

/-- A quoted scalar behind its opening quote. A single quote is doubled inside single quotes;
backslashes mean something inside double quotes only. -/
def quotedFrom (quote : Char) : (fuel : Nat) → List Glyph → Except Fault (List Char × List Glyph)
  | 0, _ => .error .malformed
  | _, [] => .error .malformed
  | fuel + 1, g :: gs =>
    let go := fun (cs : List Char) (rest : List Glyph) => do
      let (more, rest) ← quotedFrom quote fuel rest
      return (cs ++ more, rest)
    if g.char == quote then
      if quote == '\'' && nextIs '\'' gs then go ['\''] (gs.drop 1) else .ok ([], gs)
    else if quote == '"' && g.char == '\\' then do
      let (cs, rest) ← escape gs
      go cs rest
    else if isSpacing g.char then do
      let (cs, rest) ← quotedGap (g :: gs)
      go cs rest
    else go [g.char] gs

def quotedScalar (quote : Char) (gs : List Glyph) : Except Fault (List Char × List Glyph) :=
  quotedFrom quote (gs.length + 1) gs

/-! ### Block scalars -/

/-- What becomes of the line ends behind a block scalar. -/
inductive Chomping where
  | strip
  | clip
  | keep
deriving DecidableEq, Repr

/-- What the mark of a block scalar says besides its style. -/
structure BlockHeader where
  chomping : Chomping
  /-- How far the scalar is indented beyond what surrounds it, if that is said. -/
  indent : Option Nat
deriving Repr

def chomping? : Char → Option Chomping
  | '+' => some .keep
  | '-' => some .strip
  | _ => none

def takeChomping (gs : List Glyph) : Option Chomping × List Glyph :=
  match (next? gs).bind chomping? with
  | some c => (some c, gs.drop 1)
  | none => (none, gs)

/-- The indentation at the front of a text, if any: a digit other than zero. -/
def takeIndent (gs : List Glyph) : Except Fault (Option Nat × List Glyph) :=
  match next? gs with
  | some c =>
    if c == '0' then .error .malformed
    else if c.isDigit then .ok (some (c.toNat - '0'.toNat), gs.drop 1)
    else .ok (none, gs)
  | none => .ok (none, gs)

/-- The header behind the mark of a block scalar; chomping and indentation come in either order. -/
def blockHeader (gs : List Glyph) : Except Fault (BlockHeader × List Glyph) := do
  let (first, gs) := takeChomping gs
  let (indent, gs) ← takeIndent gs
  let (second, gs) := if first.isNone && indent.isSome then takeChomping gs else (none, gs)
  if spaceOrEndNext gs then
    return (⟨(first.or second).getD .clip, indent⟩, ← skipBlankLine gs)
  else throw .malformed

def leadingBreaks : List Glyph → List Char × Nat × List Glyph
  | [] => ([], 0, [])
  | g :: gs =>
    if g.char == ' ' then
      let (cs, indent, rest) := leadingBreaks gs
      (cs, max indent (g.column + 1), rest)
    else if isBreak g.char then
      let (cs, indent, rest) := leadingBreaks gs
      (breakChar g.char :: cs, indent, rest)
    else ([], 0, g :: gs)

/-- The line ends at the front of a text, of whose lines the first `indent` columns may be spaces. -/
def blockBreaks (indent : Nat) : List Glyph → List Char × List Glyph
  | [] => ([], [])
  | g :: gs =>
    if g.char == ' ' && decide (g.column < indent) then blockBreaks indent gs
    else if isBreak g.char then
      let (cs, rest) := blockBreaks indent gs
      (breakChar g.char :: cs, rest)
    else ([], g :: gs)

/-- The lines of a block scalar: their text, the line ends behind them, and the rest. -/
structure BlockLines where
  text : List Char
  /-- The end of the last line. -/
  lastBreak : List Char
  /-- The line ends of the empty lines behind it. -/
  emptyLines : List Char
  rest : List Glyph
deriving Repr

def beginsAt (indent : Nat) : List Glyph → Bool
  | [] => false
  | g :: _ => g.column == indent

def blankNext (gs : List Glyph) : Bool := nextIs ' ' gs || nextIs '\t' gs

/-- Lines that begin in the column `indent`. In a folded scalar a single line end between two lines
that begin with no blank becomes a space. -/
def blockLines (folded : Bool) (indent : Nat) :
    (fuel : Nat) → (before : List Char) → List Glyph → BlockLines
  | 0, before, gs => ⟨[], [], before, gs⟩
  | fuel + 1, before, gs =>
    if !beginsAt indent gs then ⟨[], [], before, gs⟩
    else
      let line := (gs.takeWhile fun g => !isBreak g.char).map Glyph.char
      let lineEnd := ((skipLine gs).take 1).map fun g => breakChar g.char
      let (empty, rest) := blockBreaks indent ((skipLine gs).drop 1)
      if beginsAt indent rest then
        let joint :=
          if folded && lineEnd == ['\n'] && !blankNext gs && !blankNext rest then
            if empty.isEmpty then [' '] else []
          else lineEnd
        let tail := blockLines folded indent fuel empty rest
        { tail with text := before ++ line ++ joint ++ tail.text }
      else ⟨before ++ line, lineEnd, empty, rest⟩

/-- The block scalar behind its mark. What surrounds it is indented by `outer` columns at least, so
the scalar stands further to the right; unless its header says how far, its first line decides. -/
def blockScalar (folded : Bool) (outer : Nat) (gs : List Glyph) :
    Except Fault (List Char × List Glyph) := do
  let (header, gs) ← blockHeader gs
  let least := max outer 1
  let (indent, before, gs) :=
    match header.indent with
    | some n =>
      let indent := least + n - 1
      let (before, gs) := blockBreaks indent gs
      (indent, before, gs)
    | none =>
      let (before, deepest, gs) := leadingBreaks gs
      (max least deepest, before, gs)
  let lines := blockLines folded indent (gs.length + 1) before gs
  let ending :=
    match header.chomping with
    | .strip => []
    | .clip => lines.lastBreak
    | .keep => lines.lastBreak ++ lines.emptyLines
  return (lines.text ++ ending, lines.rest)

end Lox.Yaml
