import Lox.Yaml.Scalar
import Lox.Yaml.Token

/-!
# Reading the tokens of a YAML text

Outside flow collections a column that is further to the right begins a block collection, and one
further to the left ends those that began to the right of it. A token may turn out to be a key only
when the colon behind it is reached, so the places where a key may have begun are remembered, one for
each collection that is open. The tokens before a fault are kept beside it.
-/

namespace Lox.Yaml

/-- A place where a key that no question mark announces may have begun. -/
structure KeyPlace where
  /-- The number of tokens before it. -/
  index : Nat
  /-- Nothing but a key may stand there. -/
  required : Bool
  glyph : Glyph
deriving Repr

structure Layout where
  tokens : Array Token := #[]
  /-- The columns of the block collections that are open, the innermost first. -/
  columns : List Nat := []
  /-- The place of a key in the collection that is read. -/
  keyPlace : Option KeyPlace := none
  /-- The places of keys around the flow collections that are open, the innermost first. -/
  outerPlaces : List (Option KeyPlace) := []
  /-- A key may begin here. -/
  keyAllowed : Bool := true
deriving Repr

/-- The tokens of a text, and the fault that ended the reading, if any. -/
structure TokenScan where
  tokens : List Token
  fault : Option Fault
deriving Repr

def keyReach : Nat := 1024

namespace Layout

def inFlow (l : Layout) : Bool := !l.outerPlaces.isEmpty

def innerColumn (l : Layout) : Nat := (l.columns.head?.map (· + 1)).getD 0

def push (l : Layout) (t : Token) : Layout := { l with tokens := l.tokens.push t }

def insert (l : Layout) (index : Nat) (ts : List Token) : Layout :=
  { l with tokens := l.tokens.extract 0 index ++ ts.toArray ++ l.tokens.extract index l.tokens.size }

/-! ### Places of keys -/

/-- Leaves a place of a key behind; a required key must not be missing. -/
def release : Option KeyPlace → Except Fault (Option KeyPlace)
  | none => .ok none
  | some place => if place.required then .error .malformed else .ok none

/-- Leaves a place of a key behind if the text has come too far from it: to another line, or beyond
the reach of a key. -/
def expirePlace (g : Glyph) : Option KeyPlace → Except Fault (Option KeyPlace)
  | none => .ok none
  | some place =>
    if place.glyph.line ≠ g.line ∨ keyReach < g.offset - place.glyph.offset then
      release (some place)
    else .ok (some place)

def expire (l : Layout) (g : Glyph) : Except Fault Layout := do
  let keyPlace ← expirePlace g l.keyPlace
  let outerPlaces ← l.outerPlaces.mapM (expirePlace g)
  return { l with keyPlace := keyPlace, outerPlaces := outerPlaces }

def dropKey (l : Layout) : Except Fault Layout := do
  return { l with keyPlace := ← release l.keyPlace }

/-- Remembers that a key may begin at the character. Where a block collection has its column, a token
can only be a key. -/
def noteKey (l : Layout) (g : Glyph) : Except Fault Layout :=
  if l.keyAllowed then do
    let l ← l.dropKey
    let required := !l.inFlow && l.columns.head? == some g.column
    return { l with keyPlace := some ⟨l.tokens.size, required, g⟩ }
  else .ok l

/-! ### Columns -/

def closeColumns (isClosed : Nat → Bool) : List Nat → List Nat × Nat
  | [] => ([], 0)
  | c :: cs =>
    if isClosed c then
      let (open', n) := closeColumns isClosed cs
      (open', n + 1)
    else (c :: cs, 0)

/-- Ends block collections, unless a flow collection is open. -/
def close (l : Layout) (isClosed : Nat → Bool) : Layout :=
  if l.inFlow then l
  else
    let (columns, n) := closeColumns isClosed l.columns
    { l with columns := columns, tokens := l.tokens ++ Array.replicate n .blockEnd }

def closeTo (l : Layout) (column : Nat) : Layout := l.close fun c => decide (column < c)

def closeAll (l : Layout) : Layout := l.close fun _ => true

def opensAt (l : Layout) (column : Nat) : Bool :=
  match l.columns with
  | [] => true
  | c :: _ => decide (c < column)

/-- Opens a block collection in a column that is further to the right than those that are open. -/
def openAt (l : Layout) (column : Nat) (start : Token) : Layout :=
  if l.opensAt column then { l with columns := column :: l.columns }.push start else l

/-! ### Marks -/

def atMargin (l : Layout) : Except Fault Layout := do
  let l ← l.closeAll.dropKey
  return { l with keyAllowed := false }

def openFlow (l : Layout) (g : Glyph) (start : Token) : Except Fault Layout := do
  let l ← l.noteKey g
  return { l with
    keyPlace := none
    outerPlaces := l.keyPlace :: l.outerPlaces
    keyAllowed := true }.push start

def closeFlow (l : Layout) (stop : Token) : Except Fault Layout := do
  let l ← l.dropKey
  match l.outerPlaces with
  | [] => throw .malformed
  | place :: places =>
    return { l with keyPlace := place, outerPlaces := places, keyAllowed := false }.push stop

def comma (l : Layout) : Except Fault Layout := do
  let l ← l.dropKey
  return { l with keyAllowed := true }.push .comma

def item (l : Layout) (g : Glyph) : Except Fault Layout := do
  if !l.inFlow && !l.keyAllowed then throw .malformed
  let l := if l.inFlow then l else l.openAt g.column .blockSequenceStart
  let l ← l.dropKey
  return { l with keyAllowed := true }.push .item

def key (l : Layout) (g : Glyph) : Except Fault Layout := do
  if !l.inFlow && !l.keyAllowed then throw .malformed
  let l := if l.inFlow then l else l.openAt g.column .blockMappingStart
  let l ← l.dropKey
  return { l with keyAllowed := !l.inFlow }.push .key

/-- The colon before a value. If a key may have begun before it, it did, and a block mapping may have
begun with that key. -/
def value (l : Layout) (g : Glyph) : Except Fault Layout := do
  match l.keyPlace with
  | some place =>
    let l := { l with keyPlace := none, keyAllowed := false }
    if !l.inFlow && l.opensAt place.glyph.column then
      let l := { l with columns := place.glyph.column :: l.columns }
      return (l.insert place.index [.blockMappingStart, .key]).push .value
    else return (l.insert place.index [.key]).push .value
  | none =>
    if !l.inFlow && !l.keyAllowed then throw .malformed
    let l := if l.inFlow then l else l.openAt g.column .blockMappingStart
    return { l with keyAllowed := !l.inFlow }.push .value

def property (l : Layout) (g : Glyph) (t : Token) : Except Fault Layout := do
  let l ← l.noteKey g
  return { l with keyAllowed := false }.push t

end Layout

/-! ### Tokens -/

def skipToToken (inComment brokenLine : Bool) : List Glyph → Bool × List Glyph
  | [] => (brokenLine, [])
  | g :: gs =>
    if isBreak g.char then skipToToken false true gs
    else if inComment then skipToToken true brokenLine gs
    else if g.char == ' ' then skipToToken false brokenLine gs
    else if g.char == '#' then skipToToken true brokenLine gs
    else (brokenLine, g :: gs)

def indicators : List Char :=
  ['-', '?', ':', ',', '[', ']', '{', '}', '#', '&', '*', '!', '|', '>', '\'', '"', '%', '@', '`']

def beginsPlain (inFlow : Bool) (c : Char) (ahead : List Glyph) : Bool :=
  (!isSpacing c && !indicators.contains c) ||
    (!spacingNext ahead && (c == '-' || (!inFlow && (c == '?' || c == ':'))))

def readToken (l : Layout) (g : Glyph) (gs : List Glyph) : Except Fault (Layout × List Glyph) := do
  let c := g.char
  let isMark := l.inFlow || spacingNext gs
  if c == '%' && g.column == 0 then
    let l ← l.atMargin
    let (d, rest) ← takeDirective gs
    return (l.push (.directive d), rest)
  else if g.column == 0 && markNext '-' (g :: gs) then
    return ((← l.atMargin).push .documentStart, gs.drop 2)
  else if g.column == 0 && markNext '.' (g :: gs) then
    return ((← l.atMargin).push .documentEnd, gs.drop 2)
  else if c == '[' then return (← l.openFlow g .flowSequenceStart, gs)
  else if c == '{' then return (← l.openFlow g .flowMappingStart, gs)
  else if c == ']' then return (← l.closeFlow .flowSequenceEnd, gs)
  else if c == '}' then return (← l.closeFlow .flowMappingEnd, gs)
  else if c == ',' then return (← l.comma, gs)
  else if c == '-' && spacingNext gs then return (← l.item g, gs)
  else if c == '?' && isMark then return (← l.key g, gs)
  else if c == ':' && isMark then return (← l.value g, gs)
  else if c == '*' then
    let (name, rest) ← takeAnchor gs
    return (← l.property g (.alias name), rest)
  else if c == '&' then
    let (name, rest) ← takeAnchor gs
    return (← l.property g (.anchor name), rest)
  else if c == '!' then
    let (t, rest) ← takeTag gs
    return (← l.property g (.tag t), rest)
  else if (c == '|' || c == '>') && !l.inFlow then
    let l ← l.dropKey
    let (text, rest) ← blockScalar (c == '>') l.innerColumn gs
    return ({ l with keyAllowed := true }.push (.scalar false (String.ofList text)), rest)
  else if c == '\'' || c == '"' then
    let (text, rest) ← quotedScalar c gs
    return (← l.property g (.scalar false (String.ofList text)), rest)
  else if beginsPlain l.inFlow c gs then
    let s := plainScalar l.inFlow l.innerColumn (g :: gs)
    let l ← l.property g (.scalar true (String.ofList s.text))
    return ({ l with keyAllowed := s.brokenLine }, s.rest)
  else throw .malformed

/-- Reads tokens up to the end of the text; each takes a character at least. -/
def tokensFrom : (fuel : Nat) → Layout → List Glyph → TokenScan
  | 0, l, _ => ⟨l.tokens.toList, some .malformed⟩
  | fuel + 1, l, gs =>
    let (brokenLine, gs) := skipToToken false false gs
    let l := if brokenLine && !l.inFlow then { l with keyAllowed := true } else l
    match gs with
    | [] =>
      match l.closeAll.dropKey with
      | .ok l => ⟨l.tokens.toList, none⟩
      | .error fault => ⟨l.tokens.toList, some fault⟩
    | g :: gs =>
      let read : Except Fault (Layout × List Glyph) := do
        let l ← l.expire g
        readToken (l.closeTo g.column) g gs
      match read with
      | .ok (l, rest) => tokensFrom fuel l rest
      | .error fault => ⟨l.tokens.toList, some fault⟩

/-- The tokens of a text. A character that may not occur is a fault wherever it stands. -/
def scanTokens (text : String) : TokenScan :=
  let gs := glyphs text
  if gs.all fun g => mayOccur g.char then tokensFrom (gs.length + 1) {} gs
  else ⟨[], some .malformed⟩

end Lox.Yaml
