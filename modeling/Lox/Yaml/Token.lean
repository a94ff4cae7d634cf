import Lox.Yaml.Basic

/-!
# The tokens of a YAML text

Marks and scalars, and what indentation implies: the beginning and end of block collections and the
keys that no question mark announces. The readers here are for tokens that stand on one line.
-/

namespace Lox.Yaml

/-- A tag as it is written: its handle, if it has one, and what is behind the handle. -/
structure WrittenTag where
  handle : Option String
  suffix : String
deriving DecidableEq, Repr, Inhabited

/-- A line that is about the document behind it. -/
inductive Directive where
  | version (major minor : Nat)
  | tagHandle (handle meaning : String)
  | other
deriving DecidableEq, Repr, Inhabited

inductive Token where
  | directive (d : Directive)
  | documentStart
  | documentEnd
  | blockSequenceStart
  | blockMappingStart
  | blockEnd
  | flowSequenceStart
  | flowSequenceEnd
  | flowMappingStart
  | flowMappingEnd
  /-- The dash before an item. -/
  | item
  /-- The comma in a flow collection. -/
  | comma
  /-- A key follows. -/
  | key
  /-- The colon before a value. -/
  | value
  | alias (name : String)
  | anchor (name : String)
  | tag (t : WrittenTag)
  | scalar (plain : Bool) (text : String)
deriving DecidableEq, Repr, Inhabited

/-! ### Names -/

def isNameChar (c : Char) : Bool := c.isAlphanum || c == '-' || c == '_'

/-- The name at the front of a text; it has at least one character. -/
def takeName (gs : List Glyph) : Except Fault (String × List Glyph) :=
  match gs.takeWhile fun g => isNameChar g.char with
  | [] => .error .malformed
  | name =>
    .ok (String.ofList (name.map Glyph.char), gs.dropWhile fun g => isNameChar g.char)

def anchorEnds : List Char := ['?', ':', ',', ']', '}', '%', '@', '`']

def takeAnchor (gs : List Glyph) : Except Fault (String × List Glyph) := do
  let (name, rest) ← takeName gs
  if spacingNext rest || ((next? rest).map anchorEnds.contains).getD false then
    return (name, rest)
  else throw .malformed

/-! ### Tags -/

def tagPunctuation : List Char :=
  ['-', ';', '/', '?', ':', '@', '&', '=', '+', '$', ',', '_', '.', '!', '~', '*', '\'', '(', ')', '[',
    ']', '%']

def percentBytes : List Glyph → Except Fault (List UInt8 × List Glyph)
  | p :: a :: b :: rest =>
    if p.char == '%' then
      match hexNumber? [a.char, b.char] with
      | some n => do
        let (bytes, rest) ← percentBytes rest
        return (UInt8.ofNat n :: bytes, rest)
      | none => .error .malformed
    else .ok ([], p :: a :: b :: rest)
  | gs => if nextIs '%' gs then .error .malformed else .ok ([], gs)

def tagChars : (fuel : Nat) → List Glyph → Except Fault (List Char × List Glyph)
  | 0, gs => .ok ([], gs)
  | _, [] => .ok ([], [])
  | fuel + 1, g :: gs =>
    if g.char == '%' then do
      let (bytes, rest) ← percentBytes (g :: gs)
      match String.fromUTF8? (ByteArray.mk bytes.toArray) with
      | some s =>
        let (cs, rest) ← tagChars fuel rest
        return (s.toList ++ cs, rest)
      | none => throw .malformed
    else if g.char.isAlphanum || tagPunctuation.contains g.char then do
      let (cs, rest) ← tagChars fuel gs
      return (g.char :: cs, rest)
    else .ok ([], g :: gs)

/-- The part of a tag behind its handle; it has at least one character. -/
def takeTagChars (gs : List Glyph) : Except Fault (String × List Glyph) := do
  match ← tagChars gs.length gs with
  | ([], _) => throw .malformed
  | (cs, rest) => return (String.ofList cs, rest)

def takeHandle (gs : List Glyph) : Except Fault (String × List Glyph) :=
  if nextIs ' ' gs then .ok ("!", gs)
  else
    let name := (gs.takeWhile fun g => isNameChar g.char).map Glyph.char
    let rest := gs.dropWhile fun g => isNameChar g.char
    if nextIs '!' rest then .ok (String.ofList ('!' :: name ++ ['!']), rest.drop 1)
    else .error .malformed

def untilSpace (gs : List Glyph) : List Char :=
  (gs.takeWhile fun g => g.char != ' ' && !isBreak g.char).map Glyph.char

/-- A tag behind its exclamation mark: in angle brackets, alone, or with a handle. -/
def takeTag (gs : List Glyph) : Except Fault (WrittenTag × List Glyph) := do
  let (t, rest) ←
    if nextIs '<' gs then do
      let (suffix, rest) ← takeTagChars (gs.drop 1)
      if nextIs '>' rest then pure (WrittenTag.mk none suffix, rest.drop 1)
      else throw .malformed
    else if spacingNext gs then pure (WrittenTag.mk none "!", gs)
    else do
      let (handle, rest) ←
        if (untilSpace gs).contains '!' then takeHandle gs else pure ("!", gs)
      let (suffix, rest) ← takeTagChars rest
      pure (WrittenTag.mk (some handle) suffix, rest)
  if spaceOrEndNext rest then return (t, rest) else throw .malformed

/-! ### Directives -/

/-- The number at the front of a text; it has at least one digit. -/
def takeNumber (gs : List Glyph) : Except Fault (Nat × List Glyph) :=
  match (gs.takeWhile fun g => g.char.isDigit).map Glyph.char with
  | [] => .error .malformed
  | digits =>
    .ok (digits.foldl (fun n d => 10 * n + (d.toNat - '0'.toNat)) 0,
      gs.dropWhile fun g => g.char.isDigit)

def takeVersion (gs : List Glyph) : Except Fault (Directive × List Glyph) := do
  let (major, rest) ← takeNumber (skipSpaces gs)
  if !nextIs '.' rest then throw .malformed
  let (minor, rest) ← takeNumber (rest.drop 1)
  if spaceOrEndNext rest then return (.version major minor, rest) else throw .malformed

def takeTagHandle (gs : List Glyph) : Except Fault (Directive × List Glyph) := do
  let gs := skipSpaces gs
  if !nextIs '!' gs then throw .malformed
  let (handle, rest) ← takeHandle (gs.drop 1)
  if !nextIs ' ' rest then throw .malformed
  let (meaning, rest) ← takeTagChars (skipSpaces rest)
  if spaceOrEndNext rest then return (.tagHandle handle meaning, rest) else throw .malformed

def takeDirective (gs : List Glyph) : Except Fault (Directive × List Glyph) := do
  let (name, rest) ← takeName gs
  if !spaceOrEndNext rest then throw .malformed
  let (d, rest) ←
    if name == "YAML" then takeVersion rest
    else if name == "TAG" then takeTagHandle rest
    else pure (Directive.other, skipLine rest)
  return (d, ← skipBlankLine rest)

end Lox.Yaml
