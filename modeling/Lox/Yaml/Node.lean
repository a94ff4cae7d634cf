import Lox.Yaml.Kind
import Lox.Yaml.Layout

/-!
# Documents as trees of nodes

A document is one node: a scalar, a sequence or a mapping, each of a kind. The rules here read nodes
from tokens. A node may have an anchor, and an alias behind it stands for the same node. Of three
rules that call each other one takes a token, so three times the number of tokens bounds the
recursion, which `fuel` counts.
-/

namespace Lox.Yaml

inductive Node where
  | scalar (kind : Kind) (text : String)
  | sequence (kind : Kind) (items : List Node)
  | mapping (kind : Kind) (entries : List (Node × Node))
deriving Inhabited, Repr

namespace Node

def kind : Node → Kind
  | scalar k _ => k
  | sequence k _ => k
  | mapping k _ => k

def empty : Node := .scalar .null ""

/-! ### Reading -/

/-- The tokens ahead and what the document has defined so far. -/
structure Reader where
  tokens : List Token
  /-- What is wrong behind the tokens. -/
  fault : Option Fault
  /-- The handles of tags and what they stand for. -/
  handles : List (String × String)
  anchors : List (String × Node)
deriving Inhabited

abbrev Rule (α : Type) : Type := StateT Reader (Except Fault) α

def peek : Rule (Option Token) := do
  let r ← get
  match r.tokens, r.fault with
  | [], some fault => throw fault
  | ts, _ => return ts.head?

def advance : Rule Unit := modify fun r => { r with tokens := r.tokens.drop 1 }

def accept (t : Token) : Rule Bool := do
  if (← peek) = some t then
    advance
    return true
  else return false

def expect (t : Token) : Rule Unit := do
  if !(← accept t) then throw .malformed

/-- The next token is one of the given ones, which do not begin a node. -/
def nextAmong (ts : List Token) : Rule Bool := do
  match ← peek with
  | some t => return ts.contains t
  | none => return false

/-! ### Properties -/

def standardHandles : List (String × String) := [("!", "!"), ("!!", tagNamespace)]

/-- What is written before the content of a node. -/
structure Properties where
  anchor : Option String := none
  tag : Option WrittenTag := none

def anchor? : Rule (Option String) := do
  match ← peek with
  | some (.anchor name) =>
    advance
    return some name
  | _ => return none

def tag? : Rule (Option WrittenTag) := do
  match ← peek with
  | some (.tag t) =>
    advance
    return some t
  | _ => return none

/-- An anchor and a tag in either order; both may be missing. -/
def properties : Rule Properties := do
  match ← anchor? with
  | some name => return ⟨some name, ← tag?⟩
  | none =>
    match ← tag? with
    | some t => return ⟨← anchor?, some t⟩
    | none => return {}

def fullTag (t : WrittenTag) : Rule String := do
  match t.handle with
  | none => return t.suffix
  | some handle =>
    match (← get).handles.lookup handle with
    | some meaning => return meaning ++ t.suffix
    | none => throw .malformed

/-- The kind that a tag gives; a tag that is an exclamation mark alone gives none. -/
def kind? (tag : Option String) : Option Kind :=
  match tag with
  | none => none
  | some t => if t == "!" then none else some (Kind.ofTag t)

/-- The node of a scalar. Without a kind given, one in quotes is a text and any other one is what its
text has the form of; so is every scalar with an exclamation mark for its tag. -/
def ofScalar (tag : Option String) (plain : Bool) (text : String) : Node :=
  match kind? tag with
  | some k => .scalar k text
  | none => .scalar (if plain || tag.isSome then Kind.ofPlain text else .text) text

/-- Remembers the node of an anchor, which no other node may have. -/
def define (name : Option String) (node : Node) : Rule Unit := do
  match name with
  | none => return ()
  | some name =>
    let r ← get
    if (r.anchors.lookup name).isSome then throw .malformed
    set { r with anchors := (name, node) :: r.anchors }

/-! ### Nodes -/

def omitted (ps : Properties) (tag : Option String) : Rule Node :=
  if ps.anchor.isSome || tag.isSome then
    pure (.scalar ((kind? tag).getD .null) "")
  else throw .malformed

def entryEnds : List Token := [.key, .value, .blockEnd]

mutual

/-- A node. Block collections are read only if `block` says so, and items without indentation of
their own only if `bare` does. -/
def node (block bare : Bool) : (fuel : Nat) → Rule Node
  | 0 => throw .malformed
  | fuel + 1 => do
    match ← peek with
    | some (.alias name) =>
      advance
      match (← get).anchors.lookup name with
      | some n => return n
      | none => throw .malformed
    | _ =>
      let ps ← properties
      let tag ← ps.tag.mapM fullTag
      let n ←
        match ← peek with
        | some (.scalar plain text) =>
          advance
          pure (ofScalar tag plain text)
        | some .flowSequenceStart =>
          advance
          pure (.sequence ((kind? tag).getD .sequence) (← flowItems true fuel))
        | some .flowMappingStart =>
          advance
          pure (.mapping ((kind? tag).getD .mapping) (← flowEntries true fuel))
        | some .item =>
          if bare then pure (.sequence ((kind? tag).getD .sequence) (← bareItems fuel))
          else omitted ps tag
        | some .blockSequenceStart =>
          if block then
            advance
            pure (.sequence ((kind? tag).getD .sequence) (← blockItems fuel))
          else omitted ps tag
        | some .blockMappingStart =>
          if block then
            advance
            pure (.mapping ((kind? tag).getD .mapping) (← blockEntries fuel))
          else omitted ps tag
        | _ => omitted ps tag
      define ps.anchor n
      return n

def blockNode (ends : List Token) (bare : Bool) : (fuel : Nat) → Rule Node
  | 0 => throw .malformed
  | fuel + 1 => do
    if ← nextAmong ends then return empty else node true bare fuel

def flowNode (ends : List Token) : (fuel : Nat) → Rule Node
  | 0 => throw .malformed
  | fuel + 1 => do
    if ← nextAmong ends then return empty else node false false fuel

def blockItems : (fuel : Nat) → Rule (List Node)
  | 0 => throw .malformed
  | fuel + 1 => do
    if ← accept .item then
      let n ← blockNode [.item, .blockEnd] false fuel
      return n :: (← blockItems fuel)
    else
      expect .blockEnd
      return []

def bareItems : (fuel : Nat) → Rule (List Node)
  | 0 => throw .malformed
  | fuel + 1 => do
    if ← accept .item then
      let n ← blockNode (.item :: entryEnds) false fuel
      return n :: (← bareItems fuel)
    else return []

def blockEntries : (fuel : Nat) → Rule (List (Node × Node))
  | 0 => throw .malformed
  | fuel + 1 => do
    if ← accept .key then
      let k ← blockNode entryEnds true fuel
      let v ← if ← accept .value then blockNode entryEnds true fuel else pure empty
      return (k, v) :: (← blockEntries fuel)
    else
      expect .blockEnd
      return []

def flowItems (first : Bool) : (fuel : Nat) → Rule (List Node)
  | 0 => throw .malformed
  | fuel + 1 => do
    if ← accept .flowSequenceEnd then return []
    if !first then expect .comma
    if ← accept .key then
      let k ← flowNode [.value, .comma, .flowSequenceEnd] fuel
      let v ← if ← accept .value then flowNode [.comma, .flowSequenceEnd] fuel else pure empty
      return .mapping .mapping [(k, v)] :: (← flowItems false fuel)
    else if ← accept .flowSequenceEnd then return []
    else
      let n ← node false false fuel
      return n :: (← flowItems false fuel)

/-- The entries of a flow mapping with its end. A node that is no key has the empty node for its
value. -/
def flowEntries (first : Bool) : (fuel : Nat) → Rule (List (Node × Node))
  | 0 => throw .malformed
  | fuel + 1 => do
    if ← accept .flowMappingEnd then return []
    if !first then expect .comma
    if ← accept .key then
      let k ← flowNode [.value, .comma, .flowMappingEnd] fuel
      let v ← if ← accept .value then flowNode [.comma, .flowMappingEnd] fuel else pure empty
      return (k, v) :: (← flowEntries false fuel)
    else if ← accept .flowMappingEnd then return []
    else
      let k ← node false false fuel
      return (k, empty) :: (← flowEntries false fuel)

end

/-! ### Documents -/

/-- The directives before a document. Version one is the only one that is understood; no directive
may come twice. -/
def directives : (fuel : Nat) → (versionSeen : Bool) → Rule Unit
  | 0, _ => return ()
  | fuel + 1, versionSeen => do
    match ← peek with
    | some (.directive d) =>
      advance
      match d with
      | .version major _ =>
        if versionSeen || major ≠ 1 then throw .malformed
        directives fuel true
      | .tagHandle handle meaning =>
        let r ← get
        if (r.handles.lookup handle).isSome then throw .malformed
        set { r with handles := (handle, meaning) :: r.handles }
        directives fuel versionSeen
      | .other => directives fuel versionSeen
    | _ => return ()

def skipEnds : (fuel : Nat) → Rule Unit
  | 0 => return ()
  | fuel + 1 => do
    if ← accept .documentEnd then skipEnds fuel

/-- The node of a document behind its first mark; nothing may stand there. -/
def documentContent (fuel : Nat) : Rule Node := do
  match ← peek with
  | none | some (.directive _) | some .documentStart | some .documentEnd => return empty
  | _ => node true false fuel

/-- The node of the only document of a text, if there is one. -/
def document (fuel : Nat) : Rule (Option Node) := do
  match ← peek with
  | none => return none
  | some first =>
    let n ←
      match first with
      | .directive _ | .documentStart => do
        directives fuel false
        modify fun r => { r with handles := r.handles ++ standardHandles }
        expect .documentStart
        documentContent fuel
      | _ => do
        modify fun r => { r with handles := standardHandles }
        node true false fuel
    skipEnds fuel
    if (← peek).isSome then throw .malformed
    return some n

def ofText? (text : String) : Except Fault (Option Node) := do
  let scan := scanTokens text
  let reader : Reader := ⟨scan.tokens, scan.fault, [], []⟩
  return (← (document (3 * scan.tokens.length + 3)).run reader).1

end Node

end Lox.Yaml
