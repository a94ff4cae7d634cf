import Lox.Yaml.Node

/-!
# The data of a YAML document

A reader of documents for the program. Settings are read with any reader: nothing depends on which
texts this one takes.

Scalars give the data of their kind. A later entry of a mapping takes the place of an earlier one with
the same key, and the entries that a merge key takes over come before the mapping's own. Lists and
mappings are no keys.
-/

namespace Lox.Yaml

namespace Node

/-- What the entries of a mapping come to: those that merge keys take over, and its own. -/
structure Entries where
  merged : List (Data × Data) := []
  own : List (Data × Data) := []

def Entries.all (es : Entries) : List (Data × Data) := es.merged ++ es.own

def keyData : Node → Except Fault Data
  | scalar .value text => .ok (.text text)
  | scalar kind text => kind.scalar text
  | _ => .error .malformed

mutual

def toData : Node → Except Fault Data
  | scalar kind text => kind.scalar text
  | sequence kind items =>
    if kind = .sequence then do return .list (← itemsData items)
    else .error .malformed
  | mapping kind entries =>
    if kind = .mapping then do
      let es ← entriesData entries
      return .mapping (es.all.foldl (fun m e => Data.putEntry m e.1 e.2) [])
    else .error .malformed

def itemsData : List Node → Except Fault (List Data)
  | [] => .ok []
  | n :: ns => do
    let d ← n.toData
    return d :: (← itemsData ns)

def entriesData : List (Node × Node) → Except Fault Entries
  | [] => .ok {}
  | (k, v) :: es => do
    if k.kind = .merge then
      let merged ← v.mergedData
      let rest ← entriesData es
      return { rest with merged := merged ++ rest.merged }
    else
      let key ← keyData k
      let value ← v.toData
      let rest ← entriesData es
      return { rest with own := (key, value) :: rest.own }

/-- The entries that a merge key takes over: those of a mapping, or those of the mappings in a
sequence, of which the first counts most and so comes last. -/
def mergedData : Node → Except Fault (List (Data × Data))
  | scalar _ _ => .error .malformed
  | mapping _ entries => do return (← entriesData entries).all
  | sequence _ items => mergedItems items

def mergedItems : List Node → Except Fault (List (Data × Data))
  | [] => .ok []
  | mapping _ entries :: ns => do
    let first := (← entriesData entries).all
    return (← mergedItems ns) ++ first
  | _ :: _ => .error .malformed

end

end Node

/-- The data that a text describes; a text without a document describes nothing. -/
def data : Data.Reader := fun text => do
  match ← Node.ofText? text with
  | none => return .null
  | some n => n.toData

end Lox.Yaml
