import Lox.Config.Field

/-!
# Configurations from documents

A mapping of field names to values overrides the defaults. Keys that name no field are a problem
before any value is looked at.
-/

namespace Lox.Config

def isKnownKey (d : Data) : Bool := Field.all.any fun f => d.isText f.key

def textKeys (ds : List Data) : List String :=
  ds.filterMap fun d =>
    match d with
    | .text s => some s
    | _ => none

/-- The problem with keys that name no field: the texts among them are listed in the order of their
characters, and one that is no text cannot be listed. -/
def unknownKeys? (entries : List (Data × Data)) : Option Problem :=
  let unknown := (entries.map Prod.fst).filter fun k => !isKnownKey k
  match unknown.find? fun k => k.typeName != "str" with
  | some k => some (.keyNotText k)
  | none =>
    if unknown.isEmpty then none
    else some (.unknownKeys ((textKeys unknown).mergeSort fun a b => decide (a ≤ b)))

section

variable (bounds : Data.Bounds)

def ofEntries (entries : List (Data × Data)) : Except Problem Config :=
  match unknownKeys? entries with
  | some problem => .error problem
  | none => check bounds fun f => (Data.lookupText f.key entries).getD (get {} f)

/-- The configuration that a document describes; one that holds nothing stands for the defaults. -/
def ofDocument (d : Data) : Except Problem Config :=
  if d.isEmpty then ofEntries bounds []
  else
    match d with
    | .mapping entries => ofEntries bounds entries
    | d => .error (.notMapping d)

end

end Lox.Config
