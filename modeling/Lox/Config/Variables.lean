import Lox.Config.Field
import Lox.Decimal.Reader
import Lox.Text.Fields

/-!
# Configurations from environment variables

Each field has an environment variable, which overrides it. All variables that are set are read
first; the fields are checked together behind that.
-/

namespace Lox.Config

abbrev Variables : Type := List (String × String)

def Field.varName (f : Field) : String :=
  "TREELOX_" ++ String.ofList (f.key.toList.map Char.toUpper)

def booleanWord? (word : String) : Option Bool :=
  if ["1", "true", "yes", "on"].contains word then some true
  else if ["0", "false", "no", "off"].contains word then some false
  else none

/-- The names in a list with commas; blanks around them and empty names are left out. -/
def listedNames (text : String) : List String :=
  ((Text.fields ',' text.toList).map fun f => Text.trim (String.ofList f)).filter fun s => !s.isEmpty

section

variable (bounds : Data.Bounds)

def Field.parse (f : Field) (text : String) : Except Problem Data :=
  match f with
  | .maxErrors | .maxCallDepth =>
    match Decimal.integer? bounds.digits text with
    | some n => .ok (.integer n)
    | none => .error (.notInteger f.varName text)
  | .allowLocalRedeclaration | .warnUndefinedGlobals =>
    match booleanWord? (String.ofList ((Text.trimChars text.toList).map Char.toLower)) with
    | some b => .ok (.boolean b)
    | none => .error (.notBooleanText f.varName text)
  | .natives => .ok (.list ((listedNames text).map .text))
  | .logLevel => .ok (.text text)

def overrides (vars : Variables) : List Field → Except Problem (List (Field × Data))
  | [] => .ok []
  | f :: fs =>
    match vars.lookup f.varName with
    | none => overrides vars fs
    | some text => do
      let value ← f.parse bounds text
      let rest ← overrides vars fs
      return (f, value) :: rest

/-- Overrides the fields whose variables are set; nothing if none is. -/
def override? (c : Config) (vars : Variables) : Except Problem (Option Config) := do
  let values ← overrides bounds vars Field.all
  if values.isEmpty then return none
  else return some (← check bounds fun f => (values.lookup f).getD (c.get f))

def withVariables (c : Config) (vars : Variables) : Except Problem Config := do
  return (← override? bounds c vars).getD c

end

end Lox.Config
