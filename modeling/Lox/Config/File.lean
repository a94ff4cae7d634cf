import Lox.Config.Document
import Lox.Config.Variables
import Lox.Path

/-!
# Configuration files

Settings come from the defaults, from a file if one is named, and from environment variables, each of
which overrides what came before. The text of a file is read with a reader of documents that is not
settled here.
-/

namespace Lox.Config

/-- What is wrong with a configuration whose file gives no data. -/
def Problem.ofFault (path : Path) : Data.Fault → Problem
  | .malformed => .unparsable path.text
  | .uncaught kind message => .unreadable kind message

section

variable (bounds : Data.Bounds) (read : Data.Reader)

def ofText (path : Path) (text : String) : Except Problem Config :=
  match read text with
  | .ok d => ofDocument bounds d
  | .error fault => .error (.ofFault path fault)

def ofEntry (path : Path) (entry : Option Entry) : Except Problem Config :=
  match entry with
  | none => .error (.missingFile path.text)
  | some .directory => .error (.isDirectory path.text)
  | some (.file text) => ofText bounds read path text

/-- The configuration from a file, if one is named, and environment variables. -/
def load (path : Option Path) (find? : Path → Option Entry) (vars : Variables) :
    Except Problem Config := do
  let c ←
    match path with
    | none => pure {}
    | some p => ofEntry bounds read p (find? p)
  withVariables bounds c vars

end

end Lox.Config
