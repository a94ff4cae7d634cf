import Lox.Text.Fields

/-!
# Paths

A path names the steps from a directory to a file. Empty steps and steps that stay where they are
count for nothing; steps upwards are kept, since what they lead to depends on the directories.
-/

namespace Lox

/-- A path: the slashes it begins with, none for a relative path, and its steps. -/
structure Path where
  root : String
  steps : List String
deriving DecidableEq, Repr, Inhabited

namespace Path

/-- The slashes that a path begins with. Two of them are different from one; more are not. -/
def rootOf (cs : List Char) : String :=
  match (cs.takeWhile fun c => c == '/').length with
  | 0 => ""
  | 2 => "//"
  | _ => "/"

def isStep (s : String) : Bool := s != "" && s != "."

def ofText (s : String) : Path :=
  ⟨rootOf s.toList, ((Text.fields '/' s.toList).map String.ofList).filter isStep⟩

/-- The text of a path; the directory that it starts from is a point. -/
def text (p : Path) : String :=
  if p.root.isEmpty && p.steps.isEmpty then "." else p.root ++ "/".intercalate p.steps

def name (p : Path) : String := p.steps.getLast?.getD ""

end Path

inductive Entry where
  | file (text : String)
  | directory
deriving DecidableEq, Repr, Inhabited

/-- The files below a directory: the steps to each, and its text. -/
abbrev Files : Type := List (List String × String)

namespace Files

def at? (fs : Files) (steps : List String) : Option Entry :=
  if steps.isEmpty then some .directory
  else
    match fs.lookup steps with
    | some text => some (.file text)
    | none => if fs.any fun f => steps.isPrefixOf f.1 then some .directory else none

/-- Walks on from a directory; only directories can be left, and the first one not upwards. -/
def walk (fs : Files) (here : List String) : List String → Option Entry
  | [] => fs.at? here
  | step :: steps =>
    match fs.at? here with
    | some .directory =>
      if step = ".." then
        if here.isEmpty then none else walk fs here.dropLast steps
      else walk fs (here ++ [step]) steps
    | _ => none

def find? (fs : Files) (p : Path) : Option Entry :=
  if p.root.isEmpty then fs.walk [] p.steps else none

end Files

end Lox
