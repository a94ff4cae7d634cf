import Lox.Config.Basic
import Lox.Data

/-!
# The fields of a configuration as plain data

A configuration can be written out as plain data, one value for each field, and such values can be
checked to form a configuration. Checking what was written out gives the configuration back. A check
that fails shows the data it refuses, and breaks down if they cannot be shown.
-/

namespace Lox.Config

/-! ### Problems -/

/-- Why data do not form a configuration, or why there are no data. -/
inductive Problem where
  | unknownKeys (names : List String)
  | notPositive (field : String) (value : Data)
  | notBoolean (field : String) (value : Data)
  | notNames (value : Data)
  | unknownLevel (value : Data)
  | notInteger (name text : String)
  | notBooleanText (name text : String)
  | notMapping (value : Data)
  | unparsable (path : String)
  | missingFile (path : String)
  | isDirectory (path : String)
  | unreadable (kind message : String)
  | unshown (obstacle : Data.Obstacle)
  | notIterable (value : Data)
  | keyNotText (value : Data)
deriving Inhabited

def Problem.message : Problem → String
  | unknownKeys names => "unknown configuration key(s): " ++ ", ".intercalate names
  | notPositive field value => field ++ " must be a positive integer, got " ++ value.shown
  | notBoolean field value => field ++ " must be true or false, got " ++ value.shown
  | notNames value => "natives must be a list of names, got " ++ value.shown
  | unknownLevel value =>
    "log_level must be one of " ++ ", ".intercalate (LogLevel.all.map LogLevel.name) ++ ", got " ++
      value.shown
  | notInteger name text => name ++ " must be an integer, got " ++ Text.quoted text
  | notBooleanText name text => name ++ " must be a boolean, got " ++ Text.quoted text
  | notMapping value => "config must be a mapping, got " ++ value.shortTypeName
  | unparsable path => "YAML parse error in " ++ path
  | missingFile path => "config file not found: " ++ path
  | isDirectory path => "[Errno 21] Is a directory: " ++ Text.quoted path
  | unreadable _ message => message
  | unshown obstacle => obstacle.message
  | notIterable value => "'" ++ value.typeName ++ "' object is not iterable"
  | keyNotText value =>
    "sequence item 0: expected str instance, " ++ value.typeName ++ " found"

/-- The problem is one that users are told about; with the others the data cannot even be looked
through. -/
def Problem.isComplaint : Problem → Bool
  | isDirectory _ | unreadable _ _ | unshown _ | notIterable _ | keyNotText _ => false
  | _ => true

/-! ### Fields -/

inductive Field where
  | maxErrors
  | allowLocalRedeclaration
  | warnUndefinedGlobals
  | natives
  | maxCallDepth
  | logLevel
deriving DecidableEq, Repr, Inhabited

namespace Field

def all : List Field :=
  [maxErrors, allowLocalRedeclaration, warnUndefinedGlobals, natives, maxCallDepth, logLevel]

theorem mem_all (f : Field) : f ∈ all := by
  cases f <;> decide

def key : Field → String
  | maxErrors => "max_errors"
  | allowLocalRedeclaration => "allow_local_redeclaration"
  | warnUndefinedGlobals => "warn_undefined_globals"
  | natives => "natives"
  | maxCallDepth => "max_call_depth"
  | logLevel => "log_level"

theorem key_injective (f g : Field) (h : f.key = g.key) : f = g := by
  cases f <;> cases g <;> first | rfl | exact absurd h (by decide)

end Field

/-! ### Writing out -/

def get (c : Config) : Field → Data
  | .maxErrors => .integer c.maxErrors.val
  | .allowLocalRedeclaration => .boolean c.allowLocalRedeclaration
  | .warnUndefinedGlobals => .boolean c.warnUndefinedGlobals
  | .natives =>
    match c.natives with
    | none => .null
    | some names => .list (names.map .text)
  | .maxCallDepth => .integer c.maxCallDepth.val
  | .logLevel => .text c.logLevel.name

def toEntries (c : Config) : List (Data × Data) :=
  Field.all.map fun f => (.text f.key, c.get f)

/-! ### Checking -/

/-- Refuses data with a problem that shows them. -/
def refuse {α : Type} (bounds : Data.Bounds) (d : Data) (p : Problem) : Except Problem α :=
  .error ((d.obstacle? bounds).elim p .unshown)

/-- The names in a list of data, if there is nothing else in it. -/
def namesOf? : List Data → Option (List String)
  | [] => some []
  | .text s :: ds => (namesOf? ds).map (s :: ·)
  | _ :: _ => none

/-- A letter in upper case. Of the letters of other scripts only the dotless i matters, whose upper
case is the letter `I`. -/
def upperChar (c : Char) : Char := if c == 'ı' then 'I' else c.toUpper

section

variable (bounds : Data.Bounds)

def limit (field : String) (d : Data) : Except Problem Limit :=
  match d with
  | .integer n => if h : 0 < n.toNat then .ok ⟨n.toNat, h⟩ else refuse bounds d (.notPositive field d)
  | d => refuse bounds d (.notPositive field d)

def flag (field : String) (d : Data) : Except Problem Bool :=
  match d with
  | .boolean b => .ok b
  | d => refuse bounds d (.notBoolean field d)

/-- Names are nothing or come in a list; of a mapping the keys are taken. -/
def names (d : Data) : Except Problem (Option (List String)) :=
  match d with
  | .null => .ok none
  | .list items =>
    match namesOf? items with
    | some ns => .ok (some ns)
    | none => refuse bounds d (.notNames d)
  | .mapping entries =>
    match namesOf? (entries.map Prod.fst) with
    | some ns => .ok (some ns)
    | none => refuse bounds d (.notNames d)
  | .text _ => refuse bounds d (.notNames d)
  | d => .error (.notIterable d)

def level (d : Data) : Except Problem LogLevel :=
  match d with
  | .text s =>
    match LogLevel.ofName? (String.ofList (s.toList.map upperChar)) with
    | some l => .ok l
    | none => refuse bounds d (.unknownLevel d)
  | d => refuse bounds d (.unknownLevel d)

/-- The configuration that the values of the fields form, or the first problem: limits are checked
first, then flags, names and the level. -/
def check (values : Field → Data) : Except Problem Config := do
  let maxErrors ← limit bounds Field.maxErrors.key (values .maxErrors)
  let maxCallDepth ← limit bounds Field.maxCallDepth.key (values .maxCallDepth)
  let allow ← flag bounds Field.allowLocalRedeclaration.key (values .allowLocalRedeclaration)
  let warn ← flag bounds Field.warnUndefinedGlobals.key (values .warnUndefinedGlobals)
  let natives ← names bounds (values .natives)
  let logLevel ← level bounds (values .logLevel)
  return {
    maxErrors := maxErrors
    allowLocalRedeclaration := allow
    warnUndefinedGlobals := warn
    natives := natives
    maxCallDepth := maxCallDepth
    logLevel := logLevel }

end

theorem namesOf?_map_text (names : List String) : namesOf? (names.map .text) = some names := by
  induction names with
  | nil => rfl
  | cons n ns ih => simp [namesOf?, ih]

theorem level_name (bounds : Data.Bounds) (l : LogLevel) : level bounds (.text l.name) = .ok l := by
  cases l <;> rfl

theorem check_get (bounds : Data.Bounds) (c : Config) : check bounds c.get = .ok c := by
  obtain ⟨⟨m, hm⟩, allow, warn, natives, ⟨d, hd⟩, l⟩ := c
  have hm' : limit bounds Field.maxErrors.key (.integer m) = .ok ⟨m, hm⟩ := by simp [limit, hm]
  have hd' : limit bounds Field.maxCallDepth.key (.integer d) = .ok ⟨d, hd⟩ := by simp [limit, hd]
  have hn : names bounds (match natives with | none => .null | some ns => .list (ns.map .text)) =
      .ok natives := by
    cases natives with
    | none => rfl
    | some ns => simp [names, namesOf?_map_text]
  simp only [check, get, hm', hd', hn, level_name, flag, bind, Except.bind, pure, Except.pure]

end Lox.Config
