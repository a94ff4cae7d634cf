import Lox.Source.Lines
import Lox.Source.Position

/-!
# Diagnostics

What the stages of the interpreter report about a program: a code, a message, the place it is about
and, if known, the line of source found there. `Diagnostic.render` lays one out for reading, with
carets below the place.
-/

namespace Lox

inductive Severity where
  | error
  | warning
  | info
  | hint
deriving DecidableEq, Repr, Inhabited

def Severity.word : Severity → String
  | .error => "error"
  | .warning => "warning"
  | .info => "info"
  | .hint => "hint"

/-- A remark on a second place that belongs to a diagnostic. -/
structure Note where
  message : String
  span : Span
deriving DecidableEq, Repr, Inhabited

structure Diagnostic where
  code : String
  message : String
  severity : Severity
  span : Span
  sourceLine : Option String := none
  hints : List String := []
  notes : List Note := []
deriving DecidableEq, Repr, Inhabited

namespace Diagnostic

def ofNote (code : String) (n : Note) : Diagnostic where
  code := code
  message := n.message
  severity := .info
  span := n.span

def isError (d : Diagnostic) : Bool := d.severity == .error

def isWarning (d : Diagnostic) : Bool := d.severity == .warning

/-- The diagnostic with its line of source looked up, unless it has one. -/
def withSource (d : Diagnostic) (source : String) : Diagnostic :=
  match d.sourceLine with
  | some _ => d
  | none => { d with sourceLine := Source.line? source d.span.first.line }

theorem withSource_idem (d : Diagnostic) (source : String) :
    (d.withSource source).withSource source = d.withSource source := by
  unfold withSource
  cases h : d.sourceLine with
  | some s => simp [h]
  | none => cases hl : Source.line? source d.span.first.line <;> simp

/-! ### Layout -/

/-- The number of carets below a quoted line: up to the end of the span, or up to the end of the
line where the span goes on to another line, and at least one. -/
def caretCount (span : Span) (sourceLine : String) : Nat :=
  let stop :=
    if span.first.line = span.last.line then span.last.column else sourceLine.length + 1
  max 1 (stop - span.first.column)

def lineNumberText (n : Nat) : String :=
  let digits := toString n
  String.ofList (List.replicate (3 - digits.length) ' ') ++ digits

def excerpt (span : Span) (sourceLine : String) : List String :=
  let carets := List.replicate (span.first.column - 1) ' ' ++
    List.replicate (caretCount span sourceLine) '^'
  ["  |",
    lineNumberText span.first.line ++ " | " ++ sourceLine,
    "    | " ++ String.ofList carets]

/-- The diagnostic in full: where and what, the excerpt, the hints, the notes. -/
def render (d : Diagnostic) (showSource : Bool := true) : String :=
  let header := d.span.startText ++ ": " ++ d.severity.word ++ "[" ++ d.code ++ "]: " ++ d.message
  let quoted :=
    match showSource, d.sourceLine with
    | true, some line => excerpt d.span line
    | _, _ => []
  let hints := d.hints.map fun h => "    = hint: " ++ h
  let notes := d.notes.map fun n => "    --> " ++ n.span.startText ++ ": " ++ n.message
  "\n".intercalate (header :: (quoted ++ hints ++ notes))

end Diagnostic

end Lox
