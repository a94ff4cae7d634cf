import Lox.Syntax.Error
import Lox.Token.Basic

/-!
# The state of a parse

A parse stands at one token, between the token taken last and the tokens ahead. It may note a syntax
error and go on, or be rejected with one; a program nested too deeply ends the parse as a whole.
Both ways the tokens taken so far stay taken.
-/

namespace Lox.Parser

/-- Where a parse stands and the errors noted so far, the latest first. -/
structure State where
  previous : Token
  current : Token
  ahead : List Token
  faults : List SyntaxFault
deriving Repr, Inhabited

inductive Failure where
  | rejected (fault : SyntaxFault)
  | tooDeep
deriving DecidableEq, Repr, Inhabited

/-- A rule of the grammar: it moves over tokens and gives a value or fails. -/
abbrev Rule (α : Type) : Type := EStateM Failure State α

/-- The number of tokens that are not taken yet, a bound on how often rules can be repeated. -/
def State.remaining (s : State) : Nat := s.ahead.length + 1

/-- The state behind the current token; the end of the program is never passed. -/
def State.step (s : State) : State :=
  if s.current.isEnd then s
  else
    match s.ahead with
    | [] => { s with previous := s.current }
    | t :: ts => { s with previous := s.current, current := t, ahead := ts }

theorem State.faults_step (s : State) : s.step.faults = s.faults := by
  unfold State.step
  split
  · rfl
  · cases s.ahead <;> rfl

/-! ### Looking and moving -/

def current : Rule Token := fun s => .ok s.current s

def peek : Rule TokenKind := fun s => .ok s.current.kind s

def previous : Rule Token := fun s => .ok s.previous s

def remaining : Rule Nat := fun s => .ok s.remaining s

def advance : Rule Token := fun s => .ok s.current s.step

def accept (kind : TokenKind) : Rule Bool := fun s =>
  if s.current.kind = kind then .ok true s.step else .ok false s

def spanFrom (start : Token) : Rule Span := fun s => .ok (start.span.join s.previous.span) s

/-! ### Failing -/

def report (error : SyntaxError) (span : Span) : Rule Unit := fun s =>
  .ok () { s with faults := ⟨error, span⟩ :: s.faults }

def reject {α : Type} (error : SyntaxError) (span : Span) : Rule α := fun s =>
  .error (.rejected ⟨error, span⟩) s

def unexpected {α : Type} (expected : String) : Rule α := fun s =>
  let error : SyntaxError :=
    if s.current.isEnd then .unexpectedEnd expected
    else .unexpectedToken expected (Text.quoted s.current.lexeme)
  reject error s.current.span s

def expect (kind : TokenKind) (expected : String) : Rule Token := fun s =>
  if s.current.kind = kind then advance s else unexpected expected s

/-! ### Recovering -/

/-- Skips tokens up to a likely beginning of a statement: behind a semicolon or at a keyword. -/
def skipToBoundary : Nat → Rule Unit
  | 0 => pure ()
  | n + 1 => fun s =>
    if s.current.isEnd || s.previous.kind == .semicolon || s.current.kind.beginsStatement then .ok () s
    else skipToBoundary n s.step

/-- Leaves a rejected declaration behind: the token it was rejected at and all up to the next
boundary. -/
def synchronize : Rule Unit := fun s => skipToBoundary s.remaining s.step

/-- Runs a rule; where it is rejected, notes the error, moves on and gives nothing. -/
def recovering {α : Type} (rule : Rule α) : Rule (Option α) := fun s =>
  match rule s with
  | .ok a s' => .ok (some a) s'
  | .error (.rejected fault) s' =>
    match synchronize { s' with faults := fault :: s'.faults } with
    | .ok () s'' => .ok none s''
    | .error e s'' => .error e s''
  | .error .tooDeep s' => .error .tooDeep s'

end Lox.Parser
