import Lox.Syntax.Parser.Statement

/-!
# Programs

A program is parsed declaration by declaration up to its end. The parse stops early at a declaration
that nests deeper than the limit and once there are too many errors; what was accepted so far is kept
beside the errors.
-/

namespace Lox.Parser

def errorLimit : Nat := 20

/-- What a parse has found: the accepted declarations, and the errors in the order they were noted. -/
structure Outcome where
  program : Program Unit
  faults : List SyntaxFault
deriving Inhabited

def Outcome.isFull (o : Outcome) : Bool := decide (errorLimit ≤ o.faults.length)

/-- The accepted declarations from a state on, at most `n` of them tried, and the last state. -/
def declarations (limit : Nat) : Nat → State → List RawStmt × State
  | 0, s => ([], s)
  | n + 1, s =>
    if s.current.isEnd then ([], s)
    else
      match declaration limit s with
      | .error _ s' =>
        ([], { s' with faults := ⟨.nestingTooDeep, s'.current.span⟩ :: s'.faults })
      | .ok accepted s' =>
        if errorLimit ≤ s'.faults.length then (accepted.toList, s')
        else
          let (rest, last) := declarations limit n s'
          (accepted.toList ++ rest, last)

/-- What is found in the tokens of a program that may nest to the given depth. -/
def parseProgram (limit : Nat) : List Token → Outcome
  | [] => ⟨⟨Span.nowhere, []⟩, []⟩
  | t :: ts =>
    let start : State := ⟨t, t, ts, []⟩
    let (statements, last) := declarations limit start.remaining start
    ⟨⟨t.span.join last.previous.span, statements⟩, last.faults.reverse⟩

def parse (limit : Nat) (tokens : List Token) : Except (List SyntaxFault) (Program Unit) :=
  let outcome := parseProgram limit tokens
  if outcome.faults.isEmpty then .ok outcome.program else .error outcome.faults

end Lox.Parser
