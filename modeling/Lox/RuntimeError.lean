import Lox.Diagnostic.Basic
import Lox.Value

/-!
# Runtime errors

What stops a program while it runs.
-/

namespace Lox

inductive RuntimeError where
  | undefinedVariable (name : String)
  | operandTypes (operator : String) (kinds : List Kind) (expected : String)
  | notCallable (kind : Kind)
  | arityMismatch (name : String) (expected got : Nat)
  | divisionByZero
  | nativeFailure (name message : String)
  | stackOverflow
  /-- The stack of the host is used up, whatever number of calls is in progress. -/
  | stackExhausted
deriving DecidableEq, Repr, Inhabited

namespace RuntimeError

def code : RuntimeError → String
  | undefinedVariable _ => "E401"
  | operandTypes _ _ _ => "E402"
  | notCallable _ => "E403"
  | arityMismatch _ _ _ => "E404"
  | divisionByZero => "E405"
  | nativeFailure _ _ => "E406"
  | stackOverflow | stackExhausted => "E407"

def operandText : List Kind → String
  | [kind] => "operand of kind " ++ kind.name
  | kinds => "operands of kind " ++ " and ".intercalate (kinds.map Kind.name)

def message : RuntimeError → String
  | undefinedVariable name => "undefined variable '" ++ name ++ "'"
  | operandTypes operator kinds _ =>
    "operator '" ++ operator ++ "' does not accept " ++ operandText kinds
  | notCallable kind =>
    "can only call functions, value of kind " ++ kind.name ++ " is not callable"
  | arityMismatch name expected got =>
    "'" ++ name ++ "' expected " ++ toString expected ++ " argument(s) but got " ++ toString got
  | divisionByZero => "division by zero"
  | nativeFailure name message => "in built-in '" ++ name ++ "': " ++ message
  | stackOverflow | stackExhausted => "stack overflow"

def hints : RuntimeError → List String
  | operandTypes operator _ expected => ["'" ++ operator ++ "' expects " ++ expected]
  | stackOverflow | stackExhausted => ["check for unbounded recursion"]
  | _ => []

def diagnostic (e : RuntimeError) (span : Span) : Diagnostic where
  code := e.code
  message := e.message
  severity := .error
  span := span
  hints := e.hints

end RuntimeError

end Lox
