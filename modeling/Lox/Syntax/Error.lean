import Lox.Diagnostic.Basic
import Lox.Text.Quoted

/-!
# Syntax errors

What the parser finds wrong with a program. The end of a program has no line to quote; every other
error quotes the line it begins on, if the text of the program is at hand.
-/

namespace Lox

/-- Why a sequence of tokens is no program. -/
inductive SyntaxError where
  | unexpectedToken (expected found : String)
  | unexpectedEnd (expected : String)
  | invalidAssignmentTarget
  | tooMany (what : String) (limit : Nat)
  | reservedKeyword (word : String)
  | nestingTooDeep
deriving DecidableEq, Repr, Inhabited

namespace SyntaxError

def code : SyntaxError → String
  | unexpectedToken _ _ => "E101"
  | unexpectedEnd _ => "E102"
  | invalidAssignmentTarget => "E103"
  | tooMany _ _ => "E104"
  | reservedKeyword _ => "E105"
  | nestingTooDeep => "E106"

def message : SyntaxError → String
  | unexpectedToken expected found => "expected " ++ expected ++ ", found " ++ found
  | unexpectedEnd expected => "unexpected end of file, expected " ++ expected
  | invalidAssignmentTarget => "invalid assignment target"
  | tooMany what limit => "can't have more than " ++ toString limit ++ " " ++ what
  | reservedKeyword word => "'" ++ word ++ "' is reserved and not supported"
  | nestingTooDeep => "nesting too deep"

def hints : SyntaxError → List String
  | invalidAssignmentTarget => ["only variables can be assigned to"]
  | nestingTooDeep => ["split deeply nested code into functions"]
  | _ => []

def quotesLine : SyntaxError → Bool
  | unexpectedEnd _ => false
  | _ => true

end SyntaxError

structure SyntaxFault where
  error : SyntaxError
  span : Span
deriving DecidableEq, Repr, Inhabited

def SyntaxFault.diagnostic (source : Option String) (f : SyntaxFault) : Diagnostic where
  code := f.error.code
  message := f.error.message
  severity := .error
  span := f.span
  sourceLine :=
    if f.error.quotesLine then source.bind fun text => Source.line? text f.span.first.line else none
  hints := f.error.hints

end Lox
