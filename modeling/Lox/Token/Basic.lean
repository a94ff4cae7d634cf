import Lox.Decimal.Reader
import Lox.Source.Position

/-!
# Tokens

The words of a program. A token keeps its kind, the text it was read from and its place; the value
of a number or a string is a function of that text.
-/

namespace Lox

inductive TokenKind where
  | number
  | string
  | identifier
  | kwAnd
  | kwClass
  | kwElse
  | kwFalse
  | kwFun
  | kwFor
  | kwIf
  | kwNil
  | kwOr
  | kwPrint
  | kwReturn
  | kwSuper
  | kwThis
  | kwTrue
  | kwVar
  | kwWhile
  | leftParen
  | rightParen
  | leftBrace
  | rightBrace
  | comma
  | dot
  | semicolon
  | plus
  | minus
  | star
  | slash
  | bang
  | assign
  | equal
  | notEqual
  | less
  | greater
  | lessEqual
  | greaterEqual
  | endOfInput
deriving DecidableEq, Repr, Inhabited

namespace TokenKind

def keywords : List (String × TokenKind) :=
  [("and", kwAnd), ("class", kwClass), ("else", kwElse), ("false", kwFalse), ("fun", kwFun),
    ("for", kwFor), ("if", kwIf), ("nil", kwNil), ("or", kwOr), ("print", kwPrint),
    ("return", kwReturn), ("super", kwSuper), ("this", kwThis), ("true", kwTrue), ("var", kwVar),
    ("while", kwWhile)]

def ofWord (word : String) : TokenKind := (keywords.lookup word).getD identifier

/-- Keywords that are set aside for objects, which the language does not have yet. -/
def isReserved : TokenKind → Bool
  | kwClass | kwSuper | kwThis => true
  | _ => false

def beginsStatement : TokenKind → Bool
  | kwClass | kwFun | kwVar | kwFor | kwIf | kwWhile | kwPrint | kwReturn => true
  | _ => false

end TokenKind

/-- A word of a program at its place. -/
structure Token where
  kind : TokenKind
  lexeme : String
  span : Span
deriving DecidableEq, Repr, Inhabited

namespace Token

def numberValue (t : Token) : Float := Decimal.ofLexeme t.lexeme.toList

/-- The text of a string token: what stands between its quotation marks. -/
def stringValue (t : Token) : String := String.ofList (t.lexeme.toList.drop 1).dropLast

def isEnd (t : Token) : Bool := t.kind == .endOfInput

end Token

end Lox
