import Lox.Decimal.Notation
import Lox.Environment
import Lox.Syntax.Basic
import Lox.Text.Quoted

/-!
# Values

What expressions evaluate to: nil, booleans, numbers, strings and functions. Values of different
kinds are never equal. A function is either built in or declared in a program together with the
environment of its declaration; two functions are equal only if they are one and the same.
-/

namespace Lox

abbrev ResolvedStmt : Type := Stmt (Option Nat)

abbrev ResolvedExpr : Type := Expr (Option Nat)

/-- A function declared in a program, closed over the environment of its declaration. -/
structure Closure where
  name : String
  params : List Parameter
  body : List ResolvedStmt
  env : Environment
deriving Inhabited

/-- What can be called. A built-in function is known by its name; what it does is kept elsewhere. -/
inductive Callable where
  | native (name : String) (arity : Nat)
  | closure (c : Closure)
deriving Inhabited

namespace Callable

def name : Callable → String
  | native name _ => name
  | closure c => c.name

def arity : Callable → Nat
  | native _ arity => arity
  | closure c => c.params.length

def text : Callable → String
  | native name _ => "<native fn " ++ name ++ ">"
  | closure c => "<fn " ++ c.name ++ ">"

end Callable

/-- The value of an expression; functions carry a number that tells them apart. -/
inductive Value where
  | nil
  | boolean (b : Bool)
  | number (x : Float)
  | string (s : String)
  | function (id : Nat) (f : Callable)
deriving Inhabited

inductive Kind where
  | nil
  | boolean
  | number
  | string
  | function
deriving DecidableEq, Repr, Inhabited

def Kind.name : Kind → String
  | nil => "nil"
  | boolean => "boolean"
  | number => "number"
  | string => "string"
  | function => "function"

namespace Value

def kind : Value → Kind
  | nil => .nil
  | boolean _ => .boolean
  | number _ => .number
  | string _ => .string
  | function _ _ => .function

def ofLiteral : Literal → Value
  | .nil => nil
  | .boolean b => boolean b
  | .number x => number x
  | .string s => string s

def isTruthy : Value → Bool
  | nil => false
  | boolean b => b
  | _ => true

/-- Equality as programs see it. Numbers compare by value, so not-a-number differs from itself and
the two zeros are equal. -/
def equals : Value → Value → Bool
  | nil, nil => true
  | boolean a, boolean b => a == b
  | number x, number y => x == y
  | string s, string t => s == t
  | function i _, function j _ => i == j
  | _, _ => false

theorem equals_of_kind_ne {a b : Value} (h : a.kind ≠ b.kind) : a.equals b = false := by
  cases a <;> cases b <;> first | rfl | exact absurd rfl h

def text : Value → String
  | nil => "nil"
  | boolean b => if b then "true" else "false"
  | number x => Decimal.plain x
  | string s => s
  | function _ f => f.text

end Value

end Lox
