import Lox.Syntax.Basic
import Lox.Syntax.Parser.State

/-!
# Expressions

The grammar of expressions, one rule for each level of precedence from `assignment` (right
associative) over `or`, `and`, equality, comparison, sums and products (left associative) to unary
operators, calls and primary expressions. A rule that nests takes the rule for the nested expression
as an argument; `expression` ties the knot and counts how deep it goes. Chains on one level are
loops, so their length is not limited.
-/

namespace Lox.Parser

abbrev RawExpr : Type := Expr Unit

/-- The most arguments of a call and parameters of a function. -/
def maxArguments : Nat := 255

/-! ### Chains of operators -/

def chainFrom {α : Type} (op? : TokenKind → Option α) (build : Span → α → RawExpr → RawExpr → RawExpr)
    (operand : Rule RawExpr) : Nat → RawExpr → Rule RawExpr
  | 0, left => pure left
  | n + 1, left => do
    match op? (← peek) with
    | none => return left
    | some op =>
      let _ ← advance
      let right ← operand
      chainFrom op? build operand n (build (left.span.join right.span) op left right)

def chain {α : Type} (op? : TokenKind → Option α) (build : Span → α → RawExpr → RawExpr → RawExpr)
    (operand : Rule RawExpr) : Rule RawExpr := do
  let first ← operand
  chainFrom op? build operand (← remaining) first

def orOp? : TokenKind → Option LogicalOp
  | .kwOr => some .or
  | _ => none

def andOp? : TokenKind → Option LogicalOp
  | .kwAnd => some .and
  | _ => none

def equalityOp? : TokenKind → Option BinaryOp
  | .equal => some .equal
  | .notEqual => some .notEqual
  | _ => none

def comparisonOp? : TokenKind → Option BinaryOp
  | .less => some .less
  | .lessEqual => some .lessEqual
  | .greater => some .greater
  | .greaterEqual => some .greaterEqual
  | _ => none

def termOp? : TokenKind → Option BinaryOp
  | .plus => some .add
  | .minus => some .subtract
  | _ => none

def factorOp? : TokenKind → Option BinaryOp
  | .star => some .multiply
  | .slash => some .divide
  | _ => none

def unaryOp? : TokenKind → Option UnaryOp
  | .bang => some .not
  | .minus => some .negate
  | _ => none

/-! ### Primary expressions and calls -/

def primary (nested : Rule RawExpr) : Rule RawExpr := do
  let token ← current
  match token.kind with
  | .kwFalse => let _ ← advance; return .literal token.span (.boolean false)
  | .kwTrue => let _ ← advance; return .literal token.span (.boolean true)
  | .kwNil => let _ ← advance; return .literal token.span .nil
  | .number => let _ ← advance; return .literal token.span (.number token.numberValue)
  | .string => let _ ← advance; return .literal token.span (.string token.stringValue)
  | .identifier => let _ ← advance; return .varRef token.span token.lexeme ()
  | .leftParen =>
    let _ ← advance
    let inner ← nested
    let _ ← expect .rightParen "')' after expression"
    return .group (← spanFrom token) inner
  | kind =>
    if kind.isReserved then reject (.reservedKeyword token.lexeme) token.span
    else unexpected "expression"

/-- Notes an error at the current token if there are too many of something already. -/
def checkCount (count : Nat) (what : String) : Rule Unit := do
  if maxArguments ≤ count then
    report (.tooMany what maxArguments) (← current).span

def separated {α : Type} (what : String) (item : Rule α) : Nat → Nat → Rule (List α)
  | 0, _ => pure []
  | n + 1, taken => do
    checkCount taken what
    let first ← item
    if ← accept .comma then
      let rest ← separated what item n (taken + 1)
      return first :: rest
    else return [first]

/-- Items with commas between them, up to a closing parenthesis; there may be none. -/
def listed {α : Type} (what : String) (item : Rule α) : Rule (List α) := do
  if (← peek) = .rightParen then return []
  separated what item (← remaining) 0

def callsFrom (nested : Rule RawExpr) : Nat → RawExpr → Rule RawExpr
  | 0, callee => pure callee
  | n + 1, callee => do
    if ← accept .leftParen then
      let arguments ← listed "arguments" nested
      let paren ← expect .rightParen "')' after arguments"
      callsFrom nested n (.call (callee.span.join paren.span) callee arguments)
    else return callee

def call (nested : Rule RawExpr) : Rule RawExpr := do
  let callee ← primary nested
  callsFrom nested (← remaining) callee

/-! ### Levels of precedence -/

def disjunction (unary : Rule RawExpr) : Rule RawExpr :=
  chain orOp? .logical <|
    chain andOp? .logical <|
      chain equalityOp? .binary <|
        chain comparisonOp? .binary <|
          chain termOp? .binary <|
            chain factorOp? .binary unary

/-- Turns `target = value` into an assignment. Where the target is no variable an error is noted and
the target alone is kept. -/
def assignTo (target : RawExpr) (equals : Token) (value : RawExpr) : Rule RawExpr :=
  match target with
  | .varRef span name ref => pure (.assign (span.join value.span) name ref value)
  | _ => do
    report .invalidAssignmentTarget equals.span
    return target

mutual

/-- Unary operators before a call; the number bounds how deep they nest. -/
def unary : Nat → Rule RawExpr
  | 0 => throw .tooDeep
  | depth + 1 => do
    let token ← current
    match unaryOp? token.kind with
    | some op =>
      let _ ← advance
      let operand ← unary depth
      return .unary (← spanFrom token) op operand
    | none => call (expression depth)

def expression : Nat → Rule RawExpr
  | 0 => throw .tooDeep
  | depth + 1 => do
    let target ← disjunction (unary depth)
    let equals ← current
    if ← accept .assign then
      let value ← expression depth
      assignTo target equals value
    else return target

end

end Lox.Parser
