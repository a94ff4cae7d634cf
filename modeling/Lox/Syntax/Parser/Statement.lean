import Lox.Syntax.Parser.Expression

/-!
# Statements and declarations

The grammar of statements. A declaration that is rejected is left out and the parse goes on behind
it; this happens at every level, so an error inside a block costs no more than one statement of it. A
`for` loop is read as the `while` loop it means.
-/

namespace Lox.Parser

abbrev RawStmt : Type := Stmt Unit

/-! ### Parts that may be left out -/

/-- Something that is there if a token of the given kind stands in front of it. -/
def optionally {α : Type} (kind : TokenKind) (rule : Rule α) : Rule (Option α) := do
  if ← accept kind then some <$> rule else return none

/-- Something that is left out if a token of the given kind stands in its place. -/
def unlessAt {α : Type} (kind : TokenKind) (rule : Rule α) : Rule (Option α) := do
  if (← peek) = kind then return none else some <$> rule

/-! ### Simple statements -/

/-- The rest of `var name = initializer;` behind the keyword `start`. -/
def varDeclaration (expr : Rule RawExpr) (start : Token) : Rule RawStmt := do
  let name ← expect .identifier "variable name"
  let initializer ← optionally .assign expr
  let _ ← expect .semicolon "';' after variable declaration"
  return .varDecl (← spanFrom start) name.lexeme initializer

def printStatement (expr : Rule RawExpr) (start : Token) : Rule RawStmt := do
  let value ← expr
  let _ ← expect .semicolon "';' after value"
  return .print (← spanFrom start) value

/-- The rest of `return value;` behind the keyword `start`. -/
def returnStatement (expr : Rule RawExpr) (start : Token) : Rule RawStmt := do
  let value ← unlessAt .semicolon expr
  let _ ← expect .semicolon "';' after return value"
  return .ret (← spanFrom start) value

def expressionStatement (expr : Rule RawExpr) (start : Token) (expected : String) :
    Rule RawStmt := do
  let e ← expr
  let _ ← expect .semicolon expected
  return .expression (← spanFrom start) e

/-! ### Statements with parts -/

/-- Declarations up to the closing brace or the end of the program; rejected ones are left out. -/
def blockItems (item : Rule (Option RawStmt)) : Nat → Rule (List RawStmt)
  | 0 => pure []
  | n + 1 => do
    let kind ← peek
    if kind = .rightBrace ∨ kind = .endOfInput then return []
    let first ← item
    let rest ← blockItems item n
    return first.toList ++ rest

def blockBody (item : Rule (Option RawStmt)) : Rule (List RawStmt) := do
  let items ← blockItems item (← remaining)
  let _ ← expect .rightBrace "'\x7d' after block"
  return items

def ifStatement (expr : Rule RawExpr) (statement : Rule RawStmt) (start : Token) :
    Rule RawStmt := do
  let _ ← expect .leftParen "'(' after 'if'"
  let condition ← expr
  let _ ← expect .rightParen "')' after if condition"
  let thenBranch ← statement
  let elseBranch ← optionally .kwElse statement
  return .conditional (← spanFrom start) condition thenBranch elseBranch

def whileStatement (expr : Rule RawExpr) (statement : Rule RawStmt) (start : Token) :
    Rule RawStmt := do
  let _ ← expect .leftParen "'(' after 'while'"
  let condition ← expr
  let _ ← expect .rightParen "')' after condition"
  let body ← statement
  return .loop (← spanFrom start) condition body

/-! ### Loops with a head -/

/-- The loop that `for (initializer; condition; increment) body` means: the increment follows the
body in a block of its own, a missing condition is true, and a block around the loop holds the
variable of the initializer. -/
def forLoop (keyword span : Span) (initializer : Option RawStmt) (condition increment : Option RawExpr)
    (body : RawStmt) : RawStmt :=
  let step :=
    match increment with
    | none => body
    | some e => .block span [body, .expression e.span e]
  let loop : RawStmt :=
    .loop span (condition.getD (.literal keyword (.boolean true))) step
  match initializer with
  | none => loop
  | some s => .block span [s, loop]

def forInitializer (expr : Rule RawExpr) : Rule (Option RawStmt) := do
  let start ← current
  if ← accept .semicolon then return none
  if ← accept .kwVar then some <$> varDeclaration expr start
  else some <$> expressionStatement expr start "';' after loop initializer"

def forStatement (expr : Rule RawExpr) (statement : Rule RawStmt) (start : Token) :
    Rule RawStmt := do
  let _ ← expect .leftParen "'(' after 'for'"
  let initializer ← forInitializer expr
  let condition ← unlessAt .semicolon expr
  let _ ← expect .semicolon "';' after loop condition"
  let increment ← unlessAt .rightParen expr
  let _ ← expect .rightParen "')' after for clauses"
  let body ← statement
  return forLoop start.span (← spanFrom start) initializer condition increment body

/-! ### Declarations -/

def parameter : Rule Parameter := do
  let token ← expect .identifier "parameter name"
  return ⟨token.span, token.lexeme⟩

def funDeclaration (item : Rule (Option RawStmt)) (start : Token) : Rule RawStmt := do
  let name ← expect .identifier "function name"
  let _ ← expect .leftParen "'(' after function name"
  let params ← listed "parameters" parameter
  let _ ← expect .rightParen "')' after parameters"
  let _ ← expect .leftBrace "'\x7b' before function body"
  let body ← blockBody item
  return .funDecl (← spanFrom start) name.lexeme params body

mutual

/-- A statement that is no declaration; the number bounds how deep it nests. -/
def statement : Nat → Rule RawStmt
  | 0 => throw .tooDeep
  | depth + 1 => do
    let start ← current
    match start.kind with
    | .kwPrint => let _ ← advance; printStatement (expression depth) start
    | .kwReturn => let _ ← advance; returnStatement (expression depth) start
    | .kwIf => let _ ← advance; ifStatement (expression depth) (statement depth) start
    | .kwWhile => let _ ← advance; whileStatement (expression depth) (statement depth) start
    | .kwFor => let _ ← advance; forStatement (expression depth) (statement depth) start
    | .leftBrace =>
      let _ ← advance
      let body ← blockBody (declaration depth)
      return .block (← spanFrom start) body
    | kind =>
      if kind.isReserved then reject (.reservedKeyword start.lexeme) start.span
      else expressionStatement (expression depth) start "';' after expression"

/-- A declaration or statement, nothing if it was rejected; the number bounds how deep it nests. The
initializer of a variable stands as deep as the expression of a statement. -/
def declaration : Nat → Rule (Option RawStmt)
  | 0 => throw .tooDeep
  | depth + 1 => recovering do
    let start ← current
    match start.kind with
    | .kwFun => let _ ← advance; funDeclaration (declaration depth) start
    | .kwVar => let _ ← advance; varDeclaration (expression (depth - 1)) start
    | _ => statement depth

end

end Lox.Parser
