import Lox.Source.Position

/-!
# Syntax trees

The trees of programs. They are indexed by what is known at each variable reference: `Unit` in a
tree as it was written, the number of scopes to its declaration (or none, for a global) in a tree
whose names are resolved. A `for` loop has no node of its own: it is a `while` loop in a block.
-/

namespace Lox

/-! ### Operators -/

inductive UnaryOp where
  | negate
  | not
deriving DecidableEq, Repr, Inhabited

inductive BinaryOp where
  | add
  | subtract
  | multiply
  | divide
  | equal
  | notEqual
  | less
  | lessEqual
  | greater
  | greaterEqual
deriving DecidableEq, Repr, Inhabited

inductive LogicalOp where
  | and
  | or
deriving DecidableEq, Repr, Inhabited

def UnaryOp.symbol : UnaryOp → String
  | .negate => "-"
  | .not => "!"

def BinaryOp.symbol : BinaryOp → String
  | .add => "+"
  | .subtract => "-"
  | .multiply => "*"
  | .divide => "/"
  | .equal => "=="
  | .notEqual => "!="
  | .less => "<"
  | .lessEqual => "<="
  | .greater => ">"
  | .greaterEqual => ">="

def LogicalOp.symbol : LogicalOp → String
  | .and => "and"
  | .or => "or"

theorem BinaryOp.symbol_injective (a b : BinaryOp) (h : a.symbol = b.symbol) : a = b := by
  cases a <;> cases b <;> first | rfl | exact absurd h (by decide)

/-! ### Expressions -/

inductive Literal where
  | nil
  | boolean (b : Bool)
  | number (x : Float)
  | string (s : String)
deriving Repr, Inhabited

/-- Expressions; `ρ` is what is known about the scope of a reference. -/
inductive Expr (ρ : Type) where
  | literal (span : Span) (value : Literal)
  | varRef (span : Span) (name : String) (ref : ρ)
  | assign (span : Span) (name : String) (ref : ρ) (value : Expr ρ)
  | unary (span : Span) (op : UnaryOp) (operand : Expr ρ)
  | binary (span : Span) (op : BinaryOp) (left right : Expr ρ)
  | logical (span : Span) (op : LogicalOp) (left right : Expr ρ)
  | call (span : Span) (callee : Expr ρ) (arguments : List (Expr ρ))
  | group (span : Span) (inner : Expr ρ)
deriving Inhabited

namespace Expr

variable {ρ : Type}

def span : Expr ρ → Span
  | .literal s _ | .varRef s _ _ | .assign s _ _ _ | .unary s _ _ | .binary s _ _ _
  | .logical s _ _ _ | .call s _ _ | .group s _ => s

mutual

def height : Expr ρ → Nat
  | .literal _ _ | .varRef _ _ _ => 1
  | .assign _ _ _ e | .unary _ _ e | .group _ e => e.height + 1
  | .binary _ _ l r | .logical _ _ l r => max l.height r.height + 1
  | .call _ f args => max f.height (heightAll args) + 1

def heightAll : List (Expr ρ) → Nat
  | [] => 0
  | e :: es => max e.height (heightAll es)

end

end Expr

/-! ### Statements -/

structure Parameter where
  span : Span
  name : String
deriving DecidableEq, Repr, Inhabited

/-- Statements; `ρ` is what is known about the scope of a reference. -/
inductive Stmt (ρ : Type) where
  | expression (span : Span) (e : Expr ρ)
  | print (span : Span) (e : Expr ρ)
  | varDecl (span : Span) (name : String) (initializer : Option (Expr ρ))
  | block (span : Span) (body : List (Stmt ρ))
  | conditional (span : Span) (condition : Expr ρ) (thenBranch : Stmt ρ)
      (elseBranch : Option (Stmt ρ))
  | loop (span : Span) (condition : Expr ρ) (body : Stmt ρ)
  | funDecl (span : Span) (name : String) (params : List Parameter) (body : List (Stmt ρ))
  | ret (span : Span) (value : Option (Expr ρ))
deriving Inhabited

namespace Stmt

variable {ρ : Type}

def span : Stmt ρ → Span
  | .expression s _ | .print s _ | .varDecl s _ _ | .block s _ | .conditional s _ _ _
  | .loop s _ _ | .funDecl s _ _ _ | .ret s _ => s

mutual

/-- The number of nodes on the longest path down a statement. -/
def height : Stmt ρ → Nat
  | .expression _ e | .print _ e => e.height + 1
  | .varDecl _ _ none | .ret _ none => 1
  | .varDecl _ _ (some e) | .ret _ (some e) => e.height + 1
  | .conditional _ c t none => max c.height t.height + 1
  | .conditional _ c t (some e) => max c.height (max t.height e.height) + 1
  | .loop _ c b => max c.height b.height + 1
  | .block _ body | .funDecl _ _ _ body => heightAll body + 1

def heightAll : List (Stmt ρ) → Nat
  | [] => 0
  | s :: ss => max s.height (heightAll ss)

end

/-- The name that a declaration makes, if the statement is one. -/
def declared? : Stmt ρ → Option String
  | .varDecl _ name _ | .funDecl _ name _ _ => some name
  | _ => none

end Stmt

structure Program (ρ : Type) where
  span : Span
  statements : List (Stmt ρ)
deriving Inhabited

end Lox
