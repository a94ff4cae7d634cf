import Lox.Decimal.Notation
import Lox.Syntax.Basic

/-!
# Trees as text

A tree is printed with every node in parentheses, its head first. Literals stand for themselves:
strings in double quotes, integral numbers in full.
-/

namespace Lox

def parenthesized (head : String) (parts : List String) : String :=
  "(" ++ " ".intercalate (head :: parts) ++ ")"

def Literal.render : Literal → String
  | .nil => "nil"
  | .boolean b => if b then "true" else "false"
  | .number x => Decimal.exact x
  | .string s => "\"" ++ s ++ "\""

namespace Expr

variable {ρ : Type}

mutual

def render : Expr ρ → String
  | .literal _ v => v.render
  | .varRef _ name _ => name
  | .assign _ name _ e => parenthesized "=" [name, e.render]
  | .unary _ op e => parenthesized op.symbol [e.render]
  | .binary _ op l r => parenthesized op.symbol [l.render, r.render]
  | .logical _ op l r => parenthesized op.symbol [l.render, r.render]
  | .call _ f args => parenthesized "call" (f.render :: renderAll args)
  | .group _ e => parenthesized "group" [e.render]

def renderAll : List (Expr ρ) → List String
  | [] => []
  | e :: es => e.render :: renderAll es

end

theorem renderAll_eq_map (es : List (Expr ρ)) : renderAll es = es.map render := by
  induction es with
  | nil => rfl
  | cons e es ih => simp [renderAll, ih]

end Expr

namespace Stmt

variable {ρ : Type}

mutual

def render : Stmt ρ → String
  | .expression _ e => parenthesized ";" [e.render]
  | .print _ e => parenthesized "print" [e.render]
  | .varDecl _ name none => parenthesized "var" [name]
  | .varDecl _ name (some e) => parenthesized "var" [name, e.render]
  | .block _ body => parenthesized "block" (renderAll body)
  | .conditional _ c t none => parenthesized "if" [c.render, t.render]
  | .conditional _ c t (some e) => parenthesized "if" [c.render, t.render, e.render]
  | .loop _ c b => parenthesized "while" [c.render, b.render]
  | .funDecl _ name params body =>
    parenthesized "fun"
      (name :: ("(" ++ " ".intercalate (params.map Parameter.name) ++ ")") :: renderAll body)
  | .ret _ none => parenthesized "return" []
  | .ret _ (some e) => parenthesized "return" [e.render]

def renderAll : List (Stmt ρ) → List String
  | [] => []
  | s :: ss => s.render :: renderAll ss

end

theorem renderAll_eq_map (ss : List (Stmt ρ)) : renderAll ss = ss.map render := by
  induction ss with
  | nil => rfl
  | cons s ss ih => simp [renderAll, ih]

end Stmt

namespace Program

variable {ρ : Type}

def render (p : Program ρ) : String := "\n".intercalate (p.statements.map Stmt.render)

/-- A program as text, if the host gets to the end of its tree. -/
def render? (prints : Program ρ → Bool) (p : Program ρ) : Option String :=
  if prints p then some p.render else none

end Program

end Lox
