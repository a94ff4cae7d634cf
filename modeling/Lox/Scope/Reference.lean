import Lox.Syntax.Basic

/-!
# The references of a program

The places where a program reads or assigns a variable, in the order in which they are written down
in its tree: an assignment before its value, operands from left to right. Numbered in this order, the
references of a program are told apart even where name and place are the same.
-/

namespace Lox

/-- A place where a variable is read or assigned. -/
structure Reference (ρ : Type) where
  assigns : Bool
  name : String
  span : Span
  ref : ρ
deriving Repr

variable {ρ τ : Type}

mutual

def Expr.references : Expr ρ → List (Reference ρ)
  | .literal _ _ => []
  | .varRef span name ref => [⟨false, name, span, ref⟩]
  | .assign span name ref value => ⟨true, name, span, ref⟩ :: value.references
  | .unary _ _ operand => operand.references
  | .binary _ _ left right | .logical _ _ left right => left.references ++ right.references
  | .call _ callee arguments => callee.references ++ Expr.referencesAll arguments
  | .group _ inner => inner.references

def Expr.referencesAll : List (Expr ρ) → List (Reference ρ)
  | [] => []
  | e :: es => e.references ++ Expr.referencesAll es

end

mutual

def Stmt.references : Stmt ρ → List (Reference ρ)
  | .expression _ e | .print _ e | .varDecl _ _ (some e) | .ret _ (some e) => e.references
  | .varDecl _ _ none | .ret _ none => []
  | .block _ body | .funDecl _ _ _ body => Stmt.referencesAll body
  | .conditional _ c t none => c.references ++ t.references
  | .conditional _ c t (some e) => c.references ++ t.references ++ e.references
  | .loop _ c b => c.references ++ b.references

def Stmt.referencesAll : List (Stmt ρ) → List (Reference ρ)
  | [] => []
  | s :: ss => s.references ++ Stmt.referencesAll ss

end

def Program.references (p : Program ρ) : List (Reference ρ) := Stmt.referencesAll p.statements

def Program.localCount (p : Program (Option Nat)) : Nat :=
  p.references.countP fun r => r.ref.isSome

/-! ### Labels -/

mutual

def Expr.map (f : ρ → τ) : Expr ρ → Expr τ
  | .literal span v => .literal span v
  | .varRef span name ref => .varRef span name (f ref)
  | .assign span name ref value => .assign span name (f ref) (value.map f)
  | .unary span op operand => .unary span op (operand.map f)
  | .binary span op left right => .binary span op (left.map f) (right.map f)
  | .logical span op left right => .logical span op (left.map f) (right.map f)
  | .call span callee arguments => .call span (callee.map f) (Expr.mapAll f arguments)
  | .group span inner => .group span (inner.map f)

def Expr.mapAll (f : ρ → τ) : List (Expr ρ) → List (Expr τ)
  | [] => []
  | e :: es => e.map f :: Expr.mapAll f es

end

mutual

def Stmt.map (f : ρ → τ) : Stmt ρ → Stmt τ
  | .expression span e => .expression span (e.map f)
  | .print span e => .print span (e.map f)
  | .varDecl span name initializer => .varDecl span name (initializer.map (·.map f))
  | .block span body => .block span (Stmt.mapAll f body)
  | .conditional span c t none => .conditional span (c.map f) (t.map f) none
  | .conditional span c t (some e) => .conditional span (c.map f) (t.map f) (some (e.map f))
  | .loop span c b => .loop span (c.map f) (b.map f)
  | .funDecl span name params body => .funDecl span name params (Stmt.mapAll f body)
  | .ret span value => .ret span (value.map (·.map f))

def Stmt.mapAll (f : ρ → τ) : List (Stmt ρ) → List (Stmt τ)
  | [] => []
  | s :: ss => s.map f :: Stmt.mapAll f ss

end

def Program.map (f : ρ → τ) (p : Program ρ) : Program τ := ⟨p.span, Stmt.mapAll f p.statements⟩

/-! ### Numbers -/

def nextNumber : StateM Nat Nat := modifyGet fun n => (n, n + 1)

mutual

def Expr.number : Expr ρ → StateM Nat (Expr Nat)
  | .literal span v => return .literal span v
  | .varRef span name _ => return .varRef span name (← nextNumber)
  | .assign span name _ value => do
    let n ← nextNumber
    return .assign span name n (← value.number)
  | .unary span op operand => return .unary span op (← operand.number)
  | .binary span op left right => do
    let left ← left.number
    return .binary span op left (← right.number)
  | .logical span op left right => do
    let left ← left.number
    return .logical span op left (← right.number)
  | .call span callee arguments => do
    let callee ← callee.number
    return .call span callee (← Expr.numberAll arguments)
  | .group span inner => return .group span (← inner.number)

def Expr.numberAll : List (Expr ρ) → StateM Nat (List (Expr Nat))
  | [] => return []
  | e :: es => do
    let e ← e.number
    return e :: (← Expr.numberAll es)

end

def Expr.numberOptional : Option (Expr ρ) → StateM Nat (Option (Expr Nat))
  | none => return none
  | some e => return some (← e.number)

mutual

def Stmt.number : Stmt ρ → StateM Nat (Stmt Nat)
  | .expression span e => return .expression span (← e.number)
  | .print span e => return .print span (← e.number)
  | .varDecl span name initializer =>
    return .varDecl span name (← Expr.numberOptional initializer)
  | .block span body => return .block span (← Stmt.numberAll body)
  | .conditional span c t none => do
    let c ← c.number
    return .conditional span c (← t.number) none
  | .conditional span c t (some e) => do
    let c ← c.number
    let t ← t.number
    return .conditional span c t (some (← e.number))
  | .loop span c b => do
    let c ← c.number
    return .loop span c (← b.number)
  | .funDecl span name params body => return .funDecl span name params (← Stmt.numberAll body)
  | .ret span value => return .ret span (← Expr.numberOptional value)

def Stmt.numberAll : List (Stmt ρ) → StateM Nat (List (Stmt Nat))
  | [] => return []
  | s :: ss => do
    let s ← s.number
    return s :: (← Stmt.numberAll ss)

end

def Program.numbered (p : Program ρ) : Program Nat := ⟨p.span, ((Stmt.numberAll p.statements).run 0).1⟩

end Lox
