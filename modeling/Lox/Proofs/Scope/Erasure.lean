import Lox.Proofs.Scope.Lexical

/-!
# Trees without labels

With all its labels forgotten, a tree no longer tells in which scopes it was labelled.
-/

namespace Lox

variable {ρ τ υ : Type}

mutual

theorem Expr.map_const_annotate (u : υ) (f : ρ → Option Nat → τ) (scopes : List (List String))
    (e : Expr ρ) : (e.annotate f scopes).map (fun _ => u) = e.map fun _ => u := by
  cases e with
  | literal | varRef => rfl
  | assign span name ref value =>
    simp only [Expr.annotate, Expr.map, Expr.map_const_annotate u f scopes value]
  | unary span op operand =>
    simp only [Expr.annotate, Expr.map, Expr.map_const_annotate u f scopes operand]
  | binary span op left right | logical span op left right =>
    simp only [Expr.annotate, Expr.map, Expr.map_const_annotate u f scopes left,
      Expr.map_const_annotate u f scopes right]
  | call span callee arguments =>
    simp only [Expr.annotate, Expr.map, Expr.map_const_annotate u f scopes callee,
      Expr.mapAll_const_annotateAll u f scopes arguments]
  | group span inner => simp only [Expr.annotate, Expr.map, Expr.map_const_annotate u f scopes inner]

theorem Expr.mapAll_const_annotateAll (u : υ) (f : ρ → Option Nat → τ) (scopes : List (List String))
    (es : List (Expr ρ)) :
    Expr.mapAll (fun _ => u) (Expr.annotateAll f scopes es) = Expr.mapAll (fun _ => u) es := by
  cases es with
  | nil => rfl
  | cons e es =>
    simp only [Expr.annotateAll, Expr.mapAll, Expr.map_const_annotate u f scopes e,
      Expr.mapAll_const_annotateAll u f scopes es]

end

theorem Expr.mapOptional_const_annotate (u : υ) (f : ρ → Option Nat → τ)
    (scopes : List (List String)) (e : Option (Expr ρ)) :
    (e.map fun e => e.annotate f scopes).map (·.map fun _ => u) = e.map (·.map fun _ => u) := by
  cases e with
  | none => rfl
  | some e => simp only [Option.map_some, Expr.map_const_annotate]

mutual

theorem Stmt.map_const_annotate (u : υ) (f : ρ → Option Nat → τ) (s : Stmt ρ)
    (scopes : List (List String)) : (s.annotate f scopes).map (fun _ => u) = s.map fun _ => u := by
  cases s with
  | expression span e | print span e => simp only [Stmt.annotate, Stmt.map, Expr.map_const_annotate]
  | varDecl span name initializer =>
    simp only [Stmt.annotate, Stmt.map, Expr.mapOptional_const_annotate]
  | block span body => simp only [Stmt.annotate, Stmt.map, Stmt.mapAll_const_annotateAll u f body]
  | conditional span c t e =>
    cases e with
    | none =>
      simp only [Stmt.annotate, Stmt.map, Expr.map_const_annotate, Stmt.map_const_annotate u f t]
    | some e =>
      simp only [Stmt.annotate, Stmt.map, Expr.map_const_annotate, Stmt.map_const_annotate u f t,
        Stmt.map_const_annotate u f e]
  | loop span c b =>
    simp only [Stmt.annotate, Stmt.map, Expr.map_const_annotate, Stmt.map_const_annotate u f b]
  | funDecl span name params body =>
    simp only [Stmt.annotate, Stmt.map, Stmt.mapAll_const_annotateAll u f body]
  | ret span value => simp only [Stmt.annotate, Stmt.map, Expr.mapOptional_const_annotate]

theorem Stmt.mapAll_const_annotateAll (u : υ) (f : ρ → Option Nat → τ) (ss : List (Stmt ρ))
    (scopes : List (List String)) :
    Stmt.mapAll (fun _ => u) (Stmt.annotateAll f scopes ss) = Stmt.mapAll (fun _ => u) ss := by
  cases ss with
  | nil => rfl
  | cons s ss =>
    simp only [Stmt.annotateAll, Stmt.mapAll, Stmt.map_const_annotate u f s,
      Stmt.mapAll_const_annotateAll u f ss]

end

end Lox
