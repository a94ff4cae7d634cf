import Lox.Proofs.Matching.Scopes

/-!
# Moved programs match

A resolved program matches itself, and every program that differs from it in places only: all scopes are
on both sides and all names are kept.
-/

namespace Lox

theorem lt_length_of_hopsIn {name : String} {scopes : List (List String)} {k : Nat}
    (h : hopsIn name scopes = some k) : k < scopes.length := by
  obtain ⟨⟨names, hk, -⟩, -⟩ := hopsIn_eq_some_iff.mp h
  exact (List.getElem?_eq_some_iff.mp hk).1

namespace Matching

variable {ρ : Type} {wraps : Prop}

/-- Scopes of both sides with the same names. -/
def sameSteps (n : Nat) : List Step := List.replicate n (.both (Equiv.refl String))

theorem find?_sameSteps {n k : Nat} (h : k < n) :
    find? (sameSteps n) k = some (k, Equiv.refl String) := by
  induction n generalizing k with
  | zero => exact absurd h (Nat.not_lt_zero k)
  | succ n ih =>
    cases k with
    | zero => rfl
    | succ k => exact congrArg (Option.map _) (ih (Nat.lt_of_succ_lt_succ h))

theorem here?_sameSteps (n : Nat) : here? (sameSteps n) = some (Equiv.refl String) := by
  cases n <;> rfl

theorem scopesMatch_same (scopes : List (List String)) :
    ScopesMatch (sameSteps scopes.length) scopes scopes := by
  induction scopes with
  | nil => exact .globals
  | cons names scopes ih => exact .both names ih

theorem stmtMatches_mapSpan (g : Span → Span) (s : Stmt ρ) (scopes : List (List String)) :
    StmtMatches wraps (sameSteps scopes.length) (s.annotate hopsLabel scopes)
      ((s.mapSpan g).annotate hopsLabel scopes) :=
  stmtMatches_annotate g s (scopesMatch_same scopes) fun _ => here?_sameSteps _

/-! ### Trees against themselves -/

theorem exprMatches_same (e : Expr ρ) (scopes : List (List String)) :
    ExprMatches (sameSteps scopes.length) (e.annotate hopsLabel scopes) (e.annotate hopsLabel scopes) := by
  have h := exprMatches_annotate id e (scopesMatch_same scopes)
  rwa [Expr.mapSpan_id] at h

theorem stmtMatches_same (s : Stmt ρ) (scopes : List (List String)) :
    StmtMatches wraps (sameSteps scopes.length) (s.annotate hopsLabel scopes)
      (s.annotate hopsLabel scopes) := by
  have h := @stmtMatches_mapSpan _ wraps id s scopes
  rwa [Stmt.mapSpan_id] at h

theorem stmtsMatch_same (ss : List (Stmt ρ)) (scopes : List (List String)) :
    StmtsMatch wraps (sameSteps scopes.length) (Stmt.annotateAll hopsLabel scopes ss)
      (Stmt.annotateAll hopsLabel scopes ss) := by
  have h := @stmtsMatch_annotateAll _ wraps id ss _ _ _ (scopesMatch_same scopes) (here?_sameSteps _)
  rwa [Stmt.mapSpanAll_id] at h

theorem exprMatches_self {e : ResolvedExpr} {scopes : List (List String)}
    (h : e.annotate hopsLabel scopes = e) : ExprMatches (sameSteps scopes.length) e e := by
  have hmatches := exprMatches_same e scopes
  rwa [h] at hmatches

theorem stmtMatches_self {s : ResolvedStmt} {scopes : List (List String)}
    (h : s.annotate hopsLabel scopes = s) : StmtMatches wraps (sameSteps scopes.length) s s := by
  have hmatches := @stmtMatches_same _ wraps s scopes
  rwa [h] at hmatches

theorem stmtsMatch_self {ss : List ResolvedStmt} {scopes : List (List String)}
    (h : Stmt.annotateAll hopsLabel scopes ss = ss) :
    StmtsMatch wraps (sameSteps scopes.length) ss ss := by
  have hmatches := @stmtsMatch_same _ wraps ss scopes
  rwa [h] at hmatches

/-! ### Programs -/

theorem programsMatch_mapSpan (wraps : Prop) (g : Span → Span) (ss : List (Stmt ρ)) :
    ProgramsMatch wraps (Stmt.annotateAll hopsLabel [] ss)
      (Stmt.annotateAll hopsLabel [] (Stmt.mapSpanAll g ss)) := by
  induction ss with
  | nil => exact .nil
  | cons s ss ih => exact .cons (stmtMatches_mapSpan g s []) ih

theorem programsMatch_self (wraps : Prop) (ss : List (Stmt ρ)) :
    ProgramsMatch wraps (Stmt.annotateAll hopsLabel [] ss) (Stmt.annotateAll hopsLabel [] ss) := by
  have h := programsMatch_mapSpan wraps id ss
  rwa [Stmt.mapSpanAll_id] at h

end Matching

end Lox
