import Lox.Proofs.Matching.Trees
import Lox.Proofs.Scope.Accepted
import Lox.Proofs.Scope.Erasure
import Lox.Proofs.Syntax.Relocation

/-!
# Scopes that match

One tree is labelled twice: in some scopes, and in these with further ones in between that hold nothing.
A reference from inside an additional scope has one hop more, and each one means what it meant. So the two
labelled trees match, and what is accepted in the first scopes is accepted in the second ones.
-/

namespace Lox.Matching

variable {ρ : Type} {wraps : Prop}

/-- The scopes around a tree on both sides: shared ones hold the same names, additional ones none. -/
inductive ScopesMatch : List Step → List (List String) → List (List String) → Prop where
  | globals : ScopesMatch [] [] []
  | both (names : List String) {σ : List Step} {scopes scopes' : List (List String)} :
    ScopesMatch σ scopes scopes' →
      ScopesMatch (.both (Equiv.refl String) :: σ) (names :: scopes) (names :: scopes')
  | extra {σ : List Step} {scopes scopes' : List (List String)} :
    ScopesMatch σ scopes scopes' → ScopesMatch (.extra :: σ) scopes ([] :: scopes')

/-! ### References -/

namespace RefMatches

variable {σ : List Step} {name name' : String} {ref ref' : Option Nat}

theorem both (h : RefMatches σ name ref name' ref') (π : Equiv.Perm String) :
    RefMatches (.both π :: σ) name (ref.map (· + 1)) name' (ref'.map (· + 1)) := by
  cases h with
  | global => exact .global name
  | @inScope k k' π' hk =>
    have hfind : find? (.both π :: σ) (k + 1) = some (k' + 1, π') := by
      simp only [find?, hk, Option.map_some]
    exact .inScope hfind name

theorem extra (h : RefMatches σ name ref name' ref') :
    RefMatches (.extra :: σ) name ref name' (ref'.map (· + 1)) := by
  cases h with
  | global => exact .global name
  | @inScope k k' π hk =>
    have hfind : find? (.extra :: σ) k = some (k' + 1, π) := by simp only [find?, hk, Option.map_some]
    exact .inScope hfind name

end RefMatches

namespace ScopesMatch

variable {σ : List Step} {scopes scopes' : List (List String)}

theorem refMatches (h : ScopesMatch σ scopes scopes') (name : String) :
    RefMatches σ name (hopsIn name scopes) name (hopsIn name scopes') := by
  induction h with
  | globals => exact .global name
  | both names _ ih =>
    by_cases hname : name ∈ names
    · rw [hopsIn_cons_of_mem hname, hopsIn_cons_of_mem hname]
      exact @RefMatches.inScope (.both _ :: _) 0 0 _ rfl name
    · rw [hopsIn_cons_of_not_mem hname, hopsIn_cons_of_not_mem hname]
      exact ih.both _
  | extra _ ih =>
    rw [hopsIn_cons_of_not_mem List.not_mem_nil]
    exact ih.extra

theorem extendScope (h : ScopesMatch σ scopes scopes') (names : List String)
    (hd : names ≠ [] → here? σ = some (Equiv.refl String)) :
    ScopesMatch σ (extendScope names scopes) (extendScope names scopes') := by
  cases h with
  | globals => exact .globals
  | both held h => exact .both (names ++ held) h
  | extra h =>
    have hnames : names = [] := by
      by_contra hne
      cases hd hne
    rw [hnames, extendScope_nothing, extendScope_nothing]
    exact .extra h

theorem freeIn {name : String} (h : ScopesMatch σ scopes scopes')
    (hfree : FreeIn name scopes) (hd : here? σ = some (Equiv.refl String)) : FreeIn name scopes' := by
  cases h with
  | globals => exact freeIn_nil name
  | both held _ => exact freeIn_cons_iff.mpr (freeIn_cons_iff.mp hfree)
  | extra => cases hd

theorem ne_nil (h : ScopesMatch σ scopes scopes') (hd : here? σ = some (Equiv.refl String))
    (hne : scopes' ≠ []) : scopes ≠ [] := by
  cases h with
  | globals => exact hne
  | both => exact List.cons_ne_nil _ _
  | extra => cases hd

end ScopesMatch

/-! ### Labelled trees -/

theorem paramsMatch_mapSpan (g : Span → Span) (params : List Parameter) :
    ParamsMatch (Equiv.refl String) params (params.map (Parameter.mapSpan g)) := by
  induction params with
  | nil => exact .nil
  | cons p ps ih => exact .cons rfl ih

theorem paramsMatch_self (params : List Parameter) :
    ParamsMatch (Equiv.refl String) params params := by
  have hparams := paramsMatch_mapSpan id params
  rwa [Parameter.map_mapSpan_id] at hparams

mutual

theorem exprMatches_annotate (g : Span → Span) (e : Expr ρ) {σ : List Step}
    {scopes scopes' : List (List String)} (h : ScopesMatch σ scopes scopes') :
    ExprMatches σ (e.annotate hopsLabel scopes) ((e.mapSpan g).annotate hopsLabel scopes') := by
  cases e with
  | literal span v => exact .literal v
  | varRef span name ref => exact .varRef (h.refMatches name)
  | assign span name ref value => exact .assign (h.refMatches name) (exprMatches_annotate g value h)
  | unary span op operand => exact .unary op (exprMatches_annotate g operand h)
  | binary span op left right =>
    exact .binary op (exprMatches_annotate g left h) (exprMatches_annotate g right h)
  | logical span op left right =>
    exact .logical op (exprMatches_annotate g left h) (exprMatches_annotate g right h)
  | call span callee arguments =>
    exact .call (exprMatches_annotate g callee h) (exprsMatch_annotateAll g arguments h)
  | group span inner => exact .group (exprMatches_annotate g inner h)

theorem exprsMatch_annotateAll (g : Span → Span) (es : List (Expr ρ)) {σ : List Step}
    {scopes scopes' : List (List String)} (h : ScopesMatch σ scopes scopes') :
    ExprsMatch σ (Expr.annotateAll hopsLabel scopes es)
      (Expr.annotateAll hopsLabel scopes' (Expr.mapSpanAll g es)) := by
  cases es with
  | nil => exact .nil
  | cons e es => exact .cons (exprMatches_annotate g e h) (exprsMatch_annotateAll g es h)

end

theorem optionMatches_annotate (g : Span → Span) (e : Option (Expr ρ)) {σ : List Step}
    {scopes scopes' : List (List String)} (h : ScopesMatch σ scopes scopes') :
    Option.Rel (ExprMatches σ) (e.map (·.annotate hopsLabel scopes))
      ((e.map (·.mapSpan g)).map (·.annotate hopsLabel scopes')) := by
  cases e with
  | none => exact .none
  | some e => exact .some (exprMatches_annotate g e h)

mutual

/-- A statement matches itself in more scopes, unless it declares something in an additional one. -/
theorem stmtMatches_annotate (g : Span → Span) (s : Stmt ρ) {σ : List Step}
    {scopes scopes' : List (List String)} (h : ScopesMatch σ scopes scopes')
    (hd : s.declares ≠ [] → here? σ = some (Equiv.refl String)) :
    StmtMatches wraps σ (s.annotate hopsLabel scopes) ((s.mapSpan g).annotate hopsLabel scopes') := by
  cases s with
  | expression span e => exact .expression (exprMatches_annotate g e h)
  | print span e => exact .print (exprMatches_annotate g e h)
  | varDecl span name e =>
    have hhere := hd (List.cons_ne_nil name [])
    exact .varDecl name hhere (optionMatches_annotate g e (h.extendScope [name] fun _ => hhere))
  | block span body => exact .block (Equiv.refl String) (stmtsMatch_annotateAll g body (h.both []) rfl)
  | conditional span c t e =>
    have hc := exprMatches_annotate g c h
    cases e with
    | none => exact .ifThen hc (stmtMatches_annotate g t h hd)
    | some e =>
      have hdt : t.declares ≠ [] → here? σ = some (Equiv.refl String) := fun hne =>
        hd fun hnil => hne (List.append_eq_nil_iff.mp hnil).2
      have hde : e.declares ≠ [] → here? σ = some (Equiv.refl String) := fun hne =>
        hd fun hnil => hne (List.append_eq_nil_iff.mp hnil).1
      have he := stmtMatches_annotate g e (h.extendScope _ hdt) hde
      rw [Stmt.mapSpan, Stmt.annotate, Stmt.annotate, Stmt.declares_mapSpan]
      exact .ifElse hc (stmtMatches_annotate g t h hdt) he
  | loop span c b => exact .loop (exprMatches_annotate g c h) (stmtMatches_annotate g b h hd)
  | funDecl span name params body =>
    have hhere := hd (List.cons_ne_nil name [])
    have hinner := (h.extendScope [name] fun _ => hhere).both (paramNames params)
    have hbody := stmtsMatch_annotateAll g body hinner rfl
    rw [Stmt.mapSpan, Stmt.annotate, Stmt.annotate, paramNames_mapSpan]
    exact .funDecl (Equiv.refl String) hhere rfl (paramsMatch_mapSpan g params) hbody
  | ret span e => exact .ret (optionMatches_annotate g e h)

theorem stmtsMatch_annotateAll (g : Span → Span) (ss : List (Stmt ρ)) {σ : List Step}
    {scopes scopes' : List (List String)} (h : ScopesMatch σ scopes scopes')
    (hhere : here? σ = some (Equiv.refl String)) :
    StmtsMatch wraps σ (Stmt.annotateAll hopsLabel scopes ss)
      (Stmt.annotateAll hopsLabel scopes' (Stmt.mapSpanAll g ss)) := by
  cases ss with
  | nil => exact .nil
  | cons s ss =>
    have hss := stmtsMatch_annotateAll g ss (h.extendScope s.declares fun _ => hhere) hhere
    rw [Stmt.mapSpanAll, Stmt.annotateAll, Stmt.annotateAll, Stmt.declares_mapSpan]
    exact .cons (stmtMatches_annotate g s h fun _ => hhere) hss

end

/-! ### Acceptance -/

mutual

theorem ScopesMatch.accepted {redeclare inFunction : Bool} (s : Stmt ρ) {σ : List Step}
    {scopes scopes' : List (List String)} (h : ScopesMatch σ scopes scopes')
    (hd : s.declares ≠ [] → here? σ = some (Equiv.refl String))
    (ha : s.Accepted redeclare scopes inFunction) : s.Accepted redeclare scopes' inFunction := by
  cases s with
  | expression | print => trivial
  | varDecl span name e =>
    have hhere := hd (List.cons_ne_nil name [])
    obtain ⟨hdeclare, hread⟩ := ha
    exact ⟨hdeclare.imp_right fun hfree => h.freeIn hfree hhere,
      fun e' he' hne => hread e' he' (h.ne_nil hhere hne)⟩
  | block span body => exact ScopesMatch.acceptedAll body (h.both []) rfl ha
  | conditional span c t e =>
    cases e with
    | none => exact ScopesMatch.accepted t h hd ha
    | some e =>
      have hdt : t.declares ≠ [] → here? σ = some (Equiv.refl String) := fun hne =>
        hd fun hnil => hne (List.append_eq_nil_iff.mp hnil).2
      have hde : e.declares ≠ [] → here? σ = some (Equiv.refl String) := fun hne =>
        hd fun hnil => hne (List.append_eq_nil_iff.mp hnil).1
      exact ⟨ScopesMatch.accepted t h hdt ha.1, ScopesMatch.accepted e (h.extendScope _ hdt) hde ha.2⟩
  | loop span c b => exact ScopesMatch.accepted b h hd ha
  | funDecl span name params body =>
    have hhere := hd (List.cons_ne_nil name [])
    obtain ⟨hdeclare, hparams, hbody⟩ := ha
    have hinner := (h.extendScope [name] fun _ => hhere).both (paramNames params)
    exact ⟨hdeclare.imp_right fun hfree => h.freeIn hfree hhere, hparams,
      ScopesMatch.acceptedAll body hinner rfl hbody⟩
  | ret span e => exact ha

theorem ScopesMatch.acceptedAll {redeclare inFunction : Bool} (ss : List (Stmt ρ)) {σ : List Step}
    {scopes scopes' : List (List String)} (h : ScopesMatch σ scopes scopes')
    (hhere : here? σ = some (Equiv.refl String))
    (ha : Stmt.AcceptedAll redeclare scopes inFunction ss) :
    Stmt.AcceptedAll redeclare scopes' inFunction ss := by
  cases ss with
  | nil => trivial
  | cons s ss =>
    exact ⟨ScopesMatch.accepted s h (fun _ => hhere) ha.1,
      ScopesMatch.acceptedAll ss (h.extendScope _ fun _ => hhere) hhere ha.2⟩

end

end Lox.Matching
