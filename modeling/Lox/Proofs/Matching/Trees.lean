import Lox.Evaluation
import Mathlib.Data.List.Forall2
import Mathlib.Data.Option.Basic
import Mathlib.Logic.Equiv.Defs

/-!
# Trees that match

Two resolved trees match if they differ in places, in the names of local variables and in scopes that only
the second tree has. A local name of the first tree may have another name in the second one, the same one
for all that is declared in a scope and for all references that mean it; and where the second tree has a
scope more, if it may have any, its references from inside count one hop more.
-/

namespace Lox.Matching

/-- A scope in sight: one of both trees, with the names of the second tree for those of the first, or one
of the second tree only. -/
inductive Step where
  | both (names : Equiv.Perm String)
  | extra

/-- The hops in the second tree for hops in the first, and the names in the scope that they lead to. -/
def find? : List Step → Nat → Option (Nat × Equiv.Perm String)
  | [], _ => none
  | .extra :: σ, k => (find? σ k).map fun t => (t.1 + 1, t.2)
  | .both π :: _, 0 => some (0, π)
  | .both _ :: σ, k + 1 => (find? σ k).map fun t => (t.1 + 1, t.2)

/-- The names for what is declared in the innermost scope; global names are kept, and nothing is declared
in a scope of the second tree only. -/
def here? : List Step → Option (Equiv.Perm String)
  | [] => some (Equiv.refl String)
  | .both π :: _ => some π
  | .extra :: _ => none

inductive RefMatches (σ : List Step) : String → Option Nat → String → Option Nat → Prop where
  | global (name : String) : RefMatches σ name none name none
  | inScope {k k' : Nat} {π : Equiv.Perm String} (h : find? σ k = some (k', π)) (name : String) :
    RefMatches σ name (some k) (π name) (some k')

mutual

inductive ExprMatches (σ : List Step) : ResolvedExpr → ResolvedExpr → Prop where
  | literal {span span' : Span} (v : Literal) : ExprMatches σ (.literal span v) (.literal span' v)
  | varRef {span span' : Span} {name name' : String} {ref ref' : Option Nat} :
    RefMatches σ name ref name' ref' → ExprMatches σ (.varRef span name ref) (.varRef span' name' ref')
  | assign {span span' : Span} {name name' : String} {ref ref' : Option Nat} {e e' : ResolvedExpr} :
    RefMatches σ name ref name' ref' → ExprMatches σ e e' →
      ExprMatches σ (.assign span name ref e) (.assign span' name' ref' e')
  | unary {span span' : Span} (op : UnaryOp) {e e' : ResolvedExpr} :
    ExprMatches σ e e' → ExprMatches σ (.unary span op e) (.unary span' op e')
  | binary {span span' : Span} (op : BinaryOp) {l l' r r' : ResolvedExpr} :
    ExprMatches σ l l' → ExprMatches σ r r' →
      ExprMatches σ (.binary span op l r) (.binary span' op l' r')
  | logical {span span' : Span} (op : LogicalOp) {l l' r r' : ResolvedExpr} :
    ExprMatches σ l l' → ExprMatches σ r r' →
      ExprMatches σ (.logical span op l r) (.logical span' op l' r')
  | call {span span' : Span} {f f' : ResolvedExpr} {as as' : List ResolvedExpr} :
    ExprMatches σ f f' → ExprsMatch σ as as' → ExprMatches σ (.call span f as) (.call span' f' as')
  | group {span span' : Span} {e e' : ResolvedExpr} :
    ExprMatches σ e e' → ExprMatches σ (.group span e) (.group span' e')

inductive ExprsMatch (σ : List Step) : List ResolvedExpr → List ResolvedExpr → Prop where
  | nil : ExprsMatch σ [] []
  | cons {e e' : ResolvedExpr} {es es' : List ResolvedExpr} :
    ExprMatches σ e e' → ExprsMatch σ es es' → ExprsMatch σ (e :: es) (e' :: es')

end

abbrev ParamsMatch (π : Equiv.Perm String) : List Parameter → List Parameter → Prop :=
  List.Forall₂ fun p p' => p'.name = π p.name

mutual

/-- Functions keep their names. If `wraps` holds, a statement may stand in a block of its own. -/
inductive StmtMatches (wraps : Prop) : List Step → ResolvedStmt → ResolvedStmt → Prop where
  | expression {σ : List Step} {span span' : Span} {e e' : ResolvedExpr} :
    ExprMatches σ e e' → StmtMatches wraps σ (.expression span e) (.expression span' e')
  | print {σ : List Step} {span span' : Span} {e e' : ResolvedExpr} :
    ExprMatches σ e e' → StmtMatches wraps σ (.print span e) (.print span' e')
  | varDecl {σ : List Step} {span span' : Span} {π : Equiv.Perm String} (name : String)
    {e e' : Option ResolvedExpr} :
    here? σ = some π → Option.Rel (ExprMatches σ) e e' →
      StmtMatches wraps σ (.varDecl span name e) (.varDecl span' (π name) e')
  | block {σ : List Step} {span span' : Span} {body body' : List ResolvedStmt} (π : Equiv.Perm String) :
    StmtsMatch wraps (.both π :: σ) body body' →
      StmtMatches wraps σ (.block span body) (.block span' body')
  | ifThen {σ : List Step} {span span' : Span} {c c' : ResolvedExpr} {t t' : ResolvedStmt} :
    ExprMatches σ c c' → StmtMatches wraps σ t t' →
      StmtMatches wraps σ (.conditional span c t none) (.conditional span' c' t' none)
  | ifElse {σ : List Step} {span span' : Span} {c c' : ResolvedExpr} {t t' e e' : ResolvedStmt} :
    ExprMatches σ c c' → StmtMatches wraps σ t t' → StmtMatches wraps σ e e' →
      StmtMatches wraps σ (.conditional span c t (some e)) (.conditional span' c' t' (some e'))
  | loop {σ : List Step} {span span' : Span} {c c' : ResolvedExpr} {b b' : ResolvedStmt} :
    ExprMatches σ c c' → StmtMatches wraps σ b b' →
      StmtMatches wraps σ (.loop span c b) (.loop span' c' b')
  | funDecl {σ : List Step} {span span' : Span} {π : Equiv.Perm String} {name : String}
    {params params' : List Parameter} {body body' : List ResolvedStmt} (ρ : Equiv.Perm String) :
    here? σ = some π → π name = name → ParamsMatch ρ params params' →
      StmtsMatch wraps (.both ρ :: σ) body body' →
      StmtMatches wraps σ (.funDecl span name params body) (.funDecl span' name params' body')
  | ret {σ : List Step} {span span' : Span} {e e' : Option ResolvedExpr} :
    Option.Rel (ExprMatches σ) e e' → StmtMatches wraps σ (.ret span e) (.ret span' e')
  | wrapped {σ : List Step} {span : Span} {s s' : ResolvedStmt} (hwraps : wraps) :
    StmtMatches wraps (.extra :: σ) s s' → StmtMatches wraps σ s (.block span [s'])

inductive StmtsMatch (wraps : Prop) : List Step → List ResolvedStmt → List ResolvedStmt → Prop where
  | nil {σ : List Step} : StmtsMatch wraps σ [] []
  | cons {σ : List Step} {s s' : ResolvedStmt} {ss ss' : List ResolvedStmt} :
    StmtMatches wraps σ s s' → StmtsMatch wraps σ ss ss' → StmtsMatch wraps σ (s :: ss) (s' :: ss')

end

/-- Statements at top level match one by one. -/
def ProgramsMatch (wraps : Prop) : List ResolvedStmt → List ResolvedStmt → Prop :=
  List.Forall₂ (StmtMatches wraps [])

theorem ExprMatches.activity {σ : List Step} {e e' : ResolvedExpr} (h : ExprMatches σ e e') :
    e.activity = e'.activity := by
  cases h <;> rfl

/-! What matches without blocks of its own matches with them. -/

section Weaken

variable {wraps wraps' : Prop}

mutual

theorem StmtMatches.weaken (h : wraps → wraps') {σ : List Step} {s s' : ResolvedStmt} :
    StmtMatches wraps σ s s' → StmtMatches wraps' σ s s'
  | .expression he => .expression he
  | .print he => .print he
  | .varDecl name hπ he => .varDecl name hπ he
  | .block π hbody => .block π (hbody.weaken h)
  | .ifThen hc ht => .ifThen hc (ht.weaken h)
  | .ifElse hc ht he => .ifElse hc (ht.weaken h) (he.weaken h)
  | .loop hc hb => .loop hc (hb.weaken h)
  | .funDecl ρ hπ hname hparams hbody => .funDecl ρ hπ hname hparams (hbody.weaken h)
  | .ret he => .ret he
  | .wrapped hwraps hs => .wrapped (h hwraps) (hs.weaken h)

theorem StmtsMatch.weaken (h : wraps → wraps') {σ : List Step} {ss ss' : List ResolvedStmt} :
    StmtsMatch wraps σ ss ss' → StmtsMatch wraps' σ ss ss'
  | .nil => .nil
  | .cons hs hss => .cons (hs.weaken h) (hss.weaken h)

end

end Weaken

end Lox.Matching
