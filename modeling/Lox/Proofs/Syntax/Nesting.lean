import Lox.Proofs.Syntax.Nodes
import Lox.Proofs.Syntax.Recognition
import Lox.Proofs.Syntax.Regions

/-!
# How deep accepted programs nest

What a rule gives nests no deeper than the rule could go. So every expression in an accepted program nests
less deep than the rule for an expression statement at top level can go.
-/

namespace Lox

/-! ### Nodes nest no deeper than the whole -/

variable {ρ : Type}

mutual

theorem Expr.nesting_le_of_mem_nodes (e : Expr ρ) : ∀ e' ∈ e.nodes, e'.nesting ≤ e.nesting := by
  cases e with
  | literal | varRef => exact List.forall_mem_singleton.mpr (Nat.le_refl _)
  | assign span name ref e | unary span op e | group span e =>
    refine List.forall_mem_cons.mpr ⟨Nat.le_refl _, fun e' h => ?_⟩
    exact Nat.le_trans (Expr.nesting_le_of_mem_nodes e e' h) (Nat.le_add_right _ _)
  | binary span op l r | logical span op l r =>
    refine List.forall_mem_cons.mpr ⟨Nat.le_refl _, List.forall_mem_append.mpr ⟨?_, ?_⟩⟩
    · exact fun e' h => Nat.le_trans (Expr.nesting_le_of_mem_nodes l e' h) (Nat.le_max_left _ _)
    · exact fun e' h => Nat.le_trans (Expr.nesting_le_of_mem_nodes r e' h) (Nat.le_max_right _ _)
  | call span f args =>
    refine List.forall_mem_cons.mpr ⟨Nat.le_refl _, List.forall_mem_append.mpr ⟨?_, ?_⟩⟩
    · exact fun e' h => Nat.le_trans (Expr.nesting_le_of_mem_nodes f e' h) (Nat.le_max_left _ _)
    · exact fun e' h =>
        Nat.le_trans (Expr.nesting_le_of_mem_nodesAll args e' h) (Nat.le_max_right _ _)

theorem Expr.nesting_le_of_mem_nodesAll (es : List (Expr ρ)) :
    ∀ e' ∈ Expr.nodesAll es, e'.nesting ≤ Expr.nestingAll es := by
  cases es with
  | nil => exact nofun
  | cons e es =>
    refine List.forall_mem_append.mpr ⟨fun e' h => ?_, fun e' h => ?_⟩
    · have hle := Expr.nesting_le_of_mem_nodes e e' h
      exact Nat.le_trans (Nat.le_add_right_of_le hle) (Nat.le_max_left _ _)
    · exact Nat.le_trans (Expr.nesting_le_of_mem_nodesAll es e' h) (Nat.le_max_right _ _)

end

theorem Expr.nestingAll_le {depth : Nat} {es : List (Expr ρ)} (h : ∀ e ∈ es, e.nesting < depth) :
    Expr.nestingAll es ≤ depth + 1 := by
  induction es with
  | nil => exact Nat.zero_le _
  | cons e es ih =>
    obtain ⟨he, hes⟩ := List.forall_mem_cons.mp h
    rw [nestingAll, Nat.max_le]
    exact ⟨Nat.succ_le_succ he, ih hes⟩

namespace Region

open Lox.Parser (Rule RawExpr RawStmt)

/-- The region of all places, where nothing is said but what rules give. -/
def everywhere : Region := ⟨fun _ => True, fun _ _ => trivial⟩

namespace Keeps

variable {α : Type} {depth : Nat} {operand nested : Rule RawExpr}

/-! ### Expressions -/

theorem nesting_chainFrom {op? : TokenKind → Option α}
    {build : Span → α → RawExpr → RawExpr → RawExpr}
    (hbuild : ∀ span op l r, (build span op l r).nesting = max l.nesting r.nesting)
    (ho : everywhere.Keeps operand (·.nesting ≤ depth)) (n : Nat) {left : RawExpr}
    (hl : left.nesting ≤ depth) :
    everywhere.Keeps (Parser.chainFrom op? build operand n left) (·.nesting ≤ depth) := by
  induction n generalizing left with
  | zero => exact pure hl
  | succ n ih =>
    refine bind peek fun kind _ => ?_
    cases op? kind with
    | none => exact pure hl
    | some op =>
      refine bind advance fun _ _ => bind ho fun right hr => ih ?_
      rw [hbuild, Nat.max_le]
      exact ⟨hl, hr⟩

theorem nesting_chain {op? : TokenKind → Option α} {build : Span → α → RawExpr → RawExpr → RawExpr}
    (hbuild : ∀ span op l r, (build span op l r).nesting = max l.nesting r.nesting)
    (ho : everywhere.Keeps operand (·.nesting ≤ depth)) :
    everywhere.Keeps (Parser.chain op? build operand) (·.nesting ≤ depth) :=
  bind ho fun _ hfirst => bind remaining fun n _ => nesting_chainFrom hbuild ho n hfirst

theorem nesting_disjunction (hu : everywhere.Keeps operand (·.nesting ≤ depth)) :
    everywhere.Keeps (Parser.disjunction operand) (·.nesting ≤ depth) := by
  have hlogical (span : Span) (op : LogicalOp) (l r : RawExpr) :
      (Expr.logical span op l r).nesting = max l.nesting r.nesting := rfl
  have hbinary (span : Span) (op : BinaryOp) (l r : RawExpr) :
      (Expr.binary span op l r).nesting = max l.nesting r.nesting := rfl
  exact nesting_chain hlogical <| nesting_chain hlogical <| nesting_chain hbinary <|
    nesting_chain hbinary <| nesting_chain hbinary <| nesting_chain hbinary hu

theorem nesting_primary (hn : everywhere.Keeps nested (·.nesting < depth)) :
    everywhere.Keeps (Parser.primary nested) (·.nesting ≤ depth + 1) := by
  refine bind current fun t _ => ?_
  have hlit (v : Literal) : everywhere.Keeps
      (Parser.advance >>= fun _ => Pure.pure (.literal t.span v : RawExpr)) (·.nesting ≤ depth + 1) :=
    bind advance fun _ _ => pure (Nat.succ_le_succ (Nat.zero_le _))
  split
  case h_6 => exact bind advance fun _ _ => pure (Nat.succ_le_succ (Nat.zero_le _))
  case h_7 =>
    refine bind advance fun _ _ => bind hn fun inner hi => bind (expect _ _) fun _ _ => ?_
    exact bind (spanFrom trivial) fun span _ => pure (Nat.succ_le_succ hi)
  case h_8 => exact ite (reject _ trivial) (unexpected _)
  all_goals exact hlit _

theorem nesting_callsFrom (hn : everywhere.Keeps nested (·.nesting < depth)) (n : Nat)
    {callee : RawExpr} (hc : callee.nesting ≤ depth + 1) :
    everywhere.Keeps (Parser.callsFrom nested n callee) (·.nesting ≤ depth + 1) := by
  induction n generalizing callee with
  | zero => exact pure hc
  | succ n ih =>
    refine bind (accept .leftParen) fun b _ => ite ?_ (pure hc)
    refine bind (listed hn "arguments") fun arguments hargs => ?_
    exact bind (expect _ _) fun paren _ => ih (Nat.max_le.mpr ⟨hc, Expr.nestingAll_le hargs⟩)

theorem nesting_assignTo {target value : RawExpr} {equals : Token}
    (ht : target.nesting ≤ depth) (hv : value.nesting < depth) :
    everywhere.Keeps (Parser.assignTo target equals value) (·.nesting ≤ depth) := by
  unfold Parser.assignTo
  split
  · exact pure hv
  · exact bind (report _ trivial) fun _ _ => pure ht

theorem nesting_unary_expression (depth : Nat) :
    everywhere.Keeps (Parser.unary depth) (·.nesting ≤ depth) ∧
      everywhere.Keeps (Parser.expression depth) (·.nesting < depth) := by
  induction depth with
  | zero => exact ⟨tooDeep, tooDeep⟩
  | succ depth ih =>
    obtain ⟨hu, he⟩ := ih
    constructor
    · refine bind current fun t _ => ?_
      split
      · refine bind advance fun _ _ => bind hu fun operand ho => ?_
        exact bind (spanFrom trivial) fun span _ => pure (Nat.succ_le_succ ho)
      · exact bind (nesting_primary he) fun _ hc => bind remaining fun n _ =>
          nesting_callsFrom he n hc
    · refine bind (nesting_disjunction hu) fun target ht => bind current fun equals _ => ?_
      refine bind (accept .assign) fun b _ => ite (bind he fun value hv => ?_) ?_
      · exact weaken (nesting_assignTo ht hv) fun _ => Nat.lt_succ_of_le
      · exact pure (Nat.lt_succ_of_le ht)

end Keeps

/-! ### Statements -/

theorem MadeOf.expressions {R : Region} {E : RawExpr → Prop}
    (hE : ∀ e, E e → ∀ e' ∈ e.nodes, E e') {s : RawStmt} (h : R.MadeOf E s) :
    ∀ e ∈ s.expressions, E e := by
  have all {body : List RawStmt} (ih : ∀ s ∈ body, ∀ e ∈ s.expressions, E e) :
      ∀ e ∈ Stmt.expressionsAll body, E e := fun e he =>
    have ⟨s, hs, h⟩ := Stmt.mem_expressionsAll.mp he
    ih s hs e h
  induction h with
  | expression _ he | print _ he => exact hE _ he
  | @varDecl span name e _ he | @ret span e _ he =>
    cases e with
    | none => exact nofun
    | some e => exact hE e (he e rfl)
  | block _ _ ih | funDecl _ _ _ ih => exact all ih
  | @conditional span c t e _ hc _ _ iht ihe =>
    cases e with
    | none => exact List.forall_mem_append.mpr ⟨hE c hc, iht⟩
    | some e =>
      exact List.forall_mem_append.mpr ⟨hE c hc, List.forall_mem_append.mpr ⟨iht, ihe e rfl⟩⟩
  | loop _ hc _ ih => exact List.forall_mem_append.mpr ⟨hE _ hc, ih⟩

end Region

namespace Parser

/-- The rule for an expression at top level is deep enough for all expressions of an accepted program. -/
theorem nesting_of_parse {limit : Nat} (hlimit : 3 < limit) {tokens : List Token} {p : Program Unit}
    (h : parse limit tokens = .ok p) :
    ∀ e ∈ p.expressions, e.nesting + 2 < limit := by
  let shallow (e : RawExpr) : Prop := e.nesting + 2 < limit
  have hsupplied (span : Span) : shallow (.literal span (.boolean true)) := hlimit
  have hsuits : Region.everywhere.Suits shallow := ⟨fun _ _ => trivial, fun span _ => hsupplied span⟩
  have hexpr (depth : Nat) (hdepth : depth + 2 ≤ limit) :
      Region.everywhere.Keeps (expression depth) shallow := by
    refine (Region.Keeps.nesting_unary_expression depth).2.weaken fun e he => ?_
    exact Nat.lt_of_lt_of_le (Nat.add_lt_add_right he 2) hdepth
  have hnodes (e : RawExpr) (he : shallow e) (e' : RawExpr) (hmem : e' ∈ e.nodes) : shallow e' :=
    Nat.lt_of_le_of_lt (Nat.add_le_add_right (e.nesting_le_of_mem_nodes e' hmem) 2) he
  obtain ⟨-, rfl⟩ := parse_eq_ok_iff_faults.mp h
  intro e he
  obtain ⟨s, hs, he⟩ := Stmt.mem_expressionsAll.mp he
  have hmade := (Region.madeOf_parseProgram hsuits hexpr fun _ _ => trivial).1 s hs
  exact hmade.expressions hnodes e he

end Parser

end Lox
