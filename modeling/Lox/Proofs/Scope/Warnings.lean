import Lox.Proofs.Scope.Bindings

/-!
# Warnings

Where warnings are on, the walk accounts for every reference: it is bound to a scope, its name is known to
be global, or a warning names it. Warnings are reported whatever the limit on errors is.
-/

namespace Lox.Resolution

variable {ι : Type} {rules : Rules}

/-! ### One part of the walk -/

def Progress.Warns (p : Progress ι) (name : String) : Prop :=
  ∃ f ∈ p.findings, f.issue = .undefinedGlobal name

/-- Every name that is kept as warned about is in a warning. -/
def Progress.Honest (p : Progress ι) : Prop := ∀ x ∈ p.warned, p.Warns x

/-- What a part of the walk does for some references: it forgets nothing, and each of them is bound,
known to be global or warned about behind it. -/
structure Accounts (rules : Rules) (rs : List (Reference ι)) (p q : Progress ι) : Prop where
  bindings : p.bindings ⊆ q.bindings
  findings : p.findings ⊆ q.findings
  honest : p.Honest → q.Honest
  references : p.Honest → ∀ r ∈ rs,
    (∃ k, (r.ref, k) ∈ q.bindings) ∨ rules.isGlobal r.name = true ∨ q.Warns r.name

theorem Progress.Warns.mono {p q : Progress ι} {name : String} (h : p.Warns name)
    (hf : p.findings ⊆ q.findings) : q.Warns name := by
  obtain ⟨f, hmem, hissue⟩ := h
  exact ⟨f, hf hmem, hissue⟩

theorem Accounts.of_findings {p q : Progress ι} (hbindings : q.bindings = p.bindings)
    (hwarned : q.warned = p.warned) (hfindings : p.findings ⊆ q.findings) :
    Accounts rules [] p q where
  bindings := hbindings ▸ List.Subset.refl _
  findings := hfindings
  honest h x hx := (h x (hwarned ▸ hx)).mono hfindings
  references _ _ hr := absurd hr List.not_mem_nil

theorem Accounts.refl (p : Progress ι) : Accounts rules [] p p :=
  .of_findings rfl rfl (List.Subset.refl _)

theorem Accounts.trans {rs rs' : List (Reference ι)} {p q r : Progress ι}
    (h : Accounts rules rs p q) (h' : Accounts rules rs' q r) : Accounts rules (rs ++ rs') p r where
  bindings := List.Subset.trans h.bindings h'.bindings
  findings := List.Subset.trans h.findings h'.findings
  honest hp := h'.honest (h.honest hp)
  references hp x hx := by
    rcases List.mem_append.mp hx with hx | hx
    · rcases h.references hp x hx with ⟨k, hk⟩ | hglobal | hwarns
      · exact Or.inl ⟨k, h'.bindings hk⟩
      · exact Or.inr (Or.inl hglobal)
      · exact Or.inr (Or.inr (hwarns.mono h'.findings))
    · exact h'.references (h.honest hp) x hx

theorem Accounts.congr {rs rs' : List (Reference ι)} {p q : Progress ι} (h : Accounts rules rs p q)
    (hsub : rs' ⊆ rs) : Accounts rules rs' p q :=
  { h with references := fun hp r hr => h.references hp r (hsub hr) }

theorem Accounts.add {p q : Progress ι} (h : Accounts rules [] p q) {r : Reference ι}
    (hr : p.Honest → (∃ k, (r.ref, k) ∈ q.bindings) ∨ rules.isGlobal r.name = true ∨ q.Warns r.name) :
    Accounts rules [r] p q :=
  { h with references := fun hp => List.forall_mem_singleton.mpr (hr hp) }

theorem findings_note (issue : ScopeIssue) (span : Span) (p : Progress ι) :
    p.findings ⊆ (after (note issue span) p).findings := by
  rw [after_note]
  exact List.subset_cons_self _ _

theorem accounts_note (issue : ScopeIssue) (span : Span) (p : Progress ι) :
    Accounts rules [] p (after (note issue span) p) := .of_findings rfl rfl (findings_note issue span p)

/-- The first reference to a global name that is not known makes a warning, and a later one finds it. -/
theorem accounts_locate (hwarn : rules.warnUndefined = true) (r : Reference ι) (p : Progress ι) :
    Accounts rules [r] p (after (locate rules r.ref r.name r.span) p) := by
  rw [after_locate]
  split
  · rename_i n hn
    have hbound : Accounts rules [] p { p with bindings := (r.ref, n) :: p.bindings } :=
      ⟨List.subset_cons_self _ _, List.Subset.refl _, fun h => h, fun _ _ h => nomatch h⟩
    exact hbound.add fun _ => Or.inl ⟨n, List.mem_cons_self⟩
  · split
    · rename_i hnew
      have hwarns : (after (note (.undefinedGlobal r.name) r.span)
          { p with warned := r.name :: p.warned }).Warns r.name := ⟨_, List.mem_cons_self, rfl⟩
      have hnoted : Accounts rules [] p (after (note (.undefinedGlobal r.name) r.span)
          { p with warned := r.name :: p.warned }) := by
        refine ⟨List.Subset.refl _, List.subset_cons_self _ _, fun hp => ?_, fun _ _ h => nomatch h⟩
        exact List.forall_mem_cons.mpr ⟨hwarns, fun x hx => (hp x hx).mono (List.subset_cons_self _ _)⟩
      exact hnoted.add fun _ => Or.inr (Or.inr hwarns)
    · rename_i hold
      refine (Accounts.refl p).add fun hp => ?_
      by_cases hglobal : rules.isGlobal r.name = true
      · exact Or.inr (Or.inl hglobal)
      · have hseen : r.name ∈ p.warned := by simpa [hwarn, hglobal] using hold
        exact Or.inr (Or.inr (hp r.name hseen))

theorem accounts_checkReady (name : String) (span : Span) (p : Progress ι) :
    Accounts rules [] p (after (checkReady name span) p) := by
  rw [after_checkReady]
  split
  · exact .refl p
  · split
    · exact .refl p
    · exact accounts_note _ span p

theorem accounts_declare (name : String) (span : Span) (ready : Bool) (p : Progress ι) :
    Accounts rules [] p (after (declare rules name span ready) p) := by
  have henter (q : Progress ι) : Accounts rules [] q (after (enter name ⟨span, ready⟩) q) :=
    .of_findings rfl rfl (List.Subset.refl _)
  rw [after_declare]
  split
  · exact henter p
  · split
    · exact henter p
    · exact (accounts_note _ span p).trans (henter _)

theorem accounts_declareParams (params : List Parameter) (p : Progress ι) :
    Accounts rules [] p (after (declareParams params) p) := by
  induction params generalizing p with
  | nil => exact .refl p
  | cons q qs ih =>
    have henter (p : Progress ι) : Accounts rules [] p (after (enter q.name ⟨q.span, true⟩) p) :=
      .of_findings rfl rfl (List.Subset.refl _)
    rw [after_declareParams_cons]
    refine show Accounts rules ([] ++ []) p _ from .trans ?_ (ih _)
    split
    · exact henter p
    · exact (accounts_note _ q.span p).trans (henter _)

theorem accounts_beginFunction (params : List Parameter) (p : Progress ι) :
    Accounts rules [] p (after (beginFunction params) p) := by
  let inner := { p with scopes := [] :: p.scopes, functionDepth := p.functionDepth + 1 }
  have h : Accounts rules [] inner _ := accounts_declareParams params inner
  exact ⟨h.bindings, h.findings, h.honest, h.references⟩

theorem accounts_checkReturn (span : Span) (p : Progress ι) :
    Accounts rules [] p (after (checkReturn span) p) := by
  rw [after_checkReturn]
  split
  · exact accounts_note _ span p
  · exact .refl p

/-! ### Trees -/

mutual

theorem accounts_expr (hwarn : rules.warnUndefined = true) (e : Expr ι) (p : Progress ι) :
    Accounts rules e.references p (after (walkExpr rules e) p) := by
  cases e with
  | literal span v => exact .refl p
  | varRef span name node =>
    rw [walkExpr, after_bind]
    exact (accounts_checkReady name span p).trans (accounts_locate hwarn ⟨false, name, span, node⟩ _)
  | assign span name node value =>
    rw [walkExpr, after_bind]
    refine ((accounts_expr hwarn value p).trans (accounts_locate hwarn ⟨true, name, span, node⟩ _)).congr ?_
    exact fun r hr => List.mem_append.mpr ((List.mem_cons.mp hr).symm.imp_right List.mem_singleton.mpr)
  | unary span op operand => exact accounts_expr hwarn operand p
  | binary span op left right =>
    rw [walkExpr, after_bind]
    exact (accounts_expr hwarn left p).trans (accounts_expr hwarn right _)
  | logical span op left right =>
    rw [walkExpr, after_bind]
    exact (accounts_expr hwarn left p).trans (accounts_expr hwarn right _)
  | call span callee arguments =>
    rw [walkExpr, after_bind]
    exact (accounts_expr hwarn callee p).trans (accounts_exprs hwarn arguments _)
  | group span inner => exact accounts_expr hwarn inner p

theorem accounts_exprs (hwarn : rules.warnUndefined = true) (es : List (Expr ι)) (p : Progress ι) :
    Accounts rules (Expr.referencesAll es) p (after (walkExprs rules es) p) := by
  cases es with
  | nil => exact .refl p
  | cons e es =>
    rw [walkExprs, after_bind]
    exact (accounts_expr hwarn e p).trans (accounts_exprs hwarn es _)

end

mutual

theorem accounts_stmt (hwarn : rules.warnUndefined = true) (s : Stmt ι) (p : Progress ι) :
    Accounts rules s.references p (after (walkStmt rules s) p) := by
  cases s with
  | expression span e => exact accounts_expr hwarn e p
  | print span e => exact accounts_expr hwarn e p
  | varDecl span name e =>
    rw [walkStmt, after_bind, after_bind]
    have hdefine (q : Progress ι) : Accounts rules [] q (after (define name) q) :=
      .of_findings rfl rfl (List.Subset.refl _)
    have hdeclare : Accounts rules [] p _ := accounts_declare name span false p
    cases e with
    | none => exact hdeclare.trans (hdefine _)
    | some e =>
      refine ((hdeclare.trans (accounts_expr hwarn e _)).trans (hdefine _)).congr ?_
      exact List.subset_append_left _ _
  | block span body =>
    rw [walkStmt, after_bind, after_bind]
    have h := accounts_stmts hwarn body { p with scopes := [] :: p.scopes }
    exact ⟨h.bindings, h.findings, h.honest, h.references⟩
  | conditional span c t e =>
    cases e with
    | none =>
      rw [walkStmt, after_bind]
      exact (accounts_expr hwarn c p).trans (accounts_stmt hwarn t _)
    | some e =>
      rw [walkStmt, after_bind, after_bind]
      have hc := accounts_expr hwarn c p
      refine (hc.trans ((accounts_stmt hwarn t _).trans (accounts_stmt hwarn e _))).congr ?_
      simp [Stmt.references]
  | loop span c b =>
    rw [walkStmt, after_bind]
    exact (accounts_expr hwarn c p).trans (accounts_stmt hwarn b _)
  | funDecl span name params body =>
    rw [walkStmt, after_bind, after_bind, after_bind]
    have hdeclare : Accounts rules [] p _ := accounts_declare name span true p
    have hopen := hdeclare.trans (accounts_beginFunction params _)
    have h := hopen.trans (accounts_stmts hwarn body _)
    exact ⟨h.bindings, h.findings, h.honest, h.references⟩
  | ret span e =>
    rw [walkStmt, after_bind]
    have hreturn : Accounts rules [] p _ := accounts_checkReturn span p
    cases e with
    | none => exact hreturn
    | some e => exact hreturn.trans (accounts_expr hwarn e _)

theorem accounts_stmts (hwarn : rules.warnUndefined = true) (ss : List (Stmt ι)) (p : Progress ι) :
    Accounts rules (Stmt.referencesAll ss) p (after (walkStmts rules ss) p) := by
  cases ss with
  | nil => exact .refl p
  | cons s ss =>
    rw [walkStmts, after_bind]
    exact (accounts_stmt hwarn s p).trans (accounts_stmts hwarn ss _)

end

/-! ### Resolved programs -/

theorem mem_limitErrors_of_not_isError {limit : Nat} {fs : List Finding} {f : Finding}
    (hf : f ∈ fs) (he : f.isError = false) : f ∈ Finding.limitErrors limit fs := by
  have hmem : f ∈ fs.filter fun f => !f.isError := List.mem_filter.mpr ⟨hf, by rw [he]; rfl⟩
  rw [← Finding.filter_not_isError_limitErrors limit] at hmem
  exact List.mem_of_mem_filter hmem

/-- A reference of a resolved program that is bound to no scope has the name of a known global, or a
reported warning names it. -/
theorem reported_of_global {config : Config} (hwarn : config.warnUndefinedGlobals = true)
    (natives : List String) (p : Program Unit) {r : Reference (Option Nat)}
    (hr : r ∈ p.annotate.references) (hglobal : r.ref = none) :
    r.name ∈ topLevelNames p ∨ r.name ∈ natives ∨
      ∃ f ∈ (ofProgram config natives p).reported config, f.issue = .undefinedGlobal r.name := by
  rw [← program_ofProgram config natives p, ofProgram_eq, Program.references] at hr
  dsimp only [program, Program.map] at hr
  rw [Stmt.referencesAll_mapAll] at hr
  obtain ⟨r, hmem, rfl⟩ := List.mem_map.mp hr
  have hw : Accounts (rulesFor config natives p) _ {} _ := accounts_stmts hwarn p.numbered.statements {}
  have hq : walkedFrom (rulesFor config natives p) {} p =
      after (walkStmts (rulesFor config natives p) p.numbered.statements) {} := by
    rw [walkedFrom, walkProgram_eq]
    rfl
  have hhonest : (show Progress Nat from {}).Honest := fun x hx => absurd hx List.not_mem_nil
  rcases hw.references hhonest r hmem with ⟨k, hk⟩ | hknown | hwarns
  · rw [← hq] at hk
    have hno := List.lookup_eq_none_iff.mp hglobal (r.ref, k) hk
    exact absurd rfl (bne_iff_ne.mp hno)
  · rcases (Bool.or_eq_true _ _).mp hknown with hmem | hmem
    · exact Or.inl (List.contains_iff_mem.mp hmem)
    · exact Or.inr (Or.inl (List.contains_iff_mem.mp hmem))
  · obtain ⟨f, hf, hissue⟩ := hwarns
    refine Or.inr (Or.inr ⟨f, mem_limitErrors_of_not_isError ?_ ?_, hissue⟩)
    · rw [ofProgram_eq, List.mem_reverse, hq]
      exact hf
    · rw [Finding.isError, hissue]
      rfl

end Lox.Resolution
