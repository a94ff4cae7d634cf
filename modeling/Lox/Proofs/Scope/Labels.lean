import Lox.Proofs.Scope.Lexical

/-!
# Labels and numbers

Labelling a tree by hops keeps its references but for their labels. Where two ways to label agree on all
references of a tree, the labelled trees are the same; and numbering a tree gives its references the
numbers in their order and changes nothing that hops depend on.
-/

namespace Lox

variable {ρ τ : Type}

/-! ### References of labelled trees -/

def Reference.annotate (f : ρ → Option Nat → τ) (scopes : List (List String)) (r : Reference ρ) :
    Reference τ :=
  ⟨r.assigns, r.name, r.span, f r.ref (hopsIn r.name scopes)⟩

mutual

theorem Expr.references_annotate (f : ρ → Option Nat → τ) (scopes : List (List String))
    (e : Expr ρ) :
    (e.annotate f scopes).references = e.references.map (Reference.annotate f scopes) := by
  cases e with
  | literal span v => rfl
  | varRef span name ref => rfl
  | assign span name ref value =>
    simp only [Expr.annotate, Expr.references, List.map_cons,
      Expr.references_annotate f scopes value]
    rfl
  | unary span op operand => exact Expr.references_annotate f scopes operand
  | binary span op left right =>
    simp only [Expr.annotate, Expr.references, List.map_append,
      Expr.references_annotate f scopes left, Expr.references_annotate f scopes right]
  | logical span op left right =>
    simp only [Expr.annotate, Expr.references, List.map_append,
      Expr.references_annotate f scopes left, Expr.references_annotate f scopes right]
  | call span callee arguments =>
    simp only [Expr.annotate, Expr.references, List.map_append,
      Expr.references_annotate f scopes callee, Expr.referencesAll_annotateAll f scopes arguments]
  | group span inner => exact Expr.references_annotate f scopes inner

theorem Expr.referencesAll_annotateAll (f : ρ → Option Nat → τ) (scopes : List (List String))
    (es : List (Expr ρ)) :
    Expr.referencesAll (Expr.annotateAll f scopes es) =
      (Expr.referencesAll es).map (Reference.annotate f scopes) := by
  cases es with
  | nil => rfl
  | cons e es =>
    simp only [Expr.annotateAll, Expr.referencesAll, List.map_append,
      Expr.references_annotate f scopes e, Expr.referencesAll_annotateAll f scopes es]

end

mutual

theorem Expr.map_eq_annotate {g : ρ → τ} {f : ρ → Option Nat → τ} {scopes : List (List String)}
    (e : Expr ρ) (h : ∀ r ∈ e.references, g r.ref = f r.ref (hopsIn r.name scopes)) :
    e.map g = e.annotate f scopes := by
  cases e with
  | literal span v => rfl
  | varRef span name ref =>
    have hr := h ⟨false, name, span, ref⟩ (by simp [Expr.references])
    simp only [Expr.map, Expr.annotate, hr]
  | assign span name ref value =>
    have hr := h ⟨true, name, span, ref⟩ (by simp [Expr.references])
    have hv := Expr.map_eq_annotate value fun r hr => h r (by simp [Expr.references, hr])
    simp only [Expr.map, Expr.annotate, hr, hv]
  | unary span op operand =>
    have ho := Expr.map_eq_annotate operand fun r hr => h r (by simpa [Expr.references] using hr)
    simp only [Expr.map, Expr.annotate, ho]
  | binary span op left right =>
    have hl := Expr.map_eq_annotate left fun r hr => h r (by simp [Expr.references, hr])
    have hr := Expr.map_eq_annotate right fun r hr => h r (by simp [Expr.references, hr])
    simp only [Expr.map, Expr.annotate, hl, hr]
  | logical span op left right =>
    have hl := Expr.map_eq_annotate left fun r hr => h r (by simp [Expr.references, hr])
    have hr := Expr.map_eq_annotate right fun r hr => h r (by simp [Expr.references, hr])
    simp only [Expr.map, Expr.annotate, hl, hr]
  | call span callee arguments =>
    have hc := Expr.map_eq_annotate callee fun r hr => h r (by simp [Expr.references, hr])
    have ha := Expr.mapAll_eq_annotateAll arguments fun r hr => h r (by simp [Expr.references, hr])
    simp only [Expr.map, Expr.annotate, hc, ha]
  | group span inner =>
    have hi := Expr.map_eq_annotate inner fun r hr => h r (by simpa [Expr.references] using hr)
    simp only [Expr.map, Expr.annotate, hi]

theorem Expr.mapAll_eq_annotateAll {g : ρ → τ} {f : ρ → Option Nat → τ}
    {scopes : List (List String)} (es : List (Expr ρ))
    (h : ∀ r ∈ Expr.referencesAll es, g r.ref = f r.ref (hopsIn r.name scopes)) :
    Expr.mapAll g es = Expr.annotateAll f scopes es := by
  cases es with
  | nil => rfl
  | cons e es =>
    have he := Expr.map_eq_annotate e fun r hr => h r (by simp [Expr.referencesAll, hr])
    have hes := Expr.mapAll_eq_annotateAll es fun r hr => h r (by simp [Expr.referencesAll, hr])
    simp only [Expr.mapAll, Expr.annotateAll, he, hes]

end

/-! ### Labels with hops -/

def exprMarks (scopes : List (List String)) (e : Expr ρ) : List (ρ × Option Nat) :=
  (e.annotate Prod.mk scopes).references.map Reference.ref

def exprsMarks (scopes : List (List String)) (es : List (Expr ρ)) : List (ρ × Option Nat) :=
  (Expr.referencesAll (Expr.annotateAll Prod.mk scopes es)).map Reference.ref

def stmtMarks (scopes : List (List String)) (s : Stmt ρ) : List (ρ × Option Nat) :=
  (s.annotate Prod.mk scopes).references.map Reference.ref

def stmtsMarks (scopes : List (List String)) (ss : List (Stmt ρ)) : List (ρ × Option Nat) :=
  (Stmt.referencesAll (Stmt.annotateAll Prod.mk scopes ss)).map Reference.ref

theorem exprMarks_eq (scopes : List (List String)) (e : Expr ρ) :
    exprMarks scopes e = e.references.map fun r => (r.ref, hopsIn r.name scopes) := by
  rw [exprMarks, Expr.references_annotate, List.map_map]
  rfl

def optionalMarks (scopes : List (List String)) (e : Option (Expr ρ)) : List (ρ × Option Nat) :=
  e.elim [] (exprMarks scopes)

section

variable (scopes : List (List String)) (span : Span)

theorem stmtMarks_expression (e : Expr ρ) : stmtMarks scopes (.expression span e) = exprMarks scopes e :=
  rfl

theorem stmtMarks_print (e : Expr ρ) : stmtMarks scopes (.print span e) = exprMarks scopes e := rfl

theorem stmtMarks_varDecl (name : String) (e : Option (Expr ρ)) :
    stmtMarks scopes (.varDecl span name e) = optionalMarks (extendScope [name] scopes) e := by
  cases e <;> rfl

theorem stmtMarks_block (body : List (Stmt ρ)) :
    stmtMarks scopes (.block span body) = stmtsMarks ([] :: scopes) body := rfl

theorem stmtMarks_if (c : Expr ρ) (t : Stmt ρ) :
    stmtMarks scopes (.conditional span c t none) = exprMarks scopes c ++ stmtMarks scopes t := by
  simp only [stmtMarks, exprMarks, Stmt.annotate, Stmt.references, List.map_append]

theorem stmtMarks_ifElse (c : Expr ρ) (t e : Stmt ρ) :
    stmtMarks scopes (.conditional span c t (some e)) =
      exprMarks scopes c ++ stmtMarks scopes t ++ stmtMarks (extendScope t.declares scopes) e := by
  simp only [stmtMarks, exprMarks, Stmt.annotate, Stmt.references, List.map_append]

theorem stmtMarks_loop (c : Expr ρ) (b : Stmt ρ) :
    stmtMarks scopes (.loop span c b) = exprMarks scopes c ++ stmtMarks scopes b := by
  simp only [stmtMarks, exprMarks, Stmt.annotate, Stmt.references, List.map_append]

theorem stmtMarks_funDecl (name : String) (params : List Parameter) (body : List (Stmt ρ)) :
    stmtMarks scopes (.funDecl span name params body) =
      stmtsMarks (paramNames params :: extendScope [name] scopes) body := rfl

theorem stmtMarks_ret (e : Option (Expr ρ)) :
    stmtMarks scopes (.ret span e) = optionalMarks scopes e := by
  cases e <;> rfl

theorem stmtsMarks_cons (s : Stmt ρ) (ss : List (Stmt ρ)) :
    stmtsMarks scopes (s :: ss) =
      stmtMarks scopes s ++ stmtsMarks (extendScope s.declares scopes) ss := by
  simp only [stmtMarks, stmtsMarks, Stmt.annotateAll, Stmt.referencesAll, List.map_append]

end

theorem Expr.map_eq_annotate_of_marks {g : ρ → Option Nat} {scopes : List (List String)}
    {e : Expr ρ} (h : ∀ m ∈ exprMarks scopes e, g m.1 = m.2) :
    e.map g = e.annotate hopsLabel scopes := by
  rw [exprMarks_eq, List.forall_mem_map] at h
  exact Expr.map_eq_annotate e h

theorem Expr.mapOptional_eq_annotate_of_marks {g : ρ → Option Nat} {scopes : List (List String)}
    {e : Option (Expr ρ)} (h : ∀ m ∈ optionalMarks scopes e, g m.1 = m.2) :
    e.map (Expr.map g) = e.map (Expr.annotate hopsLabel scopes) := by
  cases e with
  | none => rfl
  | some e => exact congrArg some (Expr.map_eq_annotate_of_marks h)

mutual

/-- A way to label that gives each reference its hops labels the tree by the rule of lexical scopes. -/
theorem Stmt.map_eq_annotate {g : ρ → Option Nat} {scopes : List (List String)} (s : Stmt ρ)
    (h : ∀ m ∈ stmtMarks scopes s, g m.1 = m.2) : s.map g = s.annotate hopsLabel scopes := by
  cases s with
  | expression span e =>
    rw [stmtMarks_expression] at h
    simp only [Stmt.map, Stmt.annotate, Expr.map_eq_annotate_of_marks h]
  | print span e =>
    rw [stmtMarks_print] at h
    simp only [Stmt.map, Stmt.annotate, Expr.map_eq_annotate_of_marks h]
  | varDecl span name e =>
    rw [stmtMarks_varDecl] at h
    simp only [Stmt.map, Stmt.annotate, Expr.mapOptional_eq_annotate_of_marks h]
  | block span body =>
    rw [stmtMarks_block] at h
    simp only [Stmt.map, Stmt.annotate, Stmt.mapAll_eq_annotateAll body h]
  | conditional span c t e =>
    cases e with
    | none =>
      rw [stmtMarks_if, List.forall_mem_append] at h
      simp only [Stmt.map, Stmt.annotate, Expr.map_eq_annotate_of_marks h.1,
        Stmt.map_eq_annotate t h.2]
    | some e =>
      rw [stmtMarks_ifElse, List.forall_mem_append, List.forall_mem_append] at h
      simp only [Stmt.map, Stmt.annotate, Expr.map_eq_annotate_of_marks h.1.1,
        Stmt.map_eq_annotate t h.1.2, Stmt.map_eq_annotate e h.2]
  | loop span c b =>
    rw [stmtMarks_loop, List.forall_mem_append] at h
    simp only [Stmt.map, Stmt.annotate, Expr.map_eq_annotate_of_marks h.1,
      Stmt.map_eq_annotate b h.2]
  | funDecl span name params body =>
    rw [stmtMarks_funDecl] at h
    simp only [Stmt.map, Stmt.annotate, Stmt.mapAll_eq_annotateAll body h]
  | ret span e =>
    rw [stmtMarks_ret] at h
    simp only [Stmt.map, Stmt.annotate, Expr.mapOptional_eq_annotate_of_marks h]

theorem Stmt.mapAll_eq_annotateAll {g : ρ → Option Nat} {scopes : List (List String)}
    (ss : List (Stmt ρ)) (h : ∀ m ∈ stmtsMarks scopes ss, g m.1 = m.2) :
    Stmt.mapAll g ss = Stmt.annotateAll hopsLabel scopes ss := by
  cases ss with
  | nil => rfl
  | cons s ss =>
    rw [stmtsMarks_cons, List.forall_mem_append] at h
    simp only [Stmt.mapAll, Stmt.annotateAll, Stmt.map_eq_annotate s h.1,
      Stmt.mapAll_eq_annotateAll ss h.2]

end

end Lox
