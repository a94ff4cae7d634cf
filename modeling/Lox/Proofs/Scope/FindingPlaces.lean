import Lox.Proofs.Scope.Bindings
import Lox.Proofs.Syntax.TreePlaces

/-!
# Where findings are

The walk notes what it finds at a node or a parameter of the program. So its findings are at places of the
program, and have what all of these have.
-/

namespace Lox.Resolution

variable {ι : Type} {P : Span → Prop} {rules : Rules} {p : Progress ι}

def Progress.Within (P : Span → Prop) (p : Progress ι) : Prop := ∀ f ∈ p.findings, P f.span

namespace Progress.Within

theorem note (h : p.Within P) (issue : ScopeIssue) {span : Span} (hs : P span) :
    (after (note issue span) p).Within P := by
  rw [after_note]
  exact List.forall_mem_cons.mpr ⟨hs, h⟩

theorem locate (h : p.Within P) (node : ι) (name : String) {span : Span} (hs : P span) :
    (after (locate rules node name span) p).Within P := by
  rw [after_locate]
  split
  · exact h
  · split
    · exact note (p := { p with warned := name :: p.warned }) h _ hs
    · exact h

theorem checkReady (h : p.Within P) (name : String) {span : Span} (hs : P span) :
    (after (checkReady name span) p).Within P := by
  rw [after_checkReady]
  split
  · exact h
  · split
    · exact h
    · exact h.note _ hs

theorem declare (h : p.Within P) (name : String) {span : Span} (ready : Bool) (hs : P span) :
    (after (declare rules name span ready) p).Within P := by
  have henter {q : Progress ι} (hq : q.Within P) : (after (enter name ⟨span, ready⟩) q).Within P := hq
  rw [after_declare]
  refine henter ?_
  split
  · exact h
  · split
    · exact h
    · exact h.note _ hs

theorem declareParams (h : p.Within P) {params : List Parameter}
    (hp : ∀ q ∈ params.map Parameter.span, P q) : (after (declareParams params) p).Within P := by
  induction params generalizing p with
  | nil => exact h
  | cons q qs ih =>
    obtain ⟨hq, hqs⟩ := List.forall_mem_cons.mp hp
    have henter {r : Progress ι} (hr : r.Within P) :
        (after (enter q.name ⟨q.span, true⟩) r).Within P := hr
    rw [after_declareParams_cons]
    refine ih (henter ?_) hqs
    split
    · exact h
    · exact h.note _ hq

theorem beginFunction (h : p.Within P) {params : List Parameter}
    (hp : ∀ q ∈ params.map Parameter.span, P q) : (after (beginFunction params) p).Within P :=
  declareParams (p := { p with scopes := [] :: p.scopes, functionDepth := p.functionDepth + 1 }) h hp

theorem checkReturn (h : p.Within P) {span : Span} (hs : P span) :
    (after (checkReturn span) p).Within P := by
  rw [after_checkReturn]
  split
  · exact h.note _ hs
  · exact h

/-! ### Trees -/

mutual

theorem expr {p : Progress ι} (h : p.Within P) (e : Expr ι) (he : ∀ q ∈ e.places, P q) :
    (after (walkExpr rules e) p).Within P := by
  cases e with
  | literal => exact h
  | varRef span name node =>
    have hs := List.forall_mem_singleton.mp he
    exact (h.checkReady name hs).locate node name hs
  | assign span name node value =>
    obtain ⟨hs, hv⟩ := List.forall_mem_cons.mp he
    exact (h.expr value hv).locate node name hs
  | unary span op operand => exact h.expr operand (List.forall_mem_cons.mp he).2
  | binary span op left right | logical span op left right =>
    obtain ⟨hl, hr⟩ := List.forall_mem_append.mp (List.forall_mem_cons.mp he).2
    exact (h.expr left hl).expr right hr
  | call span callee arguments =>
    obtain ⟨hc, hargs⟩ := List.forall_mem_append.mp (List.forall_mem_cons.mp he).2
    exact (h.expr callee hc).exprs arguments hargs
  | group span inner => exact h.expr inner (List.forall_mem_cons.mp he).2

theorem exprs {p : Progress ι} (h : p.Within P) (es : List (Expr ι)) (hes : ∀ q ∈ Expr.placesAll es, P q) :
    (after (walkExprs rules es) p).Within P := by
  cases es with
  | nil => exact h
  | cons e es =>
    obtain ⟨he, hes⟩ := List.forall_mem_append.mp hes
    exact (h.expr e he).exprs es hes

end

mutual

theorem stmt {p : Progress ι} (h : p.Within P) (s : Stmt ι) (hs : ∀ q ∈ s.places, P q) :
    (after (walkStmt rules s) p).Within P := by
  cases s with
  | expression span e | print span e => exact h.expr e (List.forall_mem_cons.mp hs).2
  | varDecl span name e =>
    have hdefine {q : Progress ι} (hq : q.Within P) : (after (define name) q).Within P := hq
    cases e with
    | none => exact hdefine (h.declare name false (List.forall_mem_singleton.mp hs))
    | some e =>
      obtain ⟨hspan, he⟩ := List.forall_mem_cons.mp hs
      exact hdefine ((h.declare name false hspan).expr e he)
  | block span body =>
    have hopen : (after openScope p).Within P := h
    rw [walkStmt, after_bind, after_bind]
    exact hopen.stmts body (List.forall_mem_cons.mp hs).2
  | conditional span c t e =>
    cases e with
    | none =>
      obtain ⟨hc, ht⟩ := List.forall_mem_append.mp (List.forall_mem_cons.mp hs).2
      exact (h.expr c hc).stmt t ht
    | some e =>
      obtain ⟨hc, hbranches⟩ := List.forall_mem_append.mp (List.forall_mem_cons.mp hs).2
      obtain ⟨ht, he⟩ := List.forall_mem_append.mp hbranches
      exact ((h.expr c hc).stmt t ht).stmt e he
  | loop span c b =>
    obtain ⟨hc, hb⟩ := List.forall_mem_append.mp (List.forall_mem_cons.mp hs).2
    exact (h.expr c hc).stmt b hb
  | funDecl span name params body =>
    obtain ⟨hspan, hparts⟩ := List.forall_mem_cons.mp hs
    obtain ⟨hparams, hbody⟩ := List.forall_mem_append.mp hparts
    rw [walkStmt, after_bind, after_bind, after_bind]
    exact ((h.declare name true hspan).beginFunction hparams).stmts body hbody
  | ret span e =>
    cases e with
    | none => exact h.checkReturn (List.forall_mem_singleton.mp hs)
    | some e =>
      obtain ⟨hspan, he⟩ := List.forall_mem_cons.mp hs
      exact (h.checkReturn hspan).expr e he

theorem stmts {p : Progress ι} (h : p.Within P) (ss : List (Stmt ι)) (hss : ∀ q ∈ Stmt.placesAll ss, P q) :
    (after (walkStmts rules ss) p).Within P := by
  cases ss with
  | nil => exact h
  | cons s ss =>
    obtain ⟨hs, hss⟩ := List.forall_mem_append.mp hss
    exact (h.stmt s hs).stmts ss hss

end

end Progress.Within

/-! ### Programs -/

theorem forall_of_mem_diagnostics {p : Program Unit} (h : ∀ q ∈ p.places, P q) {config : Config}
    {natives : List String} {d : Diagnostic} (hd : d ∈ (ofProgram config natives p).diagnostics config) :
    P d.span := by
  obtain ⟨f, hf, rfl⟩ := List.mem_map.mp hd
  have hwalked : walkedFrom (rulesFor config natives p) {} p =
      after (walkStmts (rulesFor config natives p) p.numbered.statements) {} := by
    rw [walkedFrom, walkProgram_eq]
    rfl
  have hstart : Progress.Within P ({} : Progress Nat) := fun _ h => absurd h List.not_mem_nil
  rw [← p.places_numbered] at h
  have hend : (after (walkStmts (rulesFor config natives p) p.numbered.statements) {}).Within P :=
    hstart.stmts _ h
  have hfound := Finding.mem_of_mem_limitErrors hf
  rw [ofProgram_eq, List.mem_reverse, hwalked] at hfound
  exact hend f hfound

end Lox.Resolution
