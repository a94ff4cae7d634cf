import Lox.Proofs.Scope.Numbering
import Lox.Proofs.Syntax.Recognition

/-!
# Moved programs

Where the tokens of a program stand matters for nothing but the places in its tree: tokens that are moved
form the tree with its places moved, provided that the way they move joins what it joins. So all places
in the tree of a source are places in that source.
-/

namespace Lox

variable {ρ : Type}

/-! ### Trees with other places -/

mutual

def Expr.mapSpan (g : Span → Span) : Expr ρ → Expr ρ
  | .literal span v => .literal (g span) v
  | .varRef span name ref => .varRef (g span) name ref
  | .assign span name ref value => .assign (g span) name ref (value.mapSpan g)
  | .unary span op operand => .unary (g span) op (operand.mapSpan g)
  | .binary span op left right => .binary (g span) op (left.mapSpan g) (right.mapSpan g)
  | .logical span op left right => .logical (g span) op (left.mapSpan g) (right.mapSpan g)
  | .call span callee arguments =>
    .call (g span) (callee.mapSpan g) (Expr.mapSpanAll g arguments)
  | .group span inner => .group (g span) (inner.mapSpan g)

def Expr.mapSpanAll (g : Span → Span) : List (Expr ρ) → List (Expr ρ)
  | [] => []
  | e :: es => e.mapSpan g :: Expr.mapSpanAll g es

end

def Parameter.mapSpan (g : Span → Span) (p : Parameter) : Parameter := ⟨g p.span, p.name⟩

mutual

def Stmt.mapSpan (g : Span → Span) : Stmt ρ → Stmt ρ
  | .expression span e => .expression (g span) (e.mapSpan g)
  | .print span e => .print (g span) (e.mapSpan g)
  | .varDecl span name initializer => .varDecl (g span) name (initializer.map (·.mapSpan g))
  | .block span body => .block (g span) (Stmt.mapSpanAll g body)
  | .conditional span c t none => .conditional (g span) (c.mapSpan g) (t.mapSpan g) none
  | .conditional span c t (some e) =>
    .conditional (g span) (c.mapSpan g) (t.mapSpan g) (some (e.mapSpan g))
  | .loop span c b => .loop (g span) (c.mapSpan g) (b.mapSpan g)
  | .funDecl span name params body =>
    .funDecl (g span) name (params.map (·.mapSpan g)) (Stmt.mapSpanAll g body)
  | .ret span value => .ret (g span) (value.map (·.mapSpan g))

def Stmt.mapSpanAll (g : Span → Span) : List (Stmt ρ) → List (Stmt ρ)
  | [] => []
  | s :: ss => s.mapSpan g :: Stmt.mapSpanAll g ss

end

def Program.mapSpan (g : Span → Span) (p : Program ρ) : Program ρ :=
  ⟨g p.span, Stmt.mapSpanAll g p.statements⟩

/-- A program without its places. -/
def Program.unplaced (p : Program ρ) : Program ρ := p.mapSpan fun _ => default

theorem Expr.span_mapSpan (g : Span → Span) (e : Expr ρ) : (e.mapSpan g).span = g e.span := by
  cases e <;> rfl

theorem Expr.mapSpanAll_eq_map (g : Span → Span) (es : List (Expr ρ)) :
    Expr.mapSpanAll g es = es.map (·.mapSpan g) := by
  induction es with
  | nil => rfl
  | cons e es ih => rw [Expr.mapSpanAll, ih, List.map_cons]

theorem Stmt.mapSpanAll_eq_map (g : Span → Span) (ss : List (Stmt ρ)) :
    Stmt.mapSpanAll g ss = ss.map (·.mapSpan g) := by
  induction ss with
  | nil => rfl
  | cons s ss ih => rw [Stmt.mapSpanAll, ih, List.map_cons]

mutual

theorem Expr.mapSpan_id (e : Expr ρ) : e.mapSpan id = e := by
  cases e with
  | literal | varRef => rfl
  | assign span name ref value => simp only [Expr.mapSpan, Expr.mapSpan_id value, id]
  | unary span op operand => simp only [Expr.mapSpan, Expr.mapSpan_id operand, id]
  | binary span op left right | logical span op left right =>
    simp only [Expr.mapSpan, Expr.mapSpan_id left, Expr.mapSpan_id right, id]
  | call span callee arguments =>
    simp only [Expr.mapSpan, Expr.mapSpan_id callee, Expr.mapSpanAll_id arguments, id]
  | group span inner => simp only [Expr.mapSpan, Expr.mapSpan_id inner, id]

theorem Expr.mapSpanAll_id (es : List (Expr ρ)) : Expr.mapSpanAll id es = es := by
  cases es with
  | nil => rfl
  | cons e es => rw [Expr.mapSpanAll, Expr.mapSpan_id e, Expr.mapSpanAll_id es]

end

theorem Expr.mapSpan_id_optional (e : Option (Expr ρ)) : e.map (·.mapSpan id) = e := by
  cases e with
  | none => rfl
  | some e => exact congrArg some e.mapSpan_id

theorem Parameter.map_mapSpan_id (params : List Parameter) : params.map (Parameter.mapSpan id) = params :=
  List.map_id _

mutual

theorem Stmt.mapSpan_id (s : Stmt ρ) : s.mapSpan id = s := by
  cases s with
  | expression span e | print span e => simp only [Stmt.mapSpan, Expr.mapSpan_id, id]
  | varDecl span name e | ret span e => simp only [Stmt.mapSpan, Expr.mapSpan_id_optional, id]
  | block span body => simp only [Stmt.mapSpan, Stmt.mapSpanAll_id body, id]
  | conditional span c t e =>
    cases e <;> simp only [Stmt.mapSpan, Expr.mapSpan_id, Stmt.mapSpan_id, id]
  | loop span c b => simp only [Stmt.mapSpan, Expr.mapSpan_id, Stmt.mapSpan_id b, id]
  | funDecl span name params body =>
    simp only [Stmt.mapSpan, Parameter.map_mapSpan_id, Stmt.mapSpanAll_id body, id]

theorem Stmt.mapSpanAll_id (ss : List (Stmt ρ)) : Stmt.mapSpanAll id ss = ss := by
  cases ss with
  | nil => rfl
  | cons s ss => rw [Stmt.mapSpanAll, Stmt.mapSpan_id s, Stmt.mapSpanAll_id ss]

end

/-! ### Moved twice -/

mutual

theorem Expr.mapSpan_mapSpan (g h : Span → Span) (e : Expr ρ) :
    (e.mapSpan g).mapSpan h = e.mapSpan (h ∘ g) := by
  cases e with
  | literal | varRef => rfl
  | assign span name ref value =>
    simp only [Expr.mapSpan, Expr.mapSpan_mapSpan g h value, Function.comp_apply]
  | unary span op operand =>
    simp only [Expr.mapSpan, Expr.mapSpan_mapSpan g h operand, Function.comp_apply]
  | binary span op left right | logical span op left right =>
    simp only [Expr.mapSpan, Expr.mapSpan_mapSpan g h left, Expr.mapSpan_mapSpan g h right,
      Function.comp_apply]
  | call span callee arguments =>
    simp only [Expr.mapSpan, Expr.mapSpan_mapSpan g h callee, Expr.mapSpanAll_mapSpanAll g h arguments,
      Function.comp_apply]
  | group span inner => simp only [Expr.mapSpan, Expr.mapSpan_mapSpan g h inner, Function.comp_apply]

theorem Expr.mapSpanAll_mapSpanAll (g h : Span → Span) (es : List (Expr ρ)) :
    Expr.mapSpanAll h (Expr.mapSpanAll g es) = Expr.mapSpanAll (h ∘ g) es := by
  cases es with
  | nil => rfl
  | cons e es =>
    simp only [Expr.mapSpanAll, Expr.mapSpan_mapSpan g h e, Expr.mapSpanAll_mapSpanAll g h es]

end

theorem Expr.map_mapSpan_mapSpan (g h : Span → Span) (e : Option (Expr ρ)) :
    (e.map (·.mapSpan g)).map (·.mapSpan h) = e.map (·.mapSpan (h ∘ g)) := by
  cases e with
  | none => rfl
  | some e => exact congrArg some (Expr.mapSpan_mapSpan g h e)

theorem Parameter.map_mapSpan_mapSpan (g h : Span → Span) (params : List Parameter) :
    (params.map (Parameter.mapSpan g)).map (Parameter.mapSpan h) =
      params.map (Parameter.mapSpan (h ∘ g)) :=
  List.map_map

mutual

theorem Stmt.mapSpan_mapSpan (g h : Span → Span) (s : Stmt ρ) :
    (s.mapSpan g).mapSpan h = s.mapSpan (h ∘ g) := by
  cases s with
  | expression span e | print span e =>
    simp only [Stmt.mapSpan, Expr.mapSpan_mapSpan, Function.comp_apply]
  | varDecl span name e | ret span e =>
    simp only [Stmt.mapSpan, Expr.map_mapSpan_mapSpan, Function.comp_apply]
  | block span body => simp only [Stmt.mapSpan, Stmt.mapSpanAll_mapSpanAll g h body, Function.comp_apply]
  | conditional span c t e =>
    cases e <;>
      simp only [Stmt.mapSpan, Expr.mapSpan_mapSpan, Stmt.mapSpan_mapSpan g h, Function.comp_apply]
  | loop span c b =>
    simp only [Stmt.mapSpan, Expr.mapSpan_mapSpan, Stmt.mapSpan_mapSpan g h b, Function.comp_apply]
  | funDecl span name params body =>
    simp only [Stmt.mapSpan, Parameter.map_mapSpan_mapSpan, Stmt.mapSpanAll_mapSpanAll g h body,
      Function.comp_apply]

theorem Stmt.mapSpanAll_mapSpanAll (g h : Span → Span) (ss : List (Stmt ρ)) :
    Stmt.mapSpanAll h (Stmt.mapSpanAll g ss) = Stmt.mapSpanAll (h ∘ g) ss := by
  cases ss with
  | nil => rfl
  | cons s ss =>
    simp only [Stmt.mapSpanAll, Stmt.mapSpan_mapSpan g h s, Stmt.mapSpanAll_mapSpanAll g h ss]

end

theorem Stmt.mapSpanAll_append (g : Span → Span) (ss ts : List (Stmt ρ)) :
    Stmt.mapSpanAll g (ss ++ ts) = Stmt.mapSpanAll g ss ++ Stmt.mapSpanAll g ts := by
  simp only [Stmt.mapSpanAll_eq_map, List.map_append]

theorem Program.unplaced_mapSpan (g : Span → Span) (p : Program ρ) :
    (p.mapSpan g).unplaced = p.unplaced :=
  congrArg (Program.mk default) (Stmt.mapSpanAll_mapSpanAll g (fun _ => default) p.statements)

/-! ### References -/

def Reference.mapSpan (g : Span → Span) (r : Reference ρ) : Reference ρ := { r with span := g r.span }

mutual

theorem Expr.references_mapSpan (g : Span → Span) (e : Expr ρ) :
    (e.mapSpan g).references = e.references.map (Reference.mapSpan g) := by
  cases e with
  | literal span v => rfl
  | varRef span name ref => rfl
  | assign span name ref value => exact congrArg (List.cons _) (Expr.references_mapSpan g value)
  | unary span op operand => exact Expr.references_mapSpan g operand
  | binary span op left right =>
    simp only [Expr.mapSpan, Expr.references, List.map_append, Expr.references_mapSpan g left,
      Expr.references_mapSpan g right]
  | logical span op left right =>
    simp only [Expr.mapSpan, Expr.references, List.map_append, Expr.references_mapSpan g left,
      Expr.references_mapSpan g right]
  | call span callee arguments =>
    simp only [Expr.mapSpan, Expr.references, List.map_append, Expr.references_mapSpan g callee,
      Expr.referencesAll_mapSpanAll g arguments]
  | group span inner => exact Expr.references_mapSpan g inner

theorem Expr.referencesAll_mapSpanAll (g : Span → Span) (es : List (Expr ρ)) :
    Expr.referencesAll (Expr.mapSpanAll g es) =
      (Expr.referencesAll es).map (Reference.mapSpan g) := by
  cases es with
  | nil => rfl
  | cons e es =>
    simp only [Expr.mapSpanAll, Expr.referencesAll, List.map_append, Expr.references_mapSpan g e,
      Expr.referencesAll_mapSpanAll g es]

end

mutual

theorem Stmt.references_mapSpan (g : Span → Span) (s : Stmt ρ) :
    (s.mapSpan g).references = s.references.map (Reference.mapSpan g) := by
  cases s with
  | expression span e => exact Expr.references_mapSpan g e
  | print span e => exact Expr.references_mapSpan g e
  | varDecl span name e =>
    cases e with
    | none => rfl
    | some e => exact Expr.references_mapSpan g e
  | block span body => exact Stmt.referencesAll_mapSpanAll g body
  | conditional span c t e =>
    cases e <;>
      simp only [Stmt.mapSpan, Stmt.references, List.map_append, Expr.references_mapSpan g c,
        Stmt.references_mapSpan g]
  | loop span c b =>
    simp only [Stmt.mapSpan, Stmt.references, List.map_append, Expr.references_mapSpan g c,
      Stmt.references_mapSpan g b]
  | funDecl span name params body => exact Stmt.referencesAll_mapSpanAll g body
  | ret span e =>
    cases e with
    | none => rfl
    | some e => exact Expr.references_mapSpan g e

theorem Stmt.referencesAll_mapSpanAll (g : Span → Span) (ss : List (Stmt ρ)) :
    Stmt.referencesAll (Stmt.mapSpanAll g ss) =
      (Stmt.referencesAll ss).map (Reference.mapSpan g) := by
  cases ss with
  | nil => rfl
  | cons s ss =>
    simp only [Stmt.mapSpanAll, Stmt.referencesAll, List.map_append, Stmt.references_mapSpan g s,
      Stmt.referencesAll_mapSpanAll g ss]

end

/-! ### What does not depend on places -/

theorem Expr.reads_mapSpan (g : Span → Span) (e : Expr ρ) : (e.mapSpan g).reads = e.reads := by
  rw [Expr.reads, Expr.references_mapSpan, Reference.namesOf, List.filter_map, List.map_map]
  rfl

theorem Stmt.declares_mapSpan (g : Span → Span) (s : Stmt ρ) :
    (s.mapSpan g).declares = s.declares := by
  cases s with
  | conditional span c t e =>
    cases e with
    | none => exact Stmt.declares_mapSpan g t
    | some e =>
      simp only [Stmt.mapSpan, Stmt.declares, Stmt.declares_mapSpan g t, Stmt.declares_mapSpan g e]
  | loop span c b => exact Stmt.declares_mapSpan g b
  | _ => rfl

theorem paramNames_mapSpan (g : Span → Span) (params : List Parameter) :
    paramNames (params.map (Parameter.mapSpan g)) = paramNames params := by
  rw [paramNames, List.map_map]
  rfl

mutual

theorem Stmt.accepted_mapSpan_iff (g : Span → Span) (redeclare : Bool) (scopes : List (List String))
    (inFunction : Bool) (s : Stmt ρ) :
    (s.mapSpan g).Accepted redeclare scopes inFunction ↔ s.Accepted redeclare scopes inFunction := by
  cases s with
  | expression span e | print span e | ret span e => exact Iff.rfl
  | varDecl span name e =>
    cases e with
    | none => simp only [Stmt.mapSpan, Stmt.Accepted, Option.map_none, reduceCtorEq, false_implies,
        implies_true]
    | some e =>
      simp only [Stmt.mapSpan, Stmt.Accepted, Option.map_some, Option.some.injEq, forall_eq',
        Expr.reads_mapSpan]
  | block span body =>
    simp only [Stmt.mapSpan, Stmt.Accepted, Stmt.acceptedAll_mapSpanAll_iff g redeclare _ _ body]
  | conditional span c t e =>
    cases e with
    | none => simp only [Stmt.mapSpan, Stmt.Accepted, Stmt.accepted_mapSpan_iff g redeclare _ _ t]
    | some e =>
      simp only [Stmt.mapSpan, Stmt.Accepted, Stmt.accepted_mapSpan_iff g redeclare _ _ t,
        Stmt.declares_mapSpan, Stmt.accepted_mapSpan_iff g redeclare _ _ e]
  | loop span c b =>
    simp only [Stmt.mapSpan, Stmt.Accepted, Stmt.accepted_mapSpan_iff g redeclare _ _ b]
  | funDecl span name params body =>
    simp only [Stmt.mapSpan, Stmt.Accepted, paramNames_mapSpan,
      Stmt.acceptedAll_mapSpanAll_iff g redeclare _ _ body]

theorem Stmt.acceptedAll_mapSpanAll_iff (g : Span → Span) (redeclare : Bool)
    (scopes : List (List String)) (inFunction : Bool) (ss : List (Stmt ρ)) :
    Stmt.AcceptedAll redeclare scopes inFunction (Stmt.mapSpanAll g ss) ↔
      Stmt.AcceptedAll redeclare scopes inFunction ss := by
  cases ss with
  | nil => exact Iff.rfl
  | cons s ss =>
    simp only [Stmt.mapSpanAll, Stmt.AcceptedAll, Stmt.accepted_mapSpan_iff g redeclare _ _ s,
      Stmt.declares_mapSpan, Stmt.acceptedAll_mapSpanAll_iff g redeclare _ _ ss]

end

theorem Program.accepted_mapSpan_iff (g : Span → Span) (redeclare : Bool) (p : Program ρ) :
    (p.mapSpan g).Accepted redeclare ↔ p.Accepted redeclare :=
  Stmt.acceptedAll_mapSpanAll_iff g redeclare [] false p.statements

theorem Program.accepted_of_unplaced {redeclare : Bool} {p q : Program ρ} (h : q.unplaced = p.unplaced)
    (hp : p.Accepted redeclare) : q.Accepted redeclare := by
  rw [← accepted_mapSpan_iff fun _ => default] at hp ⊢
  rwa [show q.mapSpan _ = p.mapSpan _ from h]

/-! ### Labels of moved trees -/

mutual

theorem Expr.annotate_mapSpan (g : Span → Span) (scopes : List (List String)) (e : Expr ρ) :
    (e.mapSpan g).annotate hopsLabel scopes = (e.annotate hopsLabel scopes).mapSpan g := by
  cases e with
  | literal | varRef => rfl
  | assign span name ref value =>
    simp only [Expr.mapSpan, Expr.annotate, Expr.annotate_mapSpan g scopes value, hopsLabel]
  | unary span op operand =>
    simp only [Expr.mapSpan, Expr.annotate, Expr.annotate_mapSpan g scopes operand]
  | binary span op left right | logical span op left right =>
    simp only [Expr.mapSpan, Expr.annotate, Expr.annotate_mapSpan g scopes left,
      Expr.annotate_mapSpan g scopes right]
  | call span callee arguments =>
    simp only [Expr.mapSpan, Expr.annotate, Expr.annotate_mapSpan g scopes callee,
      Expr.annotateAll_mapSpanAll g scopes arguments]
  | group span inner => simp only [Expr.mapSpan, Expr.annotate, Expr.annotate_mapSpan g scopes inner]

theorem Expr.annotateAll_mapSpanAll (g : Span → Span) (scopes : List (List String))
    (es : List (Expr ρ)) :
    Expr.annotateAll hopsLabel scopes (Expr.mapSpanAll g es) =
      Expr.mapSpanAll g (Expr.annotateAll hopsLabel scopes es) := by
  cases es with
  | nil => rfl
  | cons e es =>
    simp only [Expr.mapSpanAll, Expr.annotateAll, Expr.annotate_mapSpan g scopes e,
      Expr.annotateAll_mapSpanAll g scopes es]

end

theorem Expr.map_annotate_mapSpan (g : Span → Span) (scopes : List (List String))
    (e : Option (Expr ρ)) :
    (e.map (·.mapSpan g)).map (·.annotate hopsLabel scopes) =
      (e.map (·.annotate hopsLabel scopes)).map (·.mapSpan g) := by
  cases e with
  | none => rfl
  | some e => exact congrArg some (Expr.annotate_mapSpan g scopes e)

mutual

theorem Stmt.annotate_mapSpan (g : Span → Span) (scopes : List (List String)) (s : Stmt ρ) :
    (s.mapSpan g).annotate hopsLabel scopes = (s.annotate hopsLabel scopes).mapSpan g := by
  cases s with
  | expression span e | print span e => simp only [Stmt.mapSpan, Stmt.annotate, Expr.annotate_mapSpan]
  | varDecl span name e | ret span e =>
    simp only [Stmt.mapSpan, Stmt.annotate, Expr.map_annotate_mapSpan]
  | block span body => simp only [Stmt.mapSpan, Stmt.annotate, Stmt.annotateAll_mapSpanAll g _ body]
  | conditional span c t e =>
    cases e <;>
      simp only [Stmt.mapSpan, Stmt.annotate, Expr.annotate_mapSpan, Stmt.annotate_mapSpan g,
        Stmt.declares_mapSpan]
  | loop span c b =>
    simp only [Stmt.mapSpan, Stmt.annotate, Expr.annotate_mapSpan, Stmt.annotate_mapSpan g scopes b]
  | funDecl span name params body =>
    simp only [Stmt.mapSpan, Stmt.annotate, paramNames_mapSpan, Stmt.annotateAll_mapSpanAll g _ body]

theorem Stmt.annotateAll_mapSpanAll (g : Span → Span) (scopes : List (List String))
    (ss : List (Stmt ρ)) :
    Stmt.annotateAll hopsLabel scopes (Stmt.mapSpanAll g ss) =
      Stmt.mapSpanAll g (Stmt.annotateAll hopsLabel scopes ss) := by
  cases ss with
  | nil => rfl
  | cons s ss =>
    simp only [Stmt.mapSpanAll, Stmt.annotateAll, Stmt.annotate_mapSpan g scopes s,
      Stmt.declares_mapSpan, Stmt.annotateAll_mapSpanAll g _ ss]

end

/-! ### Moved tokens -/

def Token.relocate (g : Span → Span) (t : Token) : Token := { t with span := g t.span }

/-- A way to move places that goes along with joining them. -/
def Span.Joins (g : Span → Span) : Prop := ∀ s t : Span, g (s.join t) = (g s).join (g t)

namespace Grammar

open Lox.Parser (RawExpr RawStmt)

variable {g : Span → Span}

theorem spanOf_map (hg : Span.Joins g) {ts : List Token} (h : ts ≠ []) :
    spanOf (ts.map (Token.relocate g)) = g (spanOf ts) := by
  obtain ⟨t, ts, rfl⟩ := List.exists_cons_of_ne_nil h
  have hlast : (ts.map (Token.relocate g)).getLastD (t.relocate g) = (ts.getLastD t).relocate g := by
    induction ts generalizing t with
    | nil => rfl
    | cons u us ih => rw [List.map_cons, List.getLastD_cons, List.getLastD_cons, ih _ (by simp)]
  rw [List.map_cons, spanOf, spanOf, hlast, hg]
  rfl

theorem Separated.map {separator : TokenKind} {parts : List (List Token)} {ts : List Token}
    (h : Separated separator parts ts) :
    Separated separator (parts.map (List.map (Token.relocate g))) (ts.map (Token.relocate g)) := by
  induction h with
  | none => exact .none
  | one part => exact .one _
  | more ht hrest ih =>
    rw [List.map_append, List.map_cons]
    exact .more ht ih

theorem mapSpan_apply (op : Operator) (span : Span) (l r : RawExpr) :
    (op.apply span l r).mapSpan g = op.apply (g span) (l.mapSpan g) (r.mapSpan g) := by
  cases op <;> rfl

theorem Derives.relocate (hg : Span.Joins g) {level : Level} {ts : List Token} {e : RawExpr}
    (h : Derives level ts e) : Derives level (ts.map (Token.relocate g)) (e.mapSpan g) := by
  induction h with
  | literal hv => exact .literal hv
  | varRef hk => exact .varRef hk
  | group hl _ hr ih =>
    simp only [Expr.mapSpan, ← spanOf_map hg (List.cons_ne_nil _ _), List.map_cons, List.map_append,
      List.map_nil]
    exact .group hl ih hr
  | @call fs as f left right arguments hf hl hsep ha hlimit hr ihf iha =>
    have hne : fs ++ left :: (as ++ [right]) ≠ [] := by simp
    simp only [Expr.mapSpan, ← spanOf_map hg hne, Expr.mapSpanAll_eq_map, List.map_cons,
      List.map_append, List.map_nil, List.map_map]
    let moved := arguments.map fun a => (a.1.map (Token.relocate g), a.2.mapSpan g)
    have hparts : Separated .comma (moved.map Prod.fst) (as.map (Token.relocate g)) := by
      simpa only [moved, List.map_map, Function.comp_def] using hsep.map (g := g)
    have hlength : moved.length ≤ listLimit := by rwa [List.length_map]
    have h := @Derives.call _ _ _ (left.relocate g) (right.relocate g) moved ihf hl hparts
      (List.forall_mem_map.mpr iha) hlength hr
    simpa only [moved, List.map_map, Function.comp_def] using h
  | unary hop _ ih =>
    simp only [Expr.mapSpan, ← spanOf_map hg (List.cons_ne_nil _ _), List.map_cons]
    exact .unary hop ih
  | @binary level inner ls rs l r t op hl hop hinner hr ihl ihr =>
    have hne : ls ++ t :: rs ≠ [] := by simp
    simp only [mapSpan_apply, ← spanOf_map hg hne, List.map_append, List.map_cons]
    exact .binary ihl hop hinner ihr
  | assign hn he _ ih =>
    simp only [Expr.mapSpan, ← spanOf_map hg (List.cons_ne_nil _ _), List.map_cons]
    exact .assign hn he ih
  | tighter hi _ ih => exact .tighter hi ih

theorem IsOptional.relocate (hg : Span.Joins g) {ts : List Token} {e : Option RawExpr}
    (h : IsOptional ts e) :
    IsOptional (ts.map (Token.relocate g)) (e.map (·.mapSpan g)) := by
  cases h with
  | none => exact .none
  | some h => exact .some (h.relocate hg)

theorem IsVarDecl.relocate (hg : Span.Joins g) {ts : List Token} {s : RawStmt} (h : IsVarDecl ts s) :
    IsVarDecl (ts.map (Token.relocate g)) (s.mapSpan g) := by
  cases h with
  | plain hk hn hs =>
    rw [Stmt.mapSpan, ← spanOf_map hg (List.cons_ne_nil _ _)]
    exact .plain hk hn hs
  | initialized hk hn he hts hs =>
    simp only [Stmt.mapSpan, ← spanOf_map hg (List.cons_ne_nil _ _), List.map_cons, List.map_append,
      List.map_nil, Option.map_some]
    exact .initialized hk hn he (hts.relocate hg) hs

theorem IsExprStmt.relocate (hg : Span.Joins g) {ts : List Token} {s : RawStmt}
    (h : IsExprStmt ts s) : IsExprStmt (ts.map (Token.relocate g)) (s.mapSpan g) := by
  obtain ⟨hts, hs⟩ := h
  simp only [Stmt.mapSpan, ← spanOf_map hg (Parser.append_singleton_ne_nil _ _), List.map_append,
    List.map_cons, List.map_nil]
  exact .intro (hts.relocate hg) hs

theorem IsInitializer.relocate (hg : Span.Joins g) {ts : List Token} {i : Option RawStmt}
    (h : IsInitializer ts i) :
    IsInitializer (ts.map (Token.relocate g)) (i.map (·.mapSpan g)) := by
  cases h with
  | none hs => exact .none hs
  | declaration h => exact .declaration (h.relocate hg)
  | expression h => exact .expression (h.relocate hg)

theorem mapSpan_forLoop (keyword span : Span) (i : Option RawStmt) (c n : Option RawExpr)
    (b : RawStmt) :
    (Parser.forLoop keyword span i c n b).mapSpan g =
      Parser.forLoop (g keyword) (g span) (i.map (·.mapSpan g)) (c.map (·.mapSpan g))
        (n.map (·.mapSpan g)) (b.mapSpan g) := by
  cases i <;> cases c <;> cases n <;>
    simp only [Parser.forLoop, Stmt.mapSpan, Stmt.mapSpanAll, Option.map_none, Option.map_some,
      Option.getD_none, Option.getD_some, Expr.span_mapSpan, Expr.mapSpan]

theorem map_flatten_items (items : List (List Token × RawStmt)) :
    (items.map Prod.fst).flatten.map (Token.relocate g) =
      ((items.map fun i => (i.1.map (Token.relocate g), i.2.mapSpan g)).map Prod.fst).flatten := by
  rw [List.map_flatten, List.map_map, List.map_map]
  rfl

theorem mapSpanAll_items (items : List (List Token × RawStmt)) :
    Stmt.mapSpanAll g (items.map Prod.snd) =
      (items.map fun i => (i.1.map (Token.relocate g), i.2.mapSpan g)).map Prod.snd := by
  rw [Stmt.mapSpanAll_eq_map, List.map_map, List.map_map]
  rfl

theorem IsStmt.relocate (hg : Span.Joins g) {place : Place} {ts : List Token} {s : RawStmt}
    (h : IsStmt place ts s) : IsStmt place (ts.map (Token.relocate g)) (s.mapSpan g) := by
  induction h with
  | expression h => exact .expression (h.relocate hg)
  | print hk he hs =>
    simp only [Stmt.mapSpan, ← spanOf_map hg (List.cons_ne_nil _ _), List.map_cons, List.map_append,
      List.map_nil]
    exact .print hk (he.relocate hg) hs
  | ret hk he hs =>
    simp only [Stmt.mapSpan, ← spanOf_map hg (List.cons_ne_nil _ _), List.map_cons, List.map_append,
      List.map_nil]
    exact .ret hk (he.relocate hg) hs
  | block hl _ hr ih =>
    simp only [Stmt.mapSpan, ← spanOf_map hg (List.cons_ne_nil _ _), List.map_cons, List.map_append,
      List.map_nil, map_flatten_items, mapSpanAll_items]
    exact .block hl (List.forall_mem_map.mpr ih) hr
  | ifThen hk hl hc hr _ ih =>
    simp only [Stmt.mapSpan, ← spanOf_map hg (List.cons_ne_nil _ _), List.map_cons, List.map_append]
    exact .ifThen hk hl (hc.relocate hg) hr ih
  | ifElse hk hl hc hr _ hke _ iht ihe =>
    simp only [Stmt.mapSpan, ← spanOf_map hg (List.cons_ne_nil _ _), List.map_cons, List.map_append]
    exact .ifElse hk hl (hc.relocate hg) hr iht hke ihe
  | loop hk hl hc hr _ ih =>
    simp only [Stmt.mapSpan, ← spanOf_map hg (List.cons_ne_nil _ _), List.map_cons, List.map_append]
    exact .loop hk hl (hc.relocate hg) hr ih
  | forLoop hk hl hi hc hs hn hr _ ih =>
    simp only [mapSpan_forLoop, ← spanOf_map hg (List.cons_ne_nil _ _), List.map_cons,
      List.map_append]
    exact .forLoop hk hl (hi.relocate hg) (hc.relocate hg) hs (hn.relocate hg) hr ih
  | branch _ ih => exact .branch ih
  | varDecl h => exact .varDecl (h.relocate hg)
  | @funDecl keyword name left right leftBrace rightBrace params ps items hk hn hl hps hparams hlimit
      hr hlb _ hrb ih =>
    simp only [Stmt.mapSpan, ← spanOf_map hg (List.cons_ne_nil _ _), List.map_cons, List.map_append,
      List.map_nil, map_flatten_items, mapSpanAll_items, List.map_map, Function.comp_def,
      Parameter.mapSpan]
    let names := params.map (Token.relocate g)
    let moved := items.map fun i => (i.1.map (Token.relocate g), i.2.mapSpan g)
    have hparts : Separated .comma (names.map fun t => [t]) (ps.map (Token.relocate g)) := by
      simpa only [names, List.map_map, Function.comp_def, List.map_cons, List.map_nil] using
        hps.map (g := g)
    have hlength : names.length ≤ listLimit := by rwa [List.length_map]
    have h := @IsStmt.funDecl (keyword.relocate g) (name.relocate g) (left.relocate g)
      (right.relocate g) (leftBrace.relocate g) (rightBrace.relocate g) names _ moved hk hn hl hparts
      (List.forall_mem_map.mpr hparams) hlength hr hlb (List.forall_mem_map.mpr ih) hrb
    simp only [names, moved, List.map_map, Function.comp_def] at h
    exact h

theorem IsProgram.relocate (hg : Span.Joins g) {tokens : List Token} {p : Program Unit}
    (h : IsProgram tokens p) : IsProgram (tokens.map (Token.relocate g)) (p.mapSpan g) := by
  obtain ⟨hi, hlast⟩ := h
  rename_i items last
  let moved := items.map fun i => (i.1.map (Token.relocate g), i.2.mapSpan g)
  have hmoved : ∀ i ∈ moved, IsStmt .item i.1 i.2 :=
    List.forall_mem_map.mpr fun i hmem => (hi i hmem).relocate hg
  have hspan : g (if items = [] then last.span else spanOf (items.map Prod.fst).flatten) =
      if moved = [] then g last.span else spanOf (moved.map Prod.fst).flatten := by
    cases items with
    | nil => rfl
    | cons i items =>
      obtain ⟨t, ts, ht, -⟩ := (hi i List.mem_cons_self).begins
      have hne : ((i :: items).map Prod.fst).flatten ≠ [] := by simp [ht]
      have hnonempty : moved ≠ [] := List.cons_ne_nil _ _
      rw [if_neg (List.cons_ne_nil _ _), if_neg hnonempty, ← spanOf_map hg hne, map_flatten_items]
  have h := @IsProgram.intro moved (last.relocate g) hmoved hlast
  rw [Program.mapSpan, hspan, mapSpanAll_items, List.map_append, map_flatten_items]
  exact h

end Grammar

/-! ### Places in a source -/

theorem Lexer.file_scanFrom (file : String) (p : Position) (cs : List Char) :
    ∀ t ∈ (scanFrom file p cs).tokens, t.span.file = file := by
  fun_induction scanFrom file p cs with
  | case1 p cs q hs => exact List.forall_mem_singleton.mpr rfl
  | case2 p cs q d ds hs kind text hl r tail ih => exact List.forall_mem_cons.mpr ⟨rfl, ih⟩
  | case3 p cs q d ds hs error text hl => exact fun t ht => absurd ht List.not_mem_nil

theorem Lexer.tokens_of_tokenize {file source : String} {tokens : List Token}
    (h : tokenize file source = .ok tokens) : tokens = (scan file source).tokens := by
  unfold tokenize at h
  dsimp only at h
  split at h
  · exact (Except.ok.inj h).symm
  · cases h

namespace Parser

variable {limit : Nat}

theorem not_cutOff_of_parse {tokens : List Token} {p : Program Unit} (h : parse limit tokens = .ok p) :
    ¬ CutOff (parseProgram limit tokens).faults := by
  rw [(parse_eq_ok_iff_faults.mp h).1]
  rintro ⟨f, hf, -⟩
  cases hf

/-- All places in the tree of a source have the name of the source. -/
theorem mapSpan_of_parse {file source : String} {tokens : List Token} {p : Program Unit}
    (ht : Lexer.tokenize file source = .ok tokens) (hp : parse limit tokens = .ok p) :
    p.mapSpan (fun s => { s with file := file }) = p := by
  let g : Span → Span := fun s => { s with file := file }
  have hg : Span.Joins g := fun s t => rfl
  have htokens : tokens.map (Token.relocate g) = tokens := by
    rw [Lexer.tokens_of_tokenize ht]
    refine (List.map_congr_left fun t hmem => ?_).trans (List.map_id _)
    have hfile := Lexer.file_scanFrom file .origin source.toList t hmem
    obtain ⟨kind, lexeme, name, first, last⟩ := t
    obtain rfl : name = file := hfile
    rfl
  have hprogram := (isProgram_of_parse (Lexer.ended_tokenize ht) hp).relocate hg
  rw [htokens] at hprogram
  have hparse := (parse_of_isProgram hprogram).resolve_right (not_cutOff_of_parse hp)
  exact Except.ok.inj (hparse.symm.trans hp)

theorem file_of_parse {file source : String} {tokens : List Token} {p : Program Unit}
    (ht : Lexer.tokenize file source = .ok tokens) (hp : parse limit tokens = .ok p) :
    ∀ r ∈ p.references, r.span.file = file := by
  intro r hr
  rw [← mapSpan_of_parse ht hp, Program.references, Program.mapSpan,
    Stmt.referencesAll_mapSpanAll] at hr
  obtain ⟨r, -, rfl⟩ := List.mem_map.mp hr
  rfl

end Parser

end Lox
