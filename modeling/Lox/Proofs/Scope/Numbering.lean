import Lox.Proofs.Scope.Accepted
import Lox.Proofs.Scope.Labels
import Mathlib.Logic.Basic

/-!
# Numbered programs

Numbering gives the references of a program the numbers from zero on, in their order, and leaves all
else as it is: what a tree declares, and its labels by hops.
-/

namespace Lox

variable {ρ τ : Type}

/-- The outcome of numbering from `n` on: the numbers given, and the next number. -/
structure GivesNumbers (n count : Nat) (numbers : List Nat) (next : Nat) : Prop where
  numbers : numbers = List.range' n count
  next : next = n + count

theorem GivesNumbers.append {n count count' next next' : Nat} {xs ys : List Nat}
    (h : GivesNumbers n count xs next) (h' : GivesNumbers next count' ys next') :
    GivesNumbers n (count + count') (xs ++ ys) next' where
  numbers := by rw [h.numbers, h'.numbers, h.next, List.range'_append_1]
  next := by rw [h'.next, h.next, Nat.add_assoc]

mutual

theorem Expr.numbers_number (e : Expr ρ) (n : Nat) :
    GivesNumbers n e.references.length ((e.number.run n).1.references.map Reference.ref)
      (e.number.run n).2 := by
  cases e with
  | literal span v => exact ⟨rfl, rfl⟩
  | varRef span name ref => exact ⟨rfl, rfl⟩
  | assign span name ref value =>
    have h : GivesNumbers n 1 [n] (n + 1) := ⟨rfl, rfl⟩
    rw [Expr.references, List.length_cons, Nat.add_comm _ 1]
    exact h.append (Expr.numbers_number value (n + 1))
  | unary span op operand => exact Expr.numbers_number operand n
  | binary span op left right =>
    have h := (Expr.numbers_number left n).append (Expr.numbers_number right _)
    rw [← List.length_append, ← List.map_append] at h
    exact h
  | logical span op left right =>
    have h := (Expr.numbers_number left n).append (Expr.numbers_number right _)
    rw [← List.length_append, ← List.map_append] at h
    exact h
  | call span callee arguments =>
    have h := (Expr.numbers_number callee n).append (Expr.numbers_numberAll arguments _)
    rw [← List.length_append, ← List.map_append] at h
    exact h
  | group span inner => exact Expr.numbers_number inner n

theorem Expr.numbers_numberAll (es : List (Expr ρ)) (n : Nat) :
    GivesNumbers n (Expr.referencesAll es).length
      ((Expr.referencesAll ((Expr.numberAll es).run n).1).map Reference.ref)
      ((Expr.numberAll es).run n).2 := by
  cases es with
  | nil => exact ⟨rfl, rfl⟩
  | cons e es =>
    have h := (Expr.numbers_number e n).append (Expr.numbers_numberAll es _)
    rw [← List.length_append, ← List.map_append] at h
    exact h

end

mutual

theorem Stmt.numbers_number (s : Stmt ρ) (n : Nat) :
    GivesNumbers n s.references.length ((s.number.run n).1.references.map Reference.ref)
      (s.number.run n).2 := by
  cases s with
  | expression span e => exact Expr.numbers_number e n
  | print span e => exact Expr.numbers_number e n
  | varDecl span name e =>
    cases e with
    | none => exact ⟨rfl, rfl⟩
    | some e => exact Expr.numbers_number e n
  | block span body => exact Stmt.numbers_numberAll body n
  | conditional span c t e =>
    have h := (Expr.numbers_number c n).append (Stmt.numbers_number t _)
    cases e with
    | none =>
      rw [← List.length_append, ← List.map_append] at h
      exact h
    | some e =>
      have h' := h.append (Stmt.numbers_number e _)
      rw [← List.length_append, ← List.length_append, ← List.map_append, ← List.map_append] at h'
      exact h'
  | loop span c b =>
    have h := (Expr.numbers_number c n).append (Stmt.numbers_number b _)
    rw [← List.length_append, ← List.map_append] at h
    exact h
  | funDecl span name params body => exact Stmt.numbers_numberAll body n
  | ret span e =>
    cases e with
    | none => exact ⟨rfl, rfl⟩
    | some e => exact Expr.numbers_number e n

theorem Stmt.numbers_numberAll (ss : List (Stmt ρ)) (n : Nat) :
    GivesNumbers n (Stmt.referencesAll ss).length
      ((Stmt.referencesAll ((Stmt.numberAll ss).run n).1).map Reference.ref)
      ((Stmt.numberAll ss).run n).2 := by
  cases ss with
  | nil => exact ⟨rfl, rfl⟩
  | cons s ss =>
    have h := (Stmt.numbers_number s n).append (Stmt.numbers_numberAll ss _)
    rw [← List.length_append, ← List.map_append] at h
    exact h

end

theorem Program.refs_numbered (p : Program ρ) :
    p.numbered.references.map Reference.ref = List.range p.references.length := by
  rw [List.range_eq_range']
  exact (Stmt.numbers_numberAll p.statements 0).numbers

/-! ### Without the numbers -/

def noLabel (_ : ρ) : Unit := ()

mutual

theorem Expr.map_number (e : Expr Unit) (n : Nat) : (e.number.run n).1.map noLabel = e := by
  cases e with
  | literal span v => rfl
  | varRef span name ref => rfl
  | assign span name ref value =>
    exact congrArg (Expr.assign span name ref) (Expr.map_number value (n + 1))
  | unary span op operand => exact congrArg (Expr.unary span op) (Expr.map_number operand n)
  | binary span op left right =>
    exact congrArg₂ (Expr.binary span op) (Expr.map_number left n) (Expr.map_number right _)
  | logical span op left right =>
    exact congrArg₂ (Expr.logical span op) (Expr.map_number left n) (Expr.map_number right _)
  | call span callee arguments =>
    exact congrArg₂ (Expr.call span) (Expr.map_number callee n) (Expr.mapAll_numberAll arguments _)
  | group span inner => exact congrArg (Expr.group span) (Expr.map_number inner n)

theorem Expr.mapAll_numberAll (es : List (Expr Unit)) (n : Nat) :
    Expr.mapAll noLabel ((Expr.numberAll es).run n).1 = es := by
  cases es with
  | nil => rfl
  | cons e es => exact congrArg₂ List.cons (Expr.map_number e n) (Expr.mapAll_numberAll es _)

end

theorem Expr.mapOptional_numberOptional (e : Option (Expr Unit)) (n : Nat) :
    ((Expr.numberOptional e).run n).1.map (Expr.map noLabel) = e := by
  cases e with
  | none => rfl
  | some e => exact congrArg some (Expr.map_number e n)

mutual

theorem Stmt.map_number (s : Stmt Unit) (n : Nat) : (s.number.run n).1.map noLabel = s := by
  cases s with
  | expression span e => exact congrArg (Stmt.expression span) (Expr.map_number e n)
  | print span e => exact congrArg (Stmt.print span) (Expr.map_number e n)
  | varDecl span name e =>
    exact congrArg (Stmt.varDecl span name) (Expr.mapOptional_numberOptional e n)
  | block span body => exact congrArg (Stmt.block span) (Stmt.mapAll_numberAll body n)
  | conditional span c t e =>
    have hc := Expr.map_number c n
    have ht := Stmt.map_number t (c.number.run n).2
    cases e with
    | none => exact congrArg₂ (fun c t => Stmt.conditional span c t none) hc ht
    | some e =>
      have he := Stmt.map_number e (t.number.run (c.number.run n).2).2
      exact congr (congrArg₂ (Stmt.conditional span) hc ht) (congrArg some he)
  | loop span c b =>
    exact congrArg₂ (Stmt.loop span) (Expr.map_number c n) (Stmt.map_number b _)
  | funDecl span name params body =>
    exact congrArg (Stmt.funDecl span name params) (Stmt.mapAll_numberAll body n)
  | ret span e => exact congrArg (Stmt.ret span) (Expr.mapOptional_numberOptional e n)

theorem Stmt.mapAll_numberAll (ss : List (Stmt Unit)) (n : Nat) :
    Stmt.mapAll noLabel ((Stmt.numberAll ss).run n).1 = ss := by
  cases ss with
  | nil => rfl
  | cons s ss => exact congrArg₂ List.cons (Stmt.map_number s n) (Stmt.mapAll_numberAll ss _)

end

theorem Program.map_numbered (p : Program Unit) : p.numbered.map noLabel = p :=
  congrArg (Program.mk p.span) (Stmt.mapAll_numberAll p.statements 0)

/-! ### What does not depend on labels -/

def Reference.relabel (g : ρ → τ) (r : Reference ρ) : Reference τ :=
  ⟨r.assigns, r.name, r.span, g r.ref⟩

theorem Reference.namesOf_map_relabel (assigns : Bool) (g : ρ → τ) (rs : List (Reference ρ)) :
    namesOf assigns (rs.map (relabel g)) = namesOf assigns rs := by
  rw [namesOf, List.filter_map, List.map_map]
  rfl

mutual

theorem Expr.references_map (g : ρ → τ) (e : Expr ρ) :
    (e.map g).references = e.references.map (Reference.relabel g) := by
  cases e with
  | literal span v => rfl
  | varRef span name ref => rfl
  | assign span name ref value => exact congrArg (List.cons _) (Expr.references_map g value)
  | unary span op operand => exact Expr.references_map g operand
  | binary span op left right =>
    simp only [Expr.map, Expr.references, List.map_append, Expr.references_map g left,
      Expr.references_map g right]
  | logical span op left right =>
    simp only [Expr.map, Expr.references, List.map_append, Expr.references_map g left,
      Expr.references_map g right]
  | call span callee arguments =>
    simp only [Expr.map, Expr.references, List.map_append, Expr.references_map g callee,
      Expr.referencesAll_mapAll g arguments]
  | group span inner => exact Expr.references_map g inner

theorem Expr.referencesAll_mapAll (g : ρ → τ) (es : List (Expr ρ)) :
    Expr.referencesAll (Expr.mapAll g es) = (Expr.referencesAll es).map (Reference.relabel g) := by
  cases es with
  | nil => rfl
  | cons e es =>
    simp only [Expr.mapAll, Expr.referencesAll, List.map_append, Expr.references_map g e,
      Expr.referencesAll_mapAll g es]

end

mutual

theorem Stmt.references_map (g : ρ → τ) (s : Stmt ρ) :
    (s.map g).references = s.references.map (Reference.relabel g) := by
  cases s with
  | expression span e => exact Expr.references_map g e
  | print span e => exact Expr.references_map g e
  | varDecl span name e =>
    cases e with
    | none => rfl
    | some e => exact Expr.references_map g e
  | block span body => exact Stmt.referencesAll_mapAll g body
  | conditional span c t e =>
    cases e <;>
      simp only [Stmt.map, Stmt.references, List.map_append, Expr.references_map g c,
        Stmt.references_map g]
  | loop span c b =>
    simp only [Stmt.map, Stmt.references, List.map_append, Expr.references_map g c,
      Stmt.references_map g b]
  | funDecl span name params body => exact Stmt.referencesAll_mapAll g body
  | ret span e =>
    cases e with
    | none => rfl
    | some e => exact Expr.references_map g e

theorem Stmt.referencesAll_mapAll (g : ρ → τ) (ss : List (Stmt ρ)) :
    Stmt.referencesAll (Stmt.mapAll g ss) = (Stmt.referencesAll ss).map (Reference.relabel g) := by
  cases ss with
  | nil => rfl
  | cons s ss =>
    simp only [Stmt.mapAll, Stmt.referencesAll, List.map_append, Stmt.references_map g s,
      Stmt.referencesAll_mapAll g ss]

end

theorem Expr.reads_map (g : ρ → τ) (e : Expr ρ) : (e.map g).reads = e.reads := by
  rw [Expr.reads, Expr.references_map, Reference.namesOf_map_relabel]
  rfl

mutual

theorem Expr.annotate_map (g : ρ → τ) (scopes : List (List String)) (e : Expr ρ) :
    (e.map g).annotate hopsLabel scopes = e.annotate hopsLabel scopes := by
  cases e with
  | literal span v => rfl
  | varRef span name ref => rfl
  | assign span name ref value =>
    simp only [Expr.map, Expr.annotate, Expr.annotate_map g scopes value, hopsLabel]
  | unary span op operand => simp only [Expr.map, Expr.annotate, Expr.annotate_map g scopes operand]
  | binary span op left right =>
    simp only [Expr.map, Expr.annotate, Expr.annotate_map g scopes left,
      Expr.annotate_map g scopes right]
  | logical span op left right =>
    simp only [Expr.map, Expr.annotate, Expr.annotate_map g scopes left,
      Expr.annotate_map g scopes right]
  | call span callee arguments =>
    simp only [Expr.map, Expr.annotate, Expr.annotate_map g scopes callee,
      Expr.annotateAll_mapAll g scopes arguments]
  | group span inner => simp only [Expr.map, Expr.annotate, Expr.annotate_map g scopes inner]

theorem Expr.annotateAll_mapAll (g : ρ → τ) (scopes : List (List String)) (es : List (Expr ρ)) :
    Expr.annotateAll hopsLabel scopes (Expr.mapAll g es) = Expr.annotateAll hopsLabel scopes es := by
  cases es with
  | nil => rfl
  | cons e es =>
    simp only [Expr.mapAll, Expr.annotateAll, Expr.annotate_map g scopes e,
      Expr.annotateAll_mapAll g scopes es]

end

theorem Expr.mapOptional_annotate_map (g : ρ → τ) (scopes : List (List String))
    (e : Option (Expr ρ)) :
    (e.map (Expr.map g)).map (Expr.annotate hopsLabel scopes) =
      e.map (Expr.annotate hopsLabel scopes) := by
  cases e with
  | none => rfl
  | some e => exact congrArg some (Expr.annotate_map g scopes e)

theorem Stmt.declares_map (g : ρ → τ) (s : Stmt ρ) : (s.map g).declares = s.declares := by
  cases s with
  | conditional span c t e =>
    cases e with
    | none => exact Stmt.declares_map g t
    | some e =>
      simp only [Stmt.map, Stmt.declares, Stmt.declares_map g t, Stmt.declares_map g e]
  | loop span c b => exact Stmt.declares_map g b
  | _ => rfl

mutual

theorem Stmt.annotate_map (g : ρ → τ) (scopes : List (List String)) (s : Stmt ρ) :
    (s.map g).annotate hopsLabel scopes = s.annotate hopsLabel scopes := by
  cases s with
  | expression span e => simp only [Stmt.map, Stmt.annotate, Expr.annotate_map]
  | print span e => simp only [Stmt.map, Stmt.annotate, Expr.annotate_map]
  | varDecl span name e => simp only [Stmt.map, Stmt.annotate, Expr.mapOptional_annotate_map]
  | block span body => simp only [Stmt.map, Stmt.annotate, Stmt.annotateAll_mapAll g _ body]
  | conditional span c t e =>
    cases e with
    | none =>
      simp only [Stmt.map, Stmt.annotate, Expr.annotate_map, Stmt.annotate_map g scopes t]
    | some e =>
      simp only [Stmt.map, Stmt.annotate, Expr.annotate_map, Stmt.annotate_map g scopes t,
        Stmt.declares_map, Stmt.annotate_map g _ e]
  | loop span c b =>
    simp only [Stmt.map, Stmt.annotate, Expr.annotate_map, Stmt.annotate_map g scopes b]
  | funDecl span name params body =>
    simp only [Stmt.map, Stmt.annotate, Stmt.annotateAll_mapAll g _ body]
  | ret span e => simp only [Stmt.map, Stmt.annotate, Expr.mapOptional_annotate_map]

theorem Stmt.annotateAll_mapAll (g : ρ → τ) (scopes : List (List String)) (ss : List (Stmt ρ)) :
    Stmt.annotateAll hopsLabel scopes (Stmt.mapAll g ss) = Stmt.annotateAll hopsLabel scopes ss := by
  cases ss with
  | nil => rfl
  | cons s ss =>
    simp only [Stmt.mapAll, Stmt.annotateAll, Stmt.annotate_map g scopes s, Stmt.declares_map,
      Stmt.annotateAll_mapAll g _ ss]

end

mutual

theorem Stmt.accepted_map_iff (g : ρ → τ) (redeclare : Bool) (scopes : List (List String))
    (inFunction : Bool) (s : Stmt ρ) :
    (s.map g).Accepted redeclare scopes inFunction ↔ s.Accepted redeclare scopes inFunction := by
  cases s with
  | expression span e => exact Iff.rfl
  | print span e => exact Iff.rfl
  | varDecl span name e =>
    cases e with
    | none => simp only [Stmt.map, Stmt.Accepted, Option.map_none, reduceCtorEq, false_implies,
        implies_true]
    | some e =>
      simp only [Stmt.map, Stmt.Accepted, Option.map_some, Option.some.injEq, forall_eq',
        Expr.reads_map]
  | block span body =>
    simp only [Stmt.map, Stmt.Accepted, Stmt.acceptedAll_mapAll_iff g redeclare _ _ body]
  | conditional span c t e =>
    cases e with
    | none => simp only [Stmt.map, Stmt.Accepted, Stmt.accepted_map_iff g redeclare _ _ t]
    | some e =>
      simp only [Stmt.map, Stmt.Accepted, Stmt.accepted_map_iff g redeclare _ _ t,
        Stmt.declares_map, Stmt.accepted_map_iff g redeclare _ _ e]
  | loop span c b => simp only [Stmt.map, Stmt.Accepted, Stmt.accepted_map_iff g redeclare _ _ b]
  | funDecl span name params body =>
    simp only [Stmt.map, Stmt.Accepted, Stmt.acceptedAll_mapAll_iff g redeclare _ _ body]
  | ret span e => exact Iff.rfl

theorem Stmt.acceptedAll_mapAll_iff (g : ρ → τ) (redeclare : Bool) (scopes : List (List String))
    (inFunction : Bool) (ss : List (Stmt ρ)) :
    Stmt.AcceptedAll redeclare scopes inFunction (Stmt.mapAll g ss) ↔
      Stmt.AcceptedAll redeclare scopes inFunction ss := by
  cases ss with
  | nil => exact Iff.rfl
  | cons s ss =>
    simp only [Stmt.mapAll, Stmt.AcceptedAll, Stmt.accepted_map_iff g redeclare _ _ s,
      Stmt.declares_map, Stmt.acceptedAll_mapAll_iff g redeclare _ _ ss]

end

theorem Program.annotate_numbered (p : Program Unit) : p.numbered.annotate = p.annotate := by
  have h := Stmt.annotateAll_mapAll noLabel [] p.numbered.statements
  have hm := congrArg Program.statements p.map_numbered
  rw [Program.annotate, ← h]
  exact congrArg (fun ss => Program.mk p.span (Stmt.annotateAll hopsLabel [] ss)) hm

theorem Program.accepted_numbered_iff (redeclare : Bool) (p : Program Unit) :
    p.numbered.Accepted redeclare ↔ p.Accepted redeclare := by
  have h := Stmt.acceptedAll_mapAll_iff noLabel redeclare [] false p.numbered.statements
  have hm := congrArg Program.statements p.map_numbered
  rw [Program.Accepted, ← h]
  exact iff_of_eq (congrArg (Stmt.AcceptedAll redeclare [] false) hm)

end Lox
