import Lox.Proofs.Scope.Numbering

/-!
# The places of a tree

Every node of a tree has a place, and so has every parameter. What is known at the references makes no
difference to them, so a program has the places that it was parsed with when it is resolved and run.
-/

namespace Lox

variable {ρ τ : Type}

mutual

def Expr.places : Expr ρ → List Span
  | .literal span _ | .varRef span _ _ => [span]
  | .assign span _ _ e | .unary span _ e | .group span e => span :: e.places
  | .binary span _ l r | .logical span _ l r => span :: (l.places ++ r.places)
  | .call span f args => span :: (f.places ++ Expr.placesAll args)

def Expr.placesAll : List (Expr ρ) → List Span
  | [] => []
  | e :: es => e.places ++ Expr.placesAll es

end

mutual

def Stmt.places : Stmt ρ → List Span
  | .expression span e | .print span e | .varDecl span _ (some e) | .ret span (some e) =>
    span :: e.places
  | .varDecl span _ none | .ret span none => [span]
  | .block span body => span :: Stmt.placesAll body
  | .conditional span c t none => span :: (c.places ++ t.places)
  | .conditional span c t (some e) => span :: (c.places ++ (t.places ++ e.places))
  | .loop span c b => span :: (c.places ++ b.places)
  | .funDecl span _ params body => span :: (params.map Parameter.span ++ Stmt.placesAll body)

def Stmt.placesAll : List (Stmt ρ) → List Span
  | [] => []
  | s :: ss => s.places ++ Stmt.placesAll ss

end

def Program.places (p : Program ρ) : List Span := Stmt.placesAll p.statements

theorem Expr.span_mem_places (e : Expr ρ) : e.span ∈ e.places := by
  cases e <;> exact List.mem_cons_self

theorem Stmt.span_mem_places (s : Stmt ρ) : s.span ∈ s.places := by
  cases s with
  | varDecl span name e | ret span e => cases e <;> exact List.mem_cons_self
  | conditional span c t e => cases e <;> exact List.mem_cons_self
  | _ => exact List.mem_cons_self

/-! ### Other labels -/

mutual

theorem Expr.places_map (f : ρ → τ) (e : Expr ρ) : (e.map f).places = e.places := by
  cases e with
  | literal | varRef => rfl
  | assign span name ref value => simp only [Expr.map, Expr.places, Expr.places_map f value]
  | unary span op operand => simp only [Expr.map, Expr.places, Expr.places_map f operand]
  | binary span op left right | logical span op left right =>
    simp only [Expr.map, Expr.places, Expr.places_map f left, Expr.places_map f right]
  | call span callee arguments =>
    simp only [Expr.map, Expr.places, Expr.places_map f callee, Expr.placesAll_mapAll f arguments]
  | group span inner => simp only [Expr.map, Expr.places, Expr.places_map f inner]

theorem Expr.placesAll_mapAll (f : ρ → τ) (es : List (Expr ρ)) :
    Expr.placesAll (Expr.mapAll f es) = Expr.placesAll es := by
  cases es with
  | nil => rfl
  | cons e es =>
    simp only [Expr.mapAll, Expr.placesAll, Expr.places_map f e, Expr.placesAll_mapAll f es]

end

mutual

theorem Stmt.places_map (f : ρ → τ) (s : Stmt ρ) : (s.map f).places = s.places := by
  cases s with
  | expression span e | print span e => simp only [Stmt.map, Stmt.places, Expr.places_map]
  | varDecl span name e | ret span e =>
    cases e <;>
      simp only [Stmt.map, Option.map_none, Option.map_some, Stmt.places, Expr.places_map]
  | block span body => simp only [Stmt.map, Stmt.places, Stmt.placesAll_mapAll f body]
  | conditional span c t e =>
    cases e <;> simp only [Stmt.map, Stmt.places, Expr.places_map, Stmt.places_map f]
  | loop span c b => simp only [Stmt.map, Stmt.places, Expr.places_map, Stmt.places_map f b]
  | funDecl span name params body =>
    simp only [Stmt.map, Stmt.places, Stmt.placesAll_mapAll f body]

theorem Stmt.placesAll_mapAll (f : ρ → τ) (ss : List (Stmt ρ)) :
    Stmt.placesAll (Stmt.mapAll f ss) = Stmt.placesAll ss := by
  cases ss with
  | nil => rfl
  | cons s ss =>
    simp only [Stmt.mapAll, Stmt.placesAll, Stmt.places_map f s, Stmt.placesAll_mapAll f ss]

end

theorem Program.places_map (f : ρ → τ) (p : Program ρ) : (p.map f).places = p.places :=
  Stmt.placesAll_mapAll f p.statements

theorem Program.places_numbered (p : Program Unit) : p.numbered.places = p.places := by
  rw [← p.numbered.places_map noLabel, p.map_numbered]

end Lox
