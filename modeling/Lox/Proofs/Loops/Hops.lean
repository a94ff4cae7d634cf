import Lox.Evaluation
import Lox.Proofs.Scope.Erasure
import Lox.Proofs.Scope.Numbering

/-!
# Hops in other scopes

A resolved tree that is put among other scopes counts other hops: the references that lead out of it
follow a map of hops, and those that mean a scope of its own stay as they are. One more scope without
names, somewhere around a tree, amounts to such a map.
-/

namespace Lox

/-- A map of hops inside one more scope, whose own names stay. -/
def lift (h : Nat → Nat) : Nat → Nat
  | 0 => 0
  | k + 1 => h k + 1

@[simp] theorem lift_id : lift id = id := by
  funext k
  cases k <;> rfl

mutual

/-- Maps the hops of the references that lead out of a statement. -/
def Stmt.rehop (h : Nat → Nat) : ResolvedStmt → ResolvedStmt
  | .expression span e => .expression span (e.map (Option.map h))
  | .print span e => .print span (e.map (Option.map h))
  | .varDecl span name initializer =>
    .varDecl span name (initializer.map fun e => e.map (Option.map h))
  | .block span body => .block span (Stmt.rehopAll (lift h) body)
  | .conditional span c t none => .conditional span (c.map (Option.map h)) (t.rehop h) none
  | .conditional span c t (some e) =>
    .conditional span (c.map (Option.map h)) (t.rehop h) (some (e.rehop h))
  | .loop span c b => .loop span (c.map (Option.map h)) (b.rehop h)
  | .funDecl span name params body => .funDecl span name params (Stmt.rehopAll (lift h) body)
  | .ret span value => .ret span (value.map fun e => e.map (Option.map h))

def Stmt.rehopAll (h : Nat → Nat) : List ResolvedStmt → List ResolvedStmt
  | [] => []
  | s :: ss => s.rehop h :: Stmt.rehopAll h ss

end

@[simp] theorem Expr.activity_map {ρ σ : Type} (f : ρ → σ) (e : Expr ρ) : (e.map f).activity = e.activity := by
  cases e <;> rfl

@[simp] theorem Stmt.activity_rehop (h : Nat → Nat) (s : ResolvedStmt) : (s.rehop h).activity = s.activity := by
  cases s with
  | conditional _ _ _ e => cases e <;> rfl
  | _ => rfl

/-! ### Maps that change nothing -/

mutual

theorem Expr.map_id (e : ResolvedExpr) : e.map id = e := by
  cases e with
  | literal | varRef => rfl
  | assign span name ref value => simp only [Expr.map, Expr.map_id value, id]
  | unary span op operand => simp only [Expr.map, Expr.map_id operand]
  | binary span op left right | logical span op left right =>
    simp only [Expr.map, Expr.map_id left, Expr.map_id right]
  | call span callee arguments => simp only [Expr.map, Expr.map_id callee, Expr.mapAll_id arguments]
  | group span inner => simp only [Expr.map, Expr.map_id inner]

theorem Expr.mapAll_id (es : List ResolvedExpr) : Expr.mapAll id es = es := by
  cases es with
  | nil => rfl
  | cons e es => simp only [Expr.mapAll, Expr.map_id e, Expr.mapAll_id es]

end

mutual

theorem Stmt.rehop_id (s : ResolvedStmt) : s.rehop id = s := by
  cases s with
  | expression span e | print span e => simp only [Stmt.rehop, Option.map_id, Expr.map_id]
  | varDecl span name e | ret span e =>
    cases e <;> simp only [Stmt.rehop, Option.map_none, Option.map_some, Option.map_id, Expr.map_id]
  | block span body => simp only [Stmt.rehop, lift_id, Stmt.rehopAll_id body]
  | conditional span c t e =>
    cases e with
    | none => simp only [Stmt.rehop, Option.map_id, Expr.map_id, Stmt.rehop_id t]
    | some e => simp only [Stmt.rehop, Option.map_id, Expr.map_id, Stmt.rehop_id t, Stmt.rehop_id e]
  | loop span c b => simp only [Stmt.rehop, Option.map_id, Expr.map_id, Stmt.rehop_id b]
  | funDecl span name params body => simp only [Stmt.rehop, lift_id, Stmt.rehopAll_id body]

theorem Stmt.rehopAll_id (ss : List ResolvedStmt) : Stmt.rehopAll id ss = ss := by
  cases ss with
  | nil => rfl
  | cons s ss => simp only [Stmt.rehopAll, Stmt.rehop_id s, Stmt.rehopAll_id ss]

end

/-! ### Declarations -/

theorem Stmt.declares_annotate {ρ τ : Type} (f : ρ → Option Nat → τ) (s : Stmt ρ)
    (scopes : List (List String)) : (s.annotate f scopes).declares = s.declares := by
  have h := congrArg Stmt.declares (Stmt.map_const_annotate () f s scopes)
  rwa [Stmt.declares_map, Stmt.declares_map] at h

/-! ### One more scope -/

/-- The hops past a scope that is put in behind the `d` innermost ones. -/
def past : Nat → Nat → Nat
  | 0 => (· + 1)
  | d + 1 => lift (past d)

theorem hopsIn_insert (name : String) (inner scopes : List (List String)) :
    hopsIn name (inner ++ [] :: scopes) = (hopsIn name (inner ++ scopes)).map (past inner.length) := by
  induction inner with
  | nil => exact hopsIn_cons_of_not_mem List.not_mem_nil scopes
  | cons names inner ih =>
    by_cases h : name ∈ names
    · rw [List.cons_append, List.cons_append, hopsIn_cons_of_mem h, hopsIn_cons_of_mem h]
      rfl
    · rw [List.cons_append, List.cons_append, hopsIn_cons_of_not_mem h, hopsIn_cons_of_not_mem h, ih,
        Option.map_map, Option.map_map]
      rfl

/-- A declaration goes to the innermost scope, so it does not meet what is put in further out. -/
theorem extendScope_inner {names : List String} {inner : List (List String)}
    (h : inner ≠ [] ∨ names = []) (scopes : List (List String)) :
    extendScope names (inner ++ scopes) = extendScope names inner ++ scopes := by
  cases inner with
  | nil =>
    obtain rfl := h.resolve_left fun hne => hne rfl
    simp only [List.nil_append, extendScope_nothing]
  | cons => rfl

variable {ρ : Type}

mutual

theorem Expr.annotate_insert (inner scopes : List (List String)) (e : Expr ρ) :
    e.annotate hopsLabel (inner ++ [] :: scopes) =
      (e.annotate hopsLabel (inner ++ scopes)).map (Option.map (past inner.length)) := by
  cases e with
  | literal => rfl
  | varRef span name ref => simp only [Expr.annotate, Expr.map, hopsLabel, hopsIn_insert]
  | assign span name ref value =>
    simp only [Expr.annotate, Expr.map, hopsLabel, hopsIn_insert,
      Expr.annotate_insert inner scopes value]
  | unary span op operand =>
    simp only [Expr.annotate, Expr.map, Expr.annotate_insert inner scopes operand]
  | binary span op left right | logical span op left right =>
    simp only [Expr.annotate, Expr.map, Expr.annotate_insert inner scopes left,
      Expr.annotate_insert inner scopes right]
  | call span callee arguments =>
    simp only [Expr.annotate, Expr.map, Expr.annotate_insert inner scopes callee,
      Expr.annotateAll_insert inner scopes arguments]
  | group span e => simp only [Expr.annotate, Expr.map, Expr.annotate_insert inner scopes e]

theorem Expr.annotateAll_insert (inner scopes : List (List String)) (es : List (Expr ρ)) :
    Expr.annotateAll hopsLabel (inner ++ [] :: scopes) es =
      Expr.mapAll (Option.map (past inner.length)) (Expr.annotateAll hopsLabel (inner ++ scopes) es) := by
  cases es with
  | nil => rfl
  | cons e es =>
    simp only [Expr.annotateAll, Expr.mapAll, Expr.annotate_insert inner scopes e,
      Expr.annotateAll_insert inner scopes es]

end

theorem Expr.annotate_insert_optional (inner scopes : List (List String)) (e : Option (Expr ρ)) :
    (e.map fun e => e.annotate hopsLabel (inner ++ [] :: scopes)) =
      (e.map fun e => e.annotate hopsLabel (inner ++ scopes)).map fun e =>
        e.map (Option.map (past inner.length)) := by
  rw [Option.map_map]
  exact congrArg (e.map ·) (funext (Expr.annotate_insert inner scopes))

mutual

/-- If a statement declares nothing in the scope that is put in, its hops go past that scope. -/
theorem Stmt.annotate_insert (scopes : List (List String)) (s : Stmt ρ) (inner : List (List String))
    (hd : inner ≠ [] ∨ s.declares = []) :
    s.annotate hopsLabel (inner ++ [] :: scopes) =
      (s.annotate hopsLabel (inner ++ scopes)).rehop (past inner.length) := by
  cases s with
  | expression span e | print span e =>
    simp only [Stmt.annotate, Stmt.rehop, Expr.annotate_insert inner scopes e]
  | varDecl span name e =>
    have hname : inner ≠ [] ∨ [name] = [] := hd
    have he := Expr.annotate_insert_optional (extendScope [name] inner) scopes e
    rw [length_extendScope] at he
    simp only [Stmt.annotate, Stmt.rehop, extendScope_inner hname, he]
  | block span body =>
    have hbody := Stmt.annotateAll_insert scopes body (List.cons_ne_nil [] inner)
    exact congrArg (Stmt.block span) hbody
  | conditional span c t e =>
    have hc := Expr.annotate_insert inner scopes c
    cases e with
    | none => simp only [Stmt.annotate, Stmt.rehop, hc, Stmt.annotate_insert scopes t inner hd]
    | some e =>
      have ht : inner ≠ [] ∨ t.declares = [] := hd.imp_right fun h => (List.append_eq_nil_iff.mp h).2
      -- the second branch stands behind what the first one declares
      have he : extendScope t.declares inner ≠ [] ∨ e.declares = [] :=
        hd.imp (mt extendScope_eq_nil_iff.mp) fun h => (List.append_eq_nil_iff.mp h).1
      have hbranch := Stmt.annotate_insert scopes e (extendScope t.declares inner) he
      rw [length_extendScope] at hbranch
      simp only [Stmt.annotate, Stmt.rehop, hc, Stmt.annotate_insert scopes t inner ht,
        extendScope_inner ht, hbranch]
  | loop span c b =>
    simp only [Stmt.annotate, Stmt.rehop, Expr.annotate_insert inner scopes c,
      Stmt.annotate_insert scopes b inner hd]
  | funDecl span name params body =>
    have hname : inner ≠ [] ∨ [name] = [] := hd
    have hbody := Stmt.annotateAll_insert scopes body
      (List.cons_ne_nil (paramNames params) (extendScope [name] inner))
    rw [List.length_cons, length_extendScope] at hbody
    simp only [Stmt.annotate, Stmt.rehop, extendScope_inner hname]
    exact congrArg (Stmt.funDecl span name params) hbody
  | ret span e =>
    simp only [Stmt.annotate, Stmt.rehop, Expr.annotate_insert_optional inner scopes e]

theorem Stmt.annotateAll_insert (scopes : List (List String)) (ss : List (Stmt ρ))
    {inner : List (List String)} (hne : inner ≠ []) :
    Stmt.annotateAll hopsLabel (inner ++ [] :: scopes) ss =
      Stmt.rehopAll (past inner.length) (Stmt.annotateAll hopsLabel (inner ++ scopes) ss) := by
  cases ss with
  | nil => rfl
  | cons s ss =>
    have hextended : extendScope s.declares inner ≠ [] := mt extendScope_eq_nil_iff.mp hne
    have hrest := Stmt.annotateAll_insert scopes ss hextended
    rw [length_extendScope] at hrest
    simp only [Stmt.annotateAll, Stmt.rehopAll, Stmt.annotate_insert scopes s inner (Or.inl hne),
      extendScope_inner (Or.inl hne), hrest]

end

end Lox
