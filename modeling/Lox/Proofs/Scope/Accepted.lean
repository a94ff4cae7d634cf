import Lox.Proofs.Scope.Lexical

/-!
# Accepted programs

What the scope rules forbid, said of the tree: a local variable may not be read in its own initializer,
a function has its parameters' names once each and is the only thing to return from, and unless
redeclaration is allowed a scope declares a name once. At top level, where no scope is kept, names are
free.
-/

namespace Lox

variable {ρ : Type}

/-! ### Names in expressions -/

def Reference.namesOf (assigns : Bool) (rs : List (Reference ρ)) : List String :=
  (rs.filter fun r => r.assigns == assigns).map Reference.name

@[simp] theorem Reference.namesOf_nil (assigns : Bool) : namesOf (ρ := ρ) assigns [] = [] := rfl

@[simp] theorem Reference.namesOf_append (assigns : Bool) (rs ts : List (Reference ρ)) :
    namesOf assigns (rs ++ ts) = namesOf assigns rs ++ namesOf assigns ts := by
  simp [namesOf]

theorem Reference.mem_namesOf {assigns : Bool} {rs : List (Reference ρ)} {r : Reference ρ} (h : r ∈ rs)
    (ha : r.assigns = assigns) : r.name ∈ namesOf assigns rs :=
  List.mem_map.mpr ⟨r, List.mem_filter.mpr ⟨h, beq_iff_eq.mpr ha⟩, rfl⟩

def Expr.reads (e : Expr ρ) : List String := Reference.namesOf false e.references

def Expr.assigned (e : Expr ρ) : List String := Reference.namesOf true e.references

def Expr.readsAll (es : List (Expr ρ)) : List String :=
  Reference.namesOf false (Expr.referencesAll es)

/-! ### Acceptance -/

/-- The innermost scope, if there is one, does not hold a name. -/
def FreeIn (name : String) (scopes : List (List String)) : Prop :=
  ∀ names, scopes.head? = some names → name ∉ names

theorem freeIn_nil (name : String) : FreeIn name [] := fun _ h => nomatch h

theorem freeIn_cons_iff {name : String} {names : List String} {scopes : List (List String)} :
    FreeIn name (names :: scopes) ↔ name ∉ names :=
  ⟨fun h => h names rfl, fun h _ hn => Option.some.inj hn ▸ h⟩

theorem freeIn_extendScope_iff {name : String} {names : List String} {scopes : List (List String)}
    (hne : scopes ≠ []) :
    FreeIn name (extendScope names scopes) ↔ name ∉ names ∧ FreeIn name scopes := by
  cases scopes with
  | nil => exact absurd rfl hne
  | cons held scopes =>
    rw [extendScope_cons, freeIn_cons_iff, freeIn_cons_iff, List.mem_append, not_or]

def MayDeclare (redeclare : Bool) (name : String) (scopes : List (List String)) : Prop :=
  redeclare = true ∨ FreeIn name scopes

mutual

def Stmt.Accepted (redeclare : Bool) (scopes : List (List String)) (inFunction : Bool) :
    Stmt ρ → Prop
  | .expression _ _ | .print _ _ => True
  | .varDecl _ name initializer =>
    MayDeclare redeclare name scopes ∧
      ∀ e, initializer = some e → scopes ≠ [] → name ∉ e.reads
  | .block _ body => Stmt.AcceptedAll redeclare ([] :: scopes) inFunction body
  | .conditional _ _ t none => t.Accepted redeclare scopes inFunction
  | .conditional _ _ t (some e) =>
    t.Accepted redeclare scopes inFunction ∧
      e.Accepted redeclare (extendScope t.declares scopes) inFunction
  | .loop _ _ b => b.Accepted redeclare scopes inFunction
  | .funDecl _ name params body =>
    MayDeclare redeclare name scopes ∧ (paramNames params).Nodup ∧
      Stmt.AcceptedAll redeclare (paramNames params :: extendScope [name] scopes) true body
  | .ret _ _ => inFunction = true

def Stmt.AcceptedAll (redeclare : Bool) (scopes : List (List String)) (inFunction : Bool) :
    List (Stmt ρ) → Prop
  | [] => True
  | s :: ss =>
    s.Accepted redeclare scopes inFunction ∧
      Stmt.AcceptedAll redeclare (extendScope s.declares scopes) inFunction ss

end

def Program.Accepted (redeclare : Bool) (p : Program ρ) : Prop :=
  Stmt.AcceptedAll redeclare [] false p.statements

end Lox
