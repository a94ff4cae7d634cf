import Lox.Scope.Reference

/-!
# Lexical scopes

The rule of scopes without a walk: at each point of a program every scope around holds a list of names,
the latest first. A reference means the innermost scope that holds its name. The scopes at the parts of
a tree are a function of the scopes at its root, so all references of a tree are labelled at once.
-/

namespace Lox

variable {ρ τ υ : Type}

def hopsIn (name : String) (scopes : List (List String)) : Option Nat :=
  scopes.findIdx? fun names => names.contains name

/-- The scopes after further declarations in the innermost one; at top level none is kept. -/
def extendScope (names : List String) (scopes : List (List String)) : List (List String) :=
  scopes.modifyHead (names ++ ·)

theorem hopsIn_nil (name : String) : hopsIn name [] = none := rfl

theorem hopsIn_cons_of_mem {name : String} {names : List String} (h : name ∈ names)
    (scopes : List (List String)) : hopsIn name (names :: scopes) = some 0 := by
  rw [hopsIn, List.findIdx?_cons, List.contains_iff_mem.2 h]
  rfl

theorem hopsIn_cons_of_not_mem {name : String} {names : List String} (h : name ∉ names)
    (scopes : List (List String)) :
    hopsIn name (names :: scopes) = (hopsIn name scopes).map (· + 1) := by
  have hc : names.contains name = false := by
    rw [Bool.eq_false_iff]
    exact fun hc => h (List.contains_iff_mem.1 hc)
  rw [hopsIn, List.findIdx?_cons, hc]
  rfl

theorem hopsIn_eq_some_iff {name : String} {scopes : List (List String)} {k : Nat} :
    hopsIn name scopes = some k ↔
      (∃ names, scopes[k]? = some names ∧ name ∈ names) ∧
        ∀ j < k, ∀ names, scopes[j]? = some names → name ∉ names := by
  -- Either the innermost scope holds the name, or the hops are counted from the next one.
  induction scopes generalizing k with
  | nil => simp [hopsIn_nil]
  | cons names scopes ih =>
    by_cases h : name ∈ names
    · rw [hopsIn_cons_of_mem h]
      constructor
      · intro hk
        obtain rfl := Option.some.inj hk
        exact ⟨⟨names, rfl, h⟩, fun j hj => absurd hj (Nat.not_lt_zero j)⟩
      · intro hyp
        obtain ⟨-, hout⟩ := hyp
        cases k with
        | zero => rfl
        | succ k => exact absurd h (hout 0 (Nat.succ_pos k) names rfl)
    · rw [hopsIn_cons_of_not_mem h]
      cases k with
      | zero => simp [h]
      | succ k =>
        have hsucc : (hopsIn name scopes).map (· + 1) = some (k + 1) ↔ hopsIn name scopes = some k := by
          simp
        rw [hsucc, ih]
        constructor
        · intro hyp
          obtain ⟨hin, hout⟩ := hyp
          refine ⟨hin, fun j hj ns hns => ?_⟩
          cases j with
          | zero =>
            obtain rfl := Option.some.inj hns
            exact h
          | succ j => exact hout j (Nat.lt_of_succ_lt_succ hj) ns hns
        · intro hyp
          obtain ⟨hin, hout⟩ := hyp
          exact ⟨hin, fun j hj => hout (j + 1) (Nat.succ_lt_succ hj)⟩

theorem hopsIn_eq_none_iff {name : String} {scopes : List (List String)} :
    hopsIn name scopes = none ↔ ∀ names ∈ scopes, name ∉ names := by
  simp [hopsIn, List.findIdx?_eq_none_iff]

@[simp] theorem extendScope_nil (names : List String) : extendScope names [] = [] := rfl

@[simp] theorem extendScope_cons (names held : List String) (scopes : List (List String)) :
    extendScope names (held :: scopes) = (names ++ held) :: scopes := rfl

@[simp] theorem extendScope_nothing (scopes : List (List String)) : extendScope [] scopes = scopes := by
  cases scopes <;> rfl

theorem extendScope_append (xs ys : List String) (scopes : List (List String)) :
    extendScope (xs ++ ys) scopes = extendScope xs (extendScope ys scopes) := by
  cases scopes with
  | nil => rfl
  | cons held scopes => simp only [extendScope_cons, List.append_assoc]

@[simp] theorem extendScope_eq_nil_iff {names : List String} {scopes : List (List String)} :
    extendScope names scopes = [] ↔ scopes = [] := by
  cases scopes <;> simp

@[simp] theorem length_extendScope (names : List String) (scopes : List (List String)) :
    (extendScope names scopes).length = scopes.length := List.length_modifyHead

theorem hopsIn_extendScope_self (name : String) {scopes : List (List String)} (h : scopes ≠ []) :
    hopsIn name (extendScope [name] scopes) = some 0 := by
  cases scopes with
  | nil => exact absurd rfl h
  | cons held scopes => exact hopsIn_cons_of_mem List.mem_cons_self scopes

theorem hopsIn_extendScope_of_ne {x name : String} (h : x ≠ name) (scopes : List (List String)) :
    hopsIn x (extendScope [name] scopes) = hopsIn x scopes := by
  cases scopes with
  | nil => rfl
  | cons held scopes =>
    rw [extendScope_cons]
    by_cases hx : x ∈ held
    · rw [hopsIn_cons_of_mem hx, hopsIn_cons_of_mem (List.mem_append_right [name] hx)]
    · have hx' : x ∉ [name] ++ held := by simp [h, hx]
      rw [hopsIn_cons_of_not_mem hx, hopsIn_cons_of_not_mem hx']

/-! ### Declarations -/

mutual

def Stmt.declares : Stmt ρ → List String
  | .varDecl _ name _ | .funDecl _ name _ _ => [name]
  | .conditional _ _ t none => t.declares
  | .conditional _ _ t (some e) => e.declares ++ t.declares
  | .loop _ _ b => b.declares
  | .expression _ _ | .print _ _ | .block _ _ | .ret _ _ => []

def Stmt.declaresAll : List (Stmt ρ) → List String
  | [] => []
  | s :: ss => Stmt.declaresAll ss ++ s.declares

end

def paramNames (params : List Parameter) : List String := (params.map Parameter.name).reverse

theorem paramNames_cons (p : Parameter) (ps : List Parameter) :
    paramNames (p :: ps) = paramNames ps ++ [p.name] := by
  simp [paramNames]

/-! ### Labels -/

mutual

def Expr.annotate (f : ρ → Option Nat → τ) (scopes : List (List String)) : Expr ρ → Expr τ
  | .literal span v => .literal span v
  | .varRef span name ref => .varRef span name (f ref (hopsIn name scopes))
  | .assign span name ref value =>
    .assign span name (f ref (hopsIn name scopes)) (value.annotate f scopes)
  | .unary span op operand => .unary span op (operand.annotate f scopes)
  | .binary span op left right =>
    .binary span op (left.annotate f scopes) (right.annotate f scopes)
  | .logical span op left right =>
    .logical span op (left.annotate f scopes) (right.annotate f scopes)
  | .call span callee arguments =>
    .call span (callee.annotate f scopes) (Expr.annotateAll f scopes arguments)
  | .group span inner => .group span (inner.annotate f scopes)

def Expr.annotateAll (f : ρ → Option Nat → τ) (scopes : List (List String)) :
    List (Expr ρ) → List (Expr τ)
  | [] => []
  | e :: es => e.annotate f scopes :: Expr.annotateAll f scopes es

end

mutual

/-- Labels the references of a statement that stands in given scopes. A variable is in scope in its
own initializer, and a function in its own body, which has one scope with its parameters. -/
def Stmt.annotate (f : ρ → Option Nat → τ) (scopes : List (List String)) : Stmt ρ → Stmt τ
  | .expression span e => .expression span (e.annotate f scopes)
  | .print span e => .print span (e.annotate f scopes)
  | .varDecl span name initializer =>
    .varDecl span name (initializer.map fun e => e.annotate f (extendScope [name] scopes))
  | .block span body => .block span (Stmt.annotateAll f ([] :: scopes) body)
  | .conditional span c t none => .conditional span (c.annotate f scopes) (t.annotate f scopes) none
  | .conditional span c t (some e) =>
    .conditional span (c.annotate f scopes) (t.annotate f scopes)
      (some (e.annotate f (extendScope t.declares scopes)))
  | .loop span c b => .loop span (c.annotate f scopes) (b.annotate f scopes)
  | .funDecl span name params body =>
    .funDecl span name params
      (Stmt.annotateAll f (paramNames params :: extendScope [name] scopes) body)
  | .ret span value => .ret span (value.map fun e => e.annotate f scopes)

def Stmt.annotateAll (f : ρ → Option Nat → τ) (scopes : List (List String)) :
    List (Stmt ρ) → List (Stmt τ)
  | [] => []
  | s :: ss => s.annotate f scopes :: Stmt.annotateAll f (extendScope s.declares scopes) ss

end

def hopsLabel (_ : ρ) (hops : Option Nat) : Option Nat := hops

def Program.annotate (p : Program ρ) : Program (Option Nat) :=
  ⟨p.span, Stmt.annotateAll hopsLabel [] p.statements⟩

end Lox
