import Lox.Proofs.Scope.Numbering
import Lox.Scope.Resolution

/-!
# Points

What the rules of scopes speak about, as a list: the scopes of a program, its declarations, references
and returns, in the order in which a reader meets them who reads the value of an assignment before its
target. A scope is known by the position of the point that opens it. The rules are said of one point
and the points before it, without a state that is carried along.
-/

namespace Lox

variable {ρ τ α : Type}

inductive PointKind where
  | scope
  | declaration (name : String)
  | parameter (name : String)
  /-- A variable is read; inside the initializer of a declaration, with the name that is declared. -/
  | reading (name : String) (initializing : Option String)
  | assignment (name : String)
  /-- A `return` inside of so many functions. -/
  | ret (functions : Nat)
deriving DecidableEq, Repr

/-- A place in a program and the scopes around it, the innermost first. -/
structure Point where
  kind : PointKind
  span : Span
  around : List Nat
deriving DecidableEq, Repr

/-! ### The points of a tree -/

mutual

def Expr.points (around : List Nat) (initializing : Option String) : Expr ρ → List Point
  | .literal _ _ => []
  | .varRef span name _ => [⟨.reading name initializing, span, around⟩]
  | .assign span name _ value =>
    value.points around initializing ++ [⟨.assignment name, span, around⟩]
  | .unary _ _ e | .group _ e => e.points around initializing
  | .binary _ _ l r | .logical _ _ l r => l.points around initializing ++ r.points around initializing
  | .call _ f args => f.points around initializing ++ Expr.pointsAll around initializing args

def Expr.pointsAll (around : List Nat) (initializing : Option String) : List (Expr ρ) → List Point
  | [] => []
  | e :: es => e.points around initializing ++ Expr.pointsAll around initializing es

end

def Expr.optionalPoints (around : List Nat) (initializing : Option String) (e : Option (Expr ρ)) :
    List Point :=
  e.elim [] (Expr.points around initializing)

def paramPoints (around : List Nat) (params : List Parameter) : List Point :=
  params.map fun p => ⟨.parameter p.name, p.span, around⟩

mutual

/-- The points of a statement inside of `functions` functions, where the first of them has the position
`first`. A variable is declared ahead of its initializer, and a function ahead of its scope. -/
def Stmt.points (around : List Nat) (functions first : Nat) : Stmt ρ → List Point
  | .expression _ e | .print _ e => e.points around none
  | .varDecl span name e =>
    ⟨.declaration name, span, around⟩ :: Expr.optionalPoints around (some name) e
  | .block span body =>
    ⟨.scope, span, around⟩ :: Stmt.pointsAll (first :: around) functions (first + 1) body
  | .conditional _ c t none =>
    let cs := c.points around none
    cs ++ t.points around functions (first + cs.length)
  | .conditional _ c t (some e) =>
    let cs := c.points around none
    let ts := cs ++ t.points around functions (first + cs.length)
    ts ++ e.points around functions (first + ts.length)
  | .loop _ c b =>
    let cs := c.points around none
    cs ++ b.points around functions (first + cs.length)
  | .funDecl span name params body =>
    let inner := (first + 1) :: around
    let head := [⟨.declaration name, span, around⟩, ⟨.scope, span, around⟩] ++ paramPoints inner params
    head ++ Stmt.pointsAll inner (functions + 1) (first + head.length) body
  | .ret span e => ⟨.ret functions, span, around⟩ :: Expr.optionalPoints around none e

def Stmt.pointsAll (around : List Nat) (functions first : Nat) : List (Stmt ρ) → List Point
  | [] => []
  | s :: ss =>
    let here := s.points around functions first
    here ++ Stmt.pointsAll around functions (first + here.length) ss

end

def Program.points (p : Program ρ) : List Point := Stmt.pointsAll [] 0 0 p.statements

/-! ### What the points before a point say -/

namespace Point

/-- What each point gives in view of the points before it. -/
def collect (f : List Point → Point → List α) (past : List Point) : List Point → List α
  | [] => []
  | point :: points => f past point ++ collect f (past ++ [point]) points

theorem collect_append (f : List Point → Point → List α) (past xs ys : List Point) :
    collect f past (xs ++ ys) = collect f past xs ++ collect f (past ++ xs) ys := by
  induction xs generalizing past with
  | nil => rw [List.append_nil]; rfl
  | cons point xs ih =>
    rw [List.cons_append, collect, collect, ih, List.append_assoc, List.append_assoc]
    rfl

theorem collect_concat (f : List Point → Point → List α) (past : List Point) (point : Point) :
    collect f [] (past ++ [point]) = collect f [] past ++ f past point := by
  rw [collect_append, List.nil_append]
  exact congrArg _ (List.append_nil _)

/-- The name that a point declares in a scope, and where. -/
def declares? (scope : Nat) : Point → Option (String × Span)
  | ⟨.declaration name, span, around⟩ | ⟨.parameter name, span, around⟩ =>
    if around.head? = some scope then some (name, span) else none
  | _ => none

/-- What a scope holds behind some points, the latest declaration first. -/
def held (past : List Point) (scope : Nat) : List (String × Span) :=
  (past.filterMap (declares? scope)).reverse

theorem held_concat (past : List Point) (point : Point) (scope : Nat) :
    held (past ++ [point]) scope = (point.declares? scope).toList ++ held past scope := by
  rw [held, List.filterMap_append, List.reverse_append]
  cases h : point.declares? scope <;> simp [h, held]

/-- Where the innermost scope around a point has declared a name last. -/
def previous? (past : List Point) (point : Point) (name : String) : Option Span :=
  point.around.head?.bind fun scope => (held past scope).lookup name

def isBound (past : List Point) (point : Point) (name : String) : Bool :=
  point.around.any fun scope => ((held past scope).lookup name).isSome

/-- The name that a point reads or assigns, if no scope around it holds the name there. -/
def unbound (past : List Point) (point : Point) : List String :=
  match point.kind with
  | .reading name _ | .assignment name => if point.isBound past name then [] else [name]
  | _ => []

/-! ### The rules -/

/-- The first reference that finds a name in no scope is warned about, unless the name is known. -/
def warnings (rules : Resolution.Rules) (past : List Point) (point : Point) : List Finding :=
  ((point.unbound past).filter fun name => rules.warnUndefined && !rules.isGlobal name &&
    !(collect unbound [] past).contains name).map fun name => ⟨.undefinedGlobal name, point.span⟩

/-- What is wrong with a point behind the points `past`. -/
def findings (rules : Resolution.Rules) (past : List Point) (point : Point) : List Finding :=
  match point.kind with
  | .scope => []
  | .declaration name =>
    if rules.allowRedeclaration then []
    else (point.previous? past name).toList.map fun s => ⟨.duplicateDeclaration name s, point.span⟩
  | .parameter name =>
    (point.previous? past name).toList.map fun _ => ⟨.duplicateParameter name, point.span⟩
  | .reading name initializing =>
    (if initializing = some name ∧ point.around ≠ [] then [⟨.selfReference name, point.span⟩] else []) ++
      point.warnings rules past
  | .assignment _ => point.warnings rules past
  | .ret functions => if functions = 0 then [⟨.returnOutsideFunction, point.span⟩] else []

end Point

/-- Everything that is wrong with the names and the returns of a program, point by point. -/
def Program.pointFindings (rules : Resolution.Rules) (p : Program ρ) : List Finding :=
  Point.collect (Point.findings rules) [] p.points

/-! ### Without labels -/

mutual

theorem Expr.points_map (g : ρ → τ) (around : List Nat) (initializing : Option String) (e : Expr ρ) :
    (e.map g).points around initializing = e.points around initializing := by
  cases e with
  | literal | varRef => rfl
  | assign span name ref value => simp only [Expr.map, Expr.points, Expr.points_map g _ _ value]
  | unary span op operand => exact Expr.points_map g around initializing operand
  | binary span op left right | logical span op left right =>
    simp only [Expr.map, Expr.points, Expr.points_map g _ _ left, Expr.points_map g _ _ right]
  | call span callee arguments =>
    simp only [Expr.map, Expr.points, Expr.points_map g _ _ callee,
      Expr.pointsAll_mapAll g _ _ arguments]
  | group span inner => exact Expr.points_map g around initializing inner

theorem Expr.pointsAll_mapAll (g : ρ → τ) (around : List Nat) (initializing : Option String)
    (es : List (Expr ρ)) :
    Expr.pointsAll around initializing (Expr.mapAll g es) = Expr.pointsAll around initializing es := by
  cases es with
  | nil => rfl
  | cons e es =>
    simp only [Expr.mapAll, Expr.pointsAll, Expr.points_map g _ _ e, Expr.pointsAll_mapAll g _ _ es]

end

theorem Expr.optionalPoints_map (g : ρ → τ) (around : List Nat) (initializing : Option String)
    (e : Option (Expr ρ)) :
    Expr.optionalPoints around initializing (e.map (Expr.map g)) =
      Expr.optionalPoints around initializing e := by
  cases e with
  | none => rfl
  | some e => exact Expr.points_map g around initializing e

mutual

theorem Stmt.points_map (g : ρ → τ) (around : List Nat) (functions first : Nat) (s : Stmt ρ) :
    (s.map g).points around functions first = s.points around functions first := by
  cases s with
  | expression span e | print span e => exact Expr.points_map g around none e
  | varDecl span name e =>
    exact congrArg (List.cons _) (Expr.optionalPoints_map g around (some name) e)
  | block span body => exact congrArg (List.cons _) (Stmt.pointsAll_mapAll g _ functions _ body)
  | conditional span c t e =>
    cases e <;>
      simp only [Stmt.map, Stmt.points, Expr.points_map g _ _ c, Stmt.points_map g]
  | loop span c b => simp only [Stmt.map, Stmt.points, Expr.points_map g _ _ c, Stmt.points_map g _ _ _ b]
  | funDecl span name params body =>
    exact congrArg (_ ++ ·) (Stmt.pointsAll_mapAll g _ (functions + 1) _ body)
  | ret span e => exact congrArg (List.cons _) (Expr.optionalPoints_map g around none e)

theorem Stmt.pointsAll_mapAll (g : ρ → τ) (around : List Nat) (functions first : Nat)
    (ss : List (Stmt ρ)) :
    Stmt.pointsAll around functions first (Stmt.mapAll g ss) =
      Stmt.pointsAll around functions first ss := by
  cases ss with
  | nil => rfl
  | cons s ss =>
    simp only [Stmt.mapAll, Stmt.pointsAll, Stmt.points_map g _ _ _ s, Stmt.pointsAll_mapAll g _ _ _ ss]

end

theorem Program.points_numbered (p : Program Unit) : p.numbered.points = p.points := by
  have h := Stmt.pointsAll_mapAll noLabel [] 0 0 p.numbered.statements
  have hm := congrArg Program.statements p.map_numbered
  rw [Program.points, ← h]
  exact congrArg (Stmt.pointsAll [] 0 0) hm

end Lox
