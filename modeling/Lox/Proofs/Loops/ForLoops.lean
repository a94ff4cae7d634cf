import Lox.Proofs.Execution.Frames
import Lox.Proofs.Scope.Lexical
import Lox.Proofs.Syntax.Placement

/-!
# Loops with a head

A `for` loop with its three clauses and its body, the tokens that form one, and what it means: it opens one
scope for the variable of its initializer, and then, pass after pass, evaluates the condition, runs the
body and evaluates the increment, all in that one scope. Its parts take room on the stack as if they stood in
blocks of their own. The tree that a loop is read as is another thing; where a tree stands in a program is
told by the scopes around it.
-/

namespace Lox

variable {ρ : Type}

/-- A `for` loop. Its keyword is the place of a condition that is left out. -/
structure ForLoop (ρ : Type) where
  keyword : Span
  span : Span
  initializer : Option (Stmt ρ)
  condition : Option (Expr ρ)
  increment : Option (Expr ρ)
  body : Stmt ρ

namespace ForLoop

/-- The tree that the parser makes of a loop. -/
def tree (l : ForLoop Unit) : Stmt Unit :=
  Parser.forLoop l.keyword l.span l.initializer l.condition l.increment l.body

/-- What the tree runs in each pass: the increment stands in a block behind the body. -/
def step (l : ForLoop Unit) : Stmt Unit :=
  match l.increment with
  | none => l.body
  | some e => .block l.span [l.body, .expression e.span e]

/-- The part of the tree behind the initializer. -/
def passesTree (l : ForLoop Unit) : Stmt Unit :=
  .loop l.span (l.condition.getD (.literal l.keyword (.boolean true))) l.step

/-- The scopes in a loop: one more than around it, with the variable of the initializer. -/
def scopes (l : ForLoop ρ) (around : List (List String)) : List (List String) :=
  (l.initializer.elim [] Stmt.declares) :: around

/-- Labels the references of a loop that stands in given scopes. -/
def annotate (around : List (List String)) (l : ForLoop ρ) : ForLoop (Option Nat) where
  keyword := l.keyword
  span := l.span
  initializer := l.initializer.map fun s => s.annotate hopsLabel ([] :: around)
  condition := l.condition.map fun e => e.annotate hopsLabel (l.scopes around)
  increment := l.increment.map fun e => e.annotate hopsLabel (l.scopes around)
  body := l.body.annotate hopsLabel (l.scopes around)

theorem isSome_initializer (around : List (List String)) (l : ForLoop Unit) :
    (l.annotate around).initializer.isSome = l.initializer.isSome := Option.isSome_map

theorem tree_of_none {l : ForLoop Unit} (h : l.initializer = none) : l.tree = l.passesTree := by
  unfold tree
  rw [h]
  rfl

theorem annotate_tree_of_some {l : ForLoop Unit} {s : Stmt Unit} (h : l.initializer = some s)
    (around : List (List String)) :
    l.tree.annotate hopsLabel around =
      .block l.span [s.annotate hopsLabel ([] :: around),
        l.passesTree.annotate hopsLabel (l.scopes around)] := by
  have hscopes : l.scopes around = extendScope s.declares ([] :: around) := by
    rw [scopes, h, extendScope_cons, List.append_nil]
    rfl
  rw [hscopes]
  unfold tree
  rw [h]
  rfl

end ForLoop

/-! ### What a loop means -/

/-- Passes of a loop, at most so many: it ends if the condition does not hold; after the body it ends with
its value if the body has returned one, and else the increment comes before the next pass. -/
def repeatFor (condition : Run Value) (body : Run Completion) (increment : Run Value) :
    Nat → Run Completion
  | 0 => throw .passesUsedUp
  | n + 1 => do
    let v ← condition
    if v.isTruthy then
      match ← body with
      | .normal =>
        let _ ← increment
        repeatFor condition body increment n
      | .returned v => return .returned v
    else return .normal

/-- Runs a step as a block does that is there or not. -/
def Run.insideBlock {α : Type} (isThere : Bool) (m : Run α) : Run α :=
  if isThere then Run.inside .block m else m

namespace ForLoop

/-- The value of the condition, true if it is left out. -/
def evalCondition (call : CallRule) (env : Environment) (l : ForLoop (Option Nat)) : Run Value :=
  match l.condition with
  | none => Run.inside .literal (return .boolean true)
  | some e => evalExpr call env e

def execInitializer (call : CallRule) (passes : Nat) (env : Environment) (l : ForLoop (Option Nat)) :
    Run Unit :=
  match l.initializer with
  | none => return ()
  | some s => do let _ ← execStmt call passes env s

def evalIncrement (call : CallRule) (env : Environment) (l : ForLoop (Option Nat)) : Run Value :=
  match l.increment with
  | none => return .nil
  | some e => Run.inside .expression (evalExpr call env e)

/-- The passes of a loop, all in one scope. On the stack, a pass that has an increment is a block. -/
def execPasses (call : CallRule) (passes : Nat) (scope : Environment) (l : ForLoop (Option Nat)) :
    Run Completion :=
  Run.inside .loop <|
    repeatFor (l.evalCondition call scope)
      (Run.insideBlock l.increment.isSome (execStmt call passes scope l.body))
      (Run.insideBlock l.increment.isSome (l.evalIncrement call scope)) passes

/-- Runs a loop: one new scope for the initializer and all passes. On the stack, a loop that has an
initializer is a block. -/
def exec (call : CallRule) (passes : Nat) (env : Environment) (l : ForLoop (Option Nat)) :
    Run Completion :=
  Run.insideBlock l.initializer.isSome do
    let scope ← Run.enter env "block"
    l.execInitializer call passes scope
    l.execPasses call passes scope

end ForLoop

/-! ### Passes -/

/-- A body, and behind it the increment if it does not return. -/
def followedBy (body : Run Completion) (increment : Run Value) : Run Completion := do
  match ← body with
  | .normal =>
    let _ ← increment
    return .normal
  | .returned v => return .returned v

/-- The worlds in which the step of a loop is begun, pass after pass, from the world in front of one,
however much room there is for each part. -/
inductive Passes (condition : Run Value) (step : Run Completion) : World → List World → Prop where
  | none (w : World) : Passes condition step w []
  | last {room : Room} {w u : World} {v : Value} : condition.run room w = .ok v u → v.isTruthy = true →
    Passes condition step w [u]
  | next {room room' : Room} {w u u' : World} {v : Value} {us : List World} :
    condition.run room w = .ok v u → v.isTruthy = true → step.run room' u = .ok .normal u' →
      Passes condition step u' us → Passes condition step w (u :: us)

/-- The body of a loop, run from a world, is begun in these worlds, in the scope of the loop. -/
def ForLoop.Begins (call : CallRule) (passes : Nat) (env : Environment) (l : ForLoop (Option Nat))
    (w : World) (us : List World) : Prop :=
  let scope := env.child w.store.size
  ∃ room u, (l.execInitializer call passes scope).run room
      { w with store := (w.store.alloc "block").2 } = .ok () u ∧
    Passes (l.evalCondition call scope)
      (followedBy (execStmt call passes scope l.body) (l.evalIncrement call scope)) u us

/-! ### Tokens of a loop -/

namespace Grammar

/-- Tokens form a `for` loop with these clauses and this body. -/
inductive IsForLoop (takesElse : Bool) : List Token → ForLoop Unit → Prop where
  | intro {keyword left semicolon right : Token} {is cs ns bs : List Token}
    {i : Option (Stmt Unit)} {c n : Option (Expr Unit)} {b : Stmt Unit} :
    keyword.kind = .kwFor → left.kind = .leftParen → IsInitializer is i → IsOptional cs c →
      semicolon.kind = .semicolon → IsOptional ns n → right.kind = .rightParen →
      IsStmt (.branch takesElse) bs b →
      IsForLoop takesElse (keyword :: left :: (is ++ (cs ++ semicolon :: (ns ++ right :: bs))))
        ⟨keyword.span, spanOf (keyword :: left :: (is ++ (cs ++ semicolon :: (ns ++ right :: bs)))),
          i, c, n, b⟩

theorem IsForLoop.isInitializer {takesElse : Bool} {ts : List Token} {l : ForLoop Unit}
    (h : IsForLoop takesElse ts l) : ∃ is, IsInitializer is l.initializer := by
  obtain ⟨-, -, hi, -, -, -, -, -⟩ := h
  exact ⟨_, hi⟩

theorem IsForLoop.declares_body {takesElse : Bool} {ts : List Token} {l : ForLoop Unit}
    (h : IsForLoop takesElse ts l) : l.body.declares = [] := by
  obtain ⟨-, -, -, -, -, -, -, hb⟩ := h
  exact (placed_of_isStmt hb).1 takesElse rfl

/-- The statements that begin with `for` are the loops. -/
theorem isStmt_iff_of_for {takesElse : Bool} {t : Token} {ts : List Token} {s : Stmt Unit}
    (ht : t.kind = .kwFor) :
    IsStmt (.branch takesElse) (t :: ts) s ↔ ∃ l, IsForLoop takesElse (t :: ts) l ∧ s = l.tree := by
  constructor
  · intro h
    cases h with
    | expression he =>
      obtain ⟨u, us, heq, hu⟩ := he.begins
      obtain rfl := (List.cons.inj heq).1
      rw [ht] at hu
      cases hu
    | print hk | ret hk | block hk | ifThen hk | ifElse hk | loop hk => cases ht.symm.trans hk
    | forLoop hk hleft hi hc hsemicolon hn hright hb =>
      exact ⟨_, .intro hk hleft hi hc hsemicolon hn hright hb, rfl⟩
  · rintro ⟨l, hl, rfl⟩
    cases hl with
    | intro hk hleft hi hc hsemicolon hn hright hb =>
      exact .forLoop hk hleft hi hc hsemicolon hn hright hb

end Grammar

end Lox
