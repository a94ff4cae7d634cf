import Lox.Scope.Finding
import Lox.Syntax.Basic

/-!
# The walk over a program

One walk over a program finds for every reference how many scopes lie between it and the declaration
it means. Blocks and functions open a scope; what a scope holds at a point of the walk is what has
been declared in it so far. A reference that no open scope declares is global and keeps its name
only. The walk also collects what is wrong with the declarations.

What is still to do lies on a stack of tasks, so the depth of a program costs no nesting: doing a task
puts the tasks for its parts on the stack, between the opening and the closing of a scope if it has
one.
-/

namespace Lox

/-- A declared name: where, and whether it may be read already. -/
structure Binding where
  span : Span
  ready : Bool
deriving DecidableEq, Repr, Inhabited

/-- The names declared in one scope so far, the latest declaration first. -/
abbrev Scope : Type := List (String × Binding)

/-- The number of scopes between a place and the nearest one that declares a name, counting outward
from the innermost. -/
def hops? (name : String) (scopes : List Scope) : Option Nat :=
  scopes.findIdx? fun s => (s.lookup name).isSome

namespace Resolution

/-- What the walk depends on besides the program. -/
structure Rules where
  allowRedeclaration : Bool
  warnUndefined : Bool
  /-- Names that are known to be global. -/
  isGlobal : String → Bool

/-- The state of the walk: the open scopes, the innermost first; the number of functions around; the
references found to be local with their hops, the latest first; the global names warned about; and
the findings, the latest first. -/
structure Progress (ι : Type) where
  scopes : List Scope := []
  functionDepth : Nat := 0
  bindings : List (ι × Nat) := []
  warned : List String := []
  findings : List Finding := []
deriving Inhabited

abbrev Walk (ι α : Type) : Type := StateM (Progress ι) α

variable {ι : Type}

/-! ### Declarations -/

def note (issue : ScopeIssue) (span : Span) : Walk ι Unit :=
  modify fun p => { p with findings := ⟨issue, span⟩ :: p.findings }

def openScope : Walk ι Unit := modify fun p => { p with scopes := [] :: p.scopes }

def closeScope : Walk ι Unit := modify fun p => { p with scopes := p.scopes.tail }

def changeInnermost (f : Scope → Scope) : Walk ι Unit :=
  modify fun p => { p with scopes := p.scopes.modifyHead f }

def innermost? : Walk ι (Option Scope) := return (← get).scopes.head?

def enter (name : String) (binding : Binding) : Walk ι Unit := changeInnermost ((name, binding) :: ·)

/-- Declares a name in the innermost scope. At top level nothing happens: globals are looked up by
name when the program runs. -/
def declare (rules : Rules) (name : String) (span : Span) (ready : Bool) : Walk ι Unit := do
  if let some scope ← innermost? then
    if let some previous := scope.lookup name then
      if !rules.allowRedeclaration then note (.duplicateDeclaration name previous.span) span
    enter name ⟨span, ready⟩

def define (name : String) : Walk ι Unit :=
  changeInnermost fun scope =>
    scope.map fun e => if e.1 = name then (e.1, { e.2 with ready := true }) else e

def declareParams : List Parameter → Walk ι Unit
  | [] => pure ()
  | p :: ps => do
    if let some scope ← innermost? then
      if (scope.lookup p.name).isSome then note (.duplicateParameter p.name) p.span
    enter p.name ⟨p.span, true⟩
    declareParams ps

def beginFunction (params : List Parameter) : Walk ι Unit := do
  modify fun p => { p with functionDepth := p.functionDepth + 1 }
  openScope
  declareParams params

def endFunction : Walk ι Unit := do
  closeScope
  modify fun p => { p with functionDepth := p.functionDepth - 1 }

/-! ### References -/

/-- Binds a reference to the nearest scope that declares its name. The first reference to each global
name that nothing declares is warned about. -/
def locate (rules : Rules) (node : ι) (name : String) (span : Span) : Walk ι Unit := do
  let p ← get
  match hops? name p.scopes with
  | some n => set { p with bindings := (node, n) :: p.bindings }
  | none =>
    if rules.warnUndefined && !rules.isGlobal name && !p.warned.contains name then
      set { p with warned := name :: p.warned }
      note (.undefinedGlobal name) span

/-- Notes an error if a name is read that the innermost scope declares but that may not be read
yet. -/
def checkReady (name : String) (span : Span) : Walk ι Unit := do
  if let some scope ← innermost? then
    if let some binding := scope.lookup name then
      if !binding.ready then note (.selfReference name) span

/-- Notes an error if no function is around to return from. -/
def checkReturn (span : Span) : Walk ι Unit := do
  if (← get).functionDepth = 0 then note .returnOutsideFunction span

/-! ### Tasks -/

inductive Task (ι : Type) where
  | statement (s : Stmt ι)
  | expression (e : Expr ι)
  | define (name : String)
  | target (node : ι) (name : String) (span : Span)
  | beginFunction (params : List Parameter)
  | endFunction
  | closeScope
deriving Inhabited

/-- Begins an expression: the tasks that are left of it, operands from left to right and the target
of an assignment last. -/
def visitExpr (rules : Rules) : Expr ι → Walk ι (List (Task ι))
  | .literal _ _ => return []
  | .varRef span name node => do
    checkReady name span
    locate rules node name span
    return []
  | .assign span name node value => return [.expression value, .target node name span]
  | .unary _ _ operand => return [.expression operand]
  | .binary _ _ left right | .logical _ _ left right => return [.expression left, .expression right]
  | .call _ callee arguments => return .expression callee :: arguments.map .expression
  | .group _ inner => return [.expression inner]

/-- Begins a statement: the tasks that are left of it. A variable is declared before its initializer
and may be read behind it; a function may be read in its own body. -/
def visitStmt (rules : Rules) : Stmt ι → Walk ι (List (Task ι))
  | .expression _ e | .print _ e => return [.expression e]
  | .varDecl span name initializer => do
    declare rules name span false
    return initializer.toList.map .expression ++ [.define name]
  | .block _ body => do
    openScope
    return body.map .statement ++ [.closeScope]
  | .conditional _ condition thenBranch elseBranch =>
    return .expression condition :: .statement thenBranch :: elseBranch.toList.map .statement
  | .loop _ condition body => return [.expression condition, .statement body]
  | .funDecl span name params body => do
    declare rules name span true
    return .beginFunction params :: (body.map .statement ++ [.endFunction])
  | .ret span value => do
    checkReturn span
    return value.toList.map .expression

def perform (rules : Rules) : Task ι → Walk ι (List (Task ι))
  | .statement s => visitStmt rules s
  | .expression e => visitExpr rules e
  | .define name => do define name; return []
  | .target node name span => do locate rules node name span; return []
  | .beginFunction params => do beginFunction params; return []
  | .endFunction => do endFunction; return []
  | .closeScope => do closeScope; return []

/-- Does at most `n` tasks, what is left of a task before those below it: the tasks that remain. -/
def work (rules : Rules) : Nat → List (Task ι) → Walk ι (List (Task ι))
  | 0, pending => return pending
  | _ + 1, [] => return []
  | n + 1, task :: pending => do
    let parts ← perform rules task
    work rules n (parts ++ pending)

/-! ### The length of the walk -/

mutual

def exprTasks : Expr ι → Nat
  | .literal _ _ | .varRef _ _ _ => 1
  | .assign _ _ _ e => exprTasks e + 2
  | .unary _ _ e | .group _ e => exprTasks e + 1
  | .binary _ _ l r | .logical _ _ l r => exprTasks l + exprTasks r + 1
  | .call _ f args => exprTasks f + exprsTasks args + 1

def exprsTasks : List (Expr ι) → Nat
  | [] => 0
  | e :: es => exprTasks e + exprsTasks es

end

/-- The number of tasks that an expression makes, if it is there. -/
def optionalTasks : Option (Expr ι) → Nat
  | none => 0
  | some e => exprTasks e

mutual

def stmtTasks : Stmt ι → Nat
  | .expression _ e | .print _ e => exprTasks e + 1
  | .varDecl _ _ e => optionalTasks e + 2
  | .block _ body => stmtsTasks body + 2
  | .conditional _ c t none => exprTasks c + stmtTasks t + 1
  | .conditional _ c t (some e) => exprTasks c + stmtTasks t + stmtTasks e + 1
  | .loop _ c b => exprTasks c + stmtTasks b + 1
  | .funDecl _ _ _ body => stmtsTasks body + 3
  | .ret _ e => optionalTasks e + 1

def stmtsTasks : List (Stmt ι) → Nat
  | [] => 0
  | s :: ss => stmtTasks s + stmtsTasks ss

end

def reset : Walk ι Unit := set ({} : Progress ι)

/-- Walks over the statements of a program: the tasks that remain. -/
def walkProgram (rules : Rules) (p : Program ι) : Walk ι (List (Task ι)) := do
  reset
  work rules (stmtsTasks p.statements) (p.statements.map .statement)

end Resolution

end Lox
