import Lox.Machine
import Lox.Native
import Lox.RuntimeError
import Lox.Store

/-!
# Evaluation

Expressions evaluate to values and statements run to a completion, in an environment and a world that
they may change. Evaluation recurs on the syntax tree; a call hands over to the body of the function
with one call less to spare, so nesting is bounded by the limit on calls; loops alone may run on, and
are cut off after a given number of passes. An error leaves the world as it was at that moment.

Everything that an evaluation is in the middle of takes room on the stack of the host. Where there is no
room the program has overflowed, even if it has calls to spare.
-/

namespace Lox

/-! ### Worlds and outcomes -/

/-- What a running program changes: the frames, the printed texts, the number of functions made so
far and the number of calls of built-in functions. -/
structure World where
  store : Store := {}
  printed : Array String := #[]
  functions : Nat := 0
  nativeCalls : Nat := 0
deriving Inhabited

/-- Why evaluation stops early: an error of the program, a defect in its resolution, a loop that has used
up its passes, or a host that refuses to give a stack of the size that is asked for. -/
inductive Stop where
  | error (e : RuntimeError) (span : Span)
  | defect (d : Defect)
  | passesUsedUp
  | refused
deriving Repr, Inhabited

/-- What changes a state and may stop early, in the room that is left on the stack. -/
abbrev RunOf (σ α : Type) : Type := ReaderT Room (EStateM Stop σ) α

abbrev Run (α : Type) : Type := RunOf World α

inductive Completion where
  | normal
  | returned (v : Value)
deriving Inhabited

/-- What evaluation depends on besides the program and the world. -/
structure Host where
  natives : Registry
  /-- The time at each call of a built-in function. -/
  clock : Nat → Float
  /-- Calls that may be in progress at the same time. -/
  maxCallDepth : Nat
  /-- Passes that a loop may make before it is cut off. -/
  maxPasses : Nat

namespace Run

section Room

variable {σ α : Type}

/-- Runs a step inside an activity, if there is room for it. -/
def inside (a : Activity) (m : RunOf σ α) : RunOf σ α := fun room =>
  if room.fits a then m (room.inside a) else throw (.error .stackExhausted room.blame)

/-- Runs a step so that the given place is told about where there is no room. -/
def blaming (span : Span) (m : RunOf σ α) : RunOf σ α := fun room => m (room.blaming span)

def calling (span : Span) (m : RunOf σ α) : RunOf σ α := fun room => m (room.calling span)

end Room

def fail {α : Type} (e : RuntimeError) (span : Span) : Run α := inside .report (throw (.error e span))

def ofExcept {α : Type} : Except Defect α → Run α
  | .ok a => pure a
  | .error d => throw (.defect d)

def ofOperator {α : Type} (span : Span) : Except RuntimeError α → Run α
  | .ok a => pure a
  | .error e => fail e span

/-! ### Names -/

/-- The value of a reference: a local that many frames out, or a global. -/
def read (env : Environment) (name : String) (ref : Option Nat) (span : Span) : Run Value := do
  let w ← get
  match ref with
  | some hops => ofExcept (w.store.getAt env hops name)
  | none =>
    match w.store.getGlobal? env name with
    | some v => return v
    | none => fail (.undefinedVariable name) span

def defineIn (id : FrameId) (name : String) (v : Value) : Run Unit :=
  modify fun w => { w with store := w.store.define id name v }

/-- Assigns through a reference. -/
def assign (env : Environment) (name : String) (ref : Option Nat) (span : Span) (v : Value) :
    Run Unit := do
  let w ← get
  match ref with
  | some hops =>
    let id ← ofExcept (w.store.slotAt env hops name)
    defineIn id name v
  | none =>
    match w.store.globalSlot? env name with
    | some id => defineIn id name v
    | none => fail (.undefinedVariable name) span

def define (env : Environment) (name : String) (v : Value) : Run Unit :=
  defineIn env.frame name v

def enter (env : Environment) (name : String) : Run Environment :=
  modifyGet fun w =>
    let (id, store) := w.store.alloc name
    (env.child id, { w with store := store })

/-- A function that is different from all others. -/
def newFunction (f : Callable) : Run Value :=
  modifyGet fun w => (.function w.functions f, { w with functions := w.functions + 1 })

def print (text : String) : Run Unit :=
  modify fun w => { w with printed := w.printed.push text }

end Run

/-! ### Operators -/

def UnaryOp.apply : UnaryOp → Value → Except RuntimeError Value
  | .not, v => .ok (.boolean (!v.isTruthy))
  | .negate, .number x => .ok (.number (-x))
  | .negate, v => .error (.operandTypes "-" [v.kind] "a number")

def BinaryOp.applyNumbers (op : BinaryOp) (x y : Float) : Except RuntimeError Value :=
  match op with
  | .add => .ok (.number (x + y))
  | .subtract => .ok (.number (x - y))
  | .multiply => .ok (.number (x * y))
  | .divide => if y == 0.0 then .error .divisionByZero else .ok (.number (x / y))
  | .less => .ok (.boolean (x < y))
  | .lessEqual => .ok (.boolean (x <= y))
  | .greater => .ok (.boolean (x > y))
  | .greaterEqual => .ok (.boolean (x >= y))
  | .equal => .ok (.boolean (x == y))
  | .notEqual => .ok (.boolean (!(x == y)))

def BinaryOp.apply (op : BinaryOp) (v w : Value) : Except RuntimeError Value :=
  match op with
  | .equal => .ok (.boolean (v.equals w))
  | .notEqual => .ok (.boolean (!v.equals w))
  | op =>
    match op, v, w with
    | op, .number x, .number y => op.applyNumbers x y
    | .add, .string s, .string t => .ok (.string (s ++ t))
    | .add, v, w => .error (.operandTypes "+" [v.kind, w.kind] "two numbers or two strings")
    | op, v, w => .error (.operandTypes op.symbol [v.kind, w.kind] "two numbers")

def LogicalOp.isSettledBy : LogicalOp → Value → Bool
  | .or, v => v.isTruthy
  | .and, v => !v.isTruthy

/-! ### Expressions and statements

Both take the rule for calls as an argument. -/

abbrev CallRule : Type := Callable → List Value → Span → Run Value

/-- Calls a value: it has to be a function, the arguments are evaluated before they are counted. -/
def applyValue (call : CallRule) (callee : Value) (arguments : Run (List Value)) (span : Span) :
    Run Value := do
  match callee with
  | .function _ f =>
    let vs ← arguments
    if vs.length = f.arity then call f vs span
    else Run.fail (.arityMismatch f.name f.arity vs.length) span
  | v => Run.fail (.notCallable v.kind) span

def Expr.activity {ρ : Type} : Expr ρ → Activity
  | .literal _ _ => .literal
  | .varRef _ _ _ => .reference
  | .assign _ _ _ _ => .assignment
  | .unary _ _ _ => .unary
  | .binary _ _ _ _ => .binary
  | .logical _ _ _ _ => .logical
  | .call _ _ _ => .call
  | .group _ _ => .group

mutual

def evalExpr (call : CallRule) (env : Environment) (e : ResolvedExpr) : Run Value :=
  Run.inside e.activity <|
    match e with
    | .literal _ v => return .ofLiteral v
    | .varRef span name ref => Run.read env name ref span
    | .assign span name ref value => do
      let v ← evalExpr call env value
      Run.assign env name ref span v
      return v
    | .unary span op operand => do
      let v ← evalExpr call env operand
      Run.ofOperator span (op.apply v)
    | .binary span op left right => do
      let v ← evalExpr call env left
      let w ← evalExpr call env right
      Run.ofOperator span (op.apply v w)
    | .logical _ op left right => do
      let v ← evalExpr call env left
      if op.isSettledBy v then return v else evalExpr call env right
    | .call span callee arguments => do
      let f ← evalExpr call env callee
      applyValue call f (Run.inside .arguments (evalExprs call env arguments)) span
    | .group _ inner => evalExpr call env inner

def evalExprs (call : CallRule) (env : Environment) : List ResolvedExpr → Run (List Value)
  | [] => return []
  | e :: es => do
    let v ← evalExpr call env e
    let vs ← evalExprs call env es
    return v :: vs

end

/-- The value of an expression that may be left out, nil if it is. -/
def evalOptional (call : CallRule) (env : Environment) : Option ResolvedExpr → Run Value
  | none => return .nil
  | some e => evalExpr call env e

/-- Runs a body as long as a condition holds and the body does not return, at most so many times. -/
def repeatWhile (condition : Run Value) (body : Run Completion) : Nat → Run Completion
  | 0 => throw .passesUsedUp
  | n + 1 => do
    let v ← condition
    if v.isTruthy then
      match ← body with
      | .normal => repeatWhile condition body n
      | .returned v => return .returned v
    else return .normal

def Stmt.activity {ρ : Type} : Stmt ρ → Activity
  | .expression _ _ => .expression
  | .print _ _ => .print
  | .varDecl _ _ _ => .varDecl
  | .block _ _ => .block
  | .conditional _ _ _ _ => .conditional
  | .loop _ _ _ => .loop
  | .funDecl _ _ _ _ => .funDecl
  | .ret _ _ => .ret

mutual

def execStmt (call : CallRule) (passes : Nat) (env : Environment) (s : ResolvedStmt) : Run Completion :=
  Run.inside s.activity <|
    match s with
    | .expression _ e => do
      let _ ← evalExpr call env e
      return .normal
    | .print _ e => do
      let v ← evalExpr call env e
      Run.print v.text
      return .normal
    | .varDecl _ name initializer => do
      let v ← evalOptional call env initializer
      Run.define env name v
      return .normal
    | .block _ body => do
      let inner ← Run.enter env "block"
      execStmts call passes inner body
    | .conditional _ condition thenBranch none => do
      let v ← evalExpr call env condition
      if v.isTruthy then execStmt call passes env thenBranch else return .normal
    | .conditional _ condition thenBranch (some elseBranch) => do
      let v ← evalExpr call env condition
      if v.isTruthy then execStmt call passes env thenBranch
      else execStmt call passes env elseBranch
    | .loop _ condition body =>
      repeatWhile (evalExpr call env condition) (execStmt call passes env body) passes
    | .funDecl _ name params body => do
      let f ← Run.newFunction (.closure ⟨name, params, body, env⟩)
      Run.define env name f
      return .normal
    | .ret _ value => do
      let v ← evalOptional call env value
      return .returned v

def execStmts (call : CallRule) (passes : Nat) (env : Environment) :
    List ResolvedStmt → Run Completion
  | [] => return .normal
  | s :: ss => do
    match ← execStmt call passes env s with
    | .normal => execStmts call passes env ss
    | .returned v => return .returned v

end

/-! ### Calls -/

def callNative (host : Host) (name : String) (arguments : List Value) (span : Span) : Run Value := do
  let now ← modifyGet fun w : World =>
    (host.clock w.nativeCalls, { w with nativeCalls := w.nativeCalls + 1 })
  match host.natives.find? name with
  | none => return .nil
  | some native =>
    match native.run now arguments with
    | .ok v => return v
    | .error message => Run.fail (.nativeFailure name message) span

def bindParams (env : Environment) : List Parameter → List Value → Run Unit
  | p :: ps, v :: vs => do
    Run.define env p.name v
    bindParams env ps vs
  | _, _ => return ()

/-- Calls a function of the program in a new frame inside the environment of its declaration. -/
def callClosure (host : Host) (call : CallRule) (c : Closure) (arguments : List Value) : Run Value := do
  let env ← Run.enter c.env c.name
  bindParams env c.params arguments
  match ← execStmts call host.maxPasses env c.body with
  | .normal => return .nil
  | .returned v => return v

/-- The rule for calls when so many more calls may be in progress. Where there is no room in a call, it has
overflowed. -/
def callWithin (host : Host) : Nat → CallRule
  | 0 => fun _ _ span => Run.fail .stackOverflow span
  | calls + 1 => fun f arguments span =>
    Run.calling span <|
      match f with
      | .native name _ => Run.inside .native (callNative host name arguments span)
      | .closure c => Run.inside .body (callClosure host (callWithin host calls) c arguments)

/-! ### Programs -/

/-- Runs a statement at top level, where no call is in progress. -/
def execTopLevel (host : Host) (globals : Environment) (s : ResolvedStmt) : Run Unit := do
  match ← execStmt (callWithin host host.maxCallDepth) host.maxPasses globals s with
  | .normal => return ()
  | .returned _ => throw (.defect .strayReturn)

/-- Runs the statements of a program. Outside of calls a statement as a whole has overflowed. -/
def execProgram (host : Host) (globals : Environment) : List ResolvedStmt → Run Unit
  | [] => return ()
  | s :: ss => do
    Run.blaming s.span (execTopLevel host globals s)
    execProgram host globals ss

end Lox
