import Lox.Evaluation
import Lox.Session

/-!
# Lexical scoping

A semantics of programs as they are written, without resolved references. An environment is an immutable
list of local names with their locations. A local declaration and a parameter take a fresh location and
extend the environment of the code after them; a function keeps the environment of its declaration,
extended with its own name; a block, a branch or a call drops what it has added when it ends. A name that
the environment does not hold is looked up in one table of globals. Operators, built-in functions, the
clock and the limits on calls and passes are those of `Lox.Evaluation`. There is no stack that could come to
its end.
-/

namespace Lox.Lexical

/-! ### Values -/

abbrev Location : Type := Nat

abbrev Env : Type := List (String × Location)

/-- A function declared in a program, with the environment that its body extends. -/
structure Closure where
  name : String
  params : List Parameter
  body : List (Stmt Unit)
  env : Env

inductive Callable where
  | native (name : String) (arity : Nat)
  | closure (c : Closure)

inductive Value where
  | constant (l : Literal)
  | function (id : Nat) (f : Callable)

instance : Inhabited Value := ⟨.constant .nil⟩

def Callable.name : Callable → String
  | native name _ => name
  | closure c => c.name

def Callable.arity : Callable → Nat
  | native _ arity => arity
  | closure c => c.params.length

def bareBody {ρ : Type} (body : List (Stmt ρ)) : List ResolvedStmt := Stmt.mapAll (fun _ => none) body

def Callable.outline : Callable → Lox.Callable
  | native name arity => .native name arity
  | closure c => .closure ⟨c.name, c.params, bareBody c.body, default⟩

/-- All that operators and built-in functions see of a value, and all that is seen of a global from
outside: of a function everything but its environment. -/
def Value.outline : Value → Lox.Value
  | constant l => .ofLiteral l
  | function id f => .function id f.outline

def Value.ofResult : Lox.Value → Value
  | .nil => constant .nil
  | .boolean b => constant (.boolean b)
  | .number x => constant (.number x)
  | .string s => constant (.string s)
  | .function _ _ => constant .nil

/-! ### Worlds -/

structure World where
  cells : List Value := []
  globals : String → Option Value := fun _ => none
  printed : Array String := #[]
  functions : Nat := 0
  nativeCalls : Nat := 0

abbrev Run (α : Type) : Type := EStateM Stop World α

/-- How a statement ends: in the environment of the code after it, or with the value of a `return`. -/
inductive Completion where
  | normal (env : Env)
  | returned (v : Value)

def Completion.leave (env : Env) : Completion → Completion
  | normal _ => normal env
  | returned v => returned v

namespace Run

def fail {α : Type} (e : RuntimeError) (span : Span) : Run α := throw (.error e span)

def ofOperator (span : Span) : Except RuntimeError Lox.Value → Run Value
  | .ok v => return .ofResult v
  | .error e => fail e span

/-- The value of a local name if there is one, else of a global. -/
def read (env : Env) (name : String) (span : Span) : Run Value := do
  let w ← get
  match env.lookup name with
  | some l => return w.cells.getD l default
  | none =>
    match w.globals name with
    | some v => return v
    | none => fail (.undefinedVariable name) span

def defineGlobal (name : String) (v : Value) : Run Unit :=
  modify fun w => { w with globals := fun x => if x = name then some v else w.globals x }

/-- Assigns a local name if there is one, else a global that has a value. -/
def assign (env : Env) (name : String) (span : Span) (v : Value) : Run Unit := do
  let w ← get
  match env.lookup name with
  | some l => set { w with cells := w.cells.set l v }
  | none =>
    match w.globals name with
    | some _ => defineGlobal name v
    | none => fail (.undefinedVariable name) span

/-- Declares a local name: a fresh location in an extended environment. -/
def declare (env : Env) (name : String) (v : Value) : Run Env :=
  modifyGet fun w => ((name, w.cells.length) :: env, { w with cells := w.cells ++ [v] })

def declareFunction (env : Env) (name : String) (params : List Parameter) (body : List (Stmt Unit)) :
    Run Env :=
  modifyGet fun w =>
    let env := (name, w.cells.length) :: env
    let f := Value.function w.functions (.closure ⟨name, params, body, env⟩)
    (env, { w with cells := w.cells ++ [f], functions := w.functions + 1 })

def declareGlobalFunction (name : String) (params : List Parameter) (body : List (Stmt Unit)) :
    Run Unit := do
  let w ← get
  set { w with functions := w.functions + 1 }
  defineGlobal name (.function w.functions (.closure ⟨name, params, body, []⟩))

def print (text : String) : Run Unit := modify fun w => { w with printed := w.printed.push text }

end Run

/-! ### Expressions -/

abbrev CallRule : Type := Callable → List Value → Span → Run Value

def applyValue (call : CallRule) (callee : Value) (arguments : Run (List Value)) (span : Span) :
    Run Value := do
  match callee with
  | .function _ f =>
    let vs ← arguments
    if vs.length = f.arity then call f vs span
    else Run.fail (.arityMismatch f.name f.arity vs.length) span
  | v => Run.fail (.notCallable v.outline.kind) span

mutual

def evalExpr (call : CallRule) (env : Env) : Expr Unit → Run Value
  | .literal _ v => return .constant v
  | .varRef span name _ => Run.read env name span
  | .assign span name _ value => do
    let v ← evalExpr call env value
    Run.assign env name span v
    return v
  | .unary span op operand => do
    let v ← evalExpr call env operand
    Run.ofOperator span (op.apply v.outline)
  | .binary span op left right => do
    let v ← evalExpr call env left
    let w ← evalExpr call env right
    Run.ofOperator span (op.apply v.outline w.outline)
  | .logical _ op left right => do
    let v ← evalExpr call env left
    if op.isSettledBy v.outline then return v else evalExpr call env right
  | .call span callee arguments => do
    let f ← evalExpr call env callee
    applyValue call f (evalExprs call env arguments) span
  | .group _ inner => evalExpr call env inner

def evalExprs (call : CallRule) (env : Env) : List (Expr Unit) → Run (List Value)
  | [] => return []
  | e :: es => do
    let v ← evalExpr call env e
    let vs ← evalExprs call env es
    return v :: vs

end

def evalOptional (call : CallRule) (env : Env) : Option (Expr Unit) → Run Value
  | none => return .constant .nil
  | some e => evalExpr call env e

/-! ### Statements -/

def within (env : Env) (part : Run Completion) : Run Completion := do
  let c ← part
  return c.leave env

/-- Runs a body as long as a condition holds and the body does not return, at most so many times. -/
def repeatWhile (env : Env) (condition : Run Value) (body : Run Completion) : Nat → Run Completion
  | 0 => throw .passesUsedUp
  | n + 1 => do
    let v ← condition
    if v.outline.isTruthy then
      match ← body with
      | .normal _ => repeatWhile env condition body n
      | .returned v => return .returned v
    else return .normal env

mutual

def execStmt (call : CallRule) (passes : Nat) (env : Env) : Stmt Unit → Run Completion
  | .expression _ e => do
    let _ ← evalExpr call env e
    return .normal env
  | .print _ e => do
    let v ← evalExpr call env e
    Run.print v.outline.text
    return .normal env
  | .varDecl _ name initializer => do
    let v ← evalOptional call env initializer
    return .normal (← Run.declare env name v)
  | .block _ body => within env (execStmts call passes env body)
  | .conditional _ condition thenBranch none => do
    let v ← evalExpr call env condition
    if v.outline.isTruthy then within env (execStmt call passes env thenBranch)
    else return .normal env
  | .conditional _ condition thenBranch (some elseBranch) => do
    let v ← evalExpr call env condition
    if v.outline.isTruthy then within env (execStmt call passes env thenBranch)
    else within env (execStmt call passes env elseBranch)
  | .loop _ condition body =>
    repeatWhile env (evalExpr call env condition) (execStmt call passes env body) passes
  | .funDecl _ name params body => do
    return .normal (← Run.declareFunction env name params body)
  | .ret _ value => do
    let v ← evalOptional call env value
    return .returned v

def execStmts (call : CallRule) (passes : Nat) (env : Env) : List (Stmt Unit) → Run Completion
  | [] => return .normal env
  | s :: ss => do
    match ← execStmt call passes env s with
    | .normal env => execStmts call passes env ss
    | .returned v => return .returned v

end

/-! ### Calls -/

def callNative (host : Host) (name : String) (arguments : List Value) (span : Span) : Run Value := do
  let now ← modifyGet fun w : World =>
    (host.clock w.nativeCalls, { w with nativeCalls := w.nativeCalls + 1 })
  match host.natives.find? name with
  | none => return .constant .nil
  | some native =>
    match native.run now (arguments.map Value.outline) with
    | .ok v => return .ofResult v
    | .error message => Run.fail (.nativeFailure name message) span

def bindParams (env : Env) : List Parameter → List Value → Run Env
  | p :: ps, v :: vs => do bindParams (← Run.declare env p.name v) ps vs
  | _, _ => return env

def callClosure (host : Host) (call : CallRule) (c : Closure) (arguments : List Value) : Run Value := do
  let env ← bindParams c.env c.params arguments
  match ← execStmts call host.maxPasses env c.body with
  | .normal _ => return .constant .nil
  | .returned v => return v

/-- The rule for calls when so many more calls may be in progress. -/
def callWithin (host : Host) : Nat → CallRule
  | 0 => fun _ _ span => Run.fail .stackOverflow span
  | calls + 1 => fun f arguments span =>
    match f with
    | .native name _ => callNative host name arguments span
    | .closure c => callClosure host (callWithin host calls) c arguments

/-! ### Programs -/

def execTopLevel (host : Host) (s : Stmt Unit) : Run Unit := do
  let call := callWithin host host.maxCallDepth
  match s with
  | .varDecl _ name initializer =>
    let v ← evalOptional call [] initializer
    Run.defineGlobal name v
  | .funDecl _ name params body => Run.declareGlobalFunction name params body
  | s =>
    let _ ← execStmt call host.maxPasses [] s
    return ()

def execProgram (host : Host) : List (Stmt Unit) → Run Unit
  | [] => return ()
  | s :: ss => do
    execTopLevel host s
    execProgram host ss

def install (natives : Registry) : List String → World → World
  | [], w => w
  | name :: names, w =>
    match natives.find? name with
    | none => w
    | some native =>
      let f := Value.function w.functions (.native name native.arity)
      install natives names
        { w with
          globals := fun x => if x = name then some f else w.globals x
          functions := w.functions + 1 }

def installed (config : Config) (natives : Registry) : World :=
  install natives (Session.nativeNames config natives) {}

end Lox.Lexical
