import Lox.Proofs.Execution.Discipline
import Lox.Proofs.Output.Strings

/-!
# Chronicles

Evaluation that keeps a chronicle: of every node that is begun, every value that an expression has, the
arguments of every call and every value that is printed, each with all that has been written by then and the
world at that moment. Apart from the chronicle it does what plain evaluation does.
-/

namespace Lox

variable {α β : Type}

/-! ### Moments -/

inductive Happening where
  | begun
  | called (arguments : List Value)
  | evaluated (v : Value)
  | printed (v : Value)

namespace Happening

/-- The values that are at hand. -/
def values : Happening → List Value
  | begun => []
  | called arguments => arguments
  | evaluated v | printed v => [v]

def printed? : Happening → Option Value
  | printed v => some v
  | _ => none

theorem mem_values_of_printed? {x : Happening} {v : Value} (h : x.printed? = some v) : v ∈ x.values := by
  cases x with
  | printed u =>
    obtain rfl := Option.some.inj h
    exact List.mem_singleton.mpr rfl
  | _ => cases h

end Happening

/-- What happens at a moment, the texts that have been written up to it, and the world. -/
structure Moment where
  happening : Happening
  written : List String
  world : World

/-- The values printed at some moments, in order. -/
def Moment.prints (ms : List Moment) : List Value := ms.filterMap fun x => x.happening.printed?

/-- A world in a chronicle: what was written before it, and the moments so far, the latest last. -/
structure Chronicle where
  world : World
  earlier : List String
  moments : List Moment

def Chronicle.written (c : Chronicle) : List String := c.earlier ++ c.world.printed.toList

abbrev Chronicled (α : Type) : Type := RunOf Chronicle α

abbrev ChronicledRule : Type := Callable → List Value → Span → Chronicled Value

namespace Chronicled

/-! ### Evaluation with a chronicle -/

/-- What is done without a moment of its own. -/
def lift (m : Run α) : Chronicled α := fun room c =>
  match m.run room c.world with
  | .ok a w => .ok a { c with world := w }
  | .error stop w => .error stop { c with world := w }

def note (happening : Happening) : Chronicled Unit :=
  modify fun c => { c with moments := c.moments ++ [⟨happening, c.written, c.world⟩] }

/-- An expression: one moment when it is begun, and one when it has its value. -/
def noted (m : Chronicled Value) : Chronicled Value := do
  note .begun
  let v ← m
  note (.evaluated v)
  return v

def print (v : Value) : Chronicled Unit := do
  lift (Run.print v.text)
  note (.printed v)

def applyValue (call : ChronicledRule) (callee : Value) (arguments : Chronicled (List Value))
    (span : Span) : Chronicled Value := do
  match callee with
  | .function _ f =>
    let vs ← arguments
    if vs.length = f.arity then call f vs span
    else lift (Run.fail (.arityMismatch f.name f.arity vs.length) span)
  | v => lift (Run.fail (.notCallable v.kind) span)

mutual

def evalExpr (call : ChronicledRule) (env : Environment) (e : ResolvedExpr) : Chronicled Value :=
  noted <| Run.inside e.activity <|
    match e with
    | .literal _ v => return .ofLiteral v
    | .varRef span name ref => lift (Run.read env name ref span)
    | .assign span name ref value => do
      let v ← evalExpr call env value
      lift (Run.assign env name ref span v)
      return v
    | .unary span op operand => do
      let v ← evalExpr call env operand
      lift (Run.ofOperator span (op.apply v))
    | .binary span op left right => do
      let v ← evalExpr call env left
      let w ← evalExpr call env right
      lift (Run.ofOperator span (op.apply v w))
    | .logical _ op left right => do
      let v ← evalExpr call env left
      if op.isSettledBy v then return v else evalExpr call env right
    | .call span callee arguments => do
      let f ← evalExpr call env callee
      applyValue call f (Run.inside .arguments (evalExprs call env arguments)) span
    | .group _ inner => evalExpr call env inner

def evalExprs (call : ChronicledRule) (env : Environment) : List ResolvedExpr → Chronicled (List Value)
  | [] => return []
  | e :: es => do
    let v ← evalExpr call env e
    let vs ← evalExprs call env es
    return v :: vs

end

def evalOptional (call : ChronicledRule) (env : Environment) : Option ResolvedExpr → Chronicled Value
  | none => return .nil
  | some e => evalExpr call env e

def repeatWhile (condition : Chronicled Value) (body : Chronicled Completion) :
    Nat → Chronicled Completion
  | 0 => throw .passesUsedUp
  | n + 1 => do
    let v ← condition
    if v.isTruthy then
      match ← body with
      | .normal => repeatWhile condition body n
      | .returned v => return .returned v
    else return .normal

mutual

def execStmt (call : ChronicledRule) (passes : Nat) (env : Environment) (s : ResolvedStmt) :
    Chronicled Completion := do
  note .begun
  Run.inside s.activity <|
    match s with
    | .expression _ e => do
      let _ ← evalExpr call env e
      return .normal
    | .print _ e => do
      let v ← evalExpr call env e
      print v
      return .normal
    | .varDecl _ name initializer => do
      let v ← evalOptional call env initializer
      lift (Run.define env name v)
      return .normal
    | .block _ body => do
      let inner ← lift (Run.enter env "block")
      execStmts call passes inner body
    | .conditional _ condition thenBranch none => do
      let v ← evalExpr call env condition
      if v.isTruthy then execStmt call passes env thenBranch else return .normal
    | .conditional _ condition thenBranch (some elseBranch) => do
      let v ← evalExpr call env condition
      if v.isTruthy then execStmt call passes env thenBranch
      else execStmt call passes env elseBranch
    | .loop _ condition body =>
      repeatWhile (evalExpr call env condition) (execStmt call passes env body) passes
    | .funDecl _ name params body => do
      let f ← lift (Run.newFunction (.closure ⟨name, params, body, env⟩))
      lift (Run.define env name f)
      return .normal
    | .ret _ value => do
      let v ← evalOptional call env value
      return .returned v

def execStmts (call : ChronicledRule) (passes : Nat) (env : Environment) :
    List ResolvedStmt → Chronicled Completion
  | [] => return .normal
  | s :: ss => do
    match ← execStmt call passes env s with
    | .normal => execStmts call passes env ss
    | .returned v => return .returned v

end

def callClosure (host : Host) (call : ChronicledRule) (c : Closure) (arguments : List Value) :
    Chronicled Value := do
  let env ← lift (Run.enter c.env c.name)
  lift (bindParams env c.params arguments)
  match ← execStmts call host.maxPasses env c.body with
  | .normal => return .nil
  | .returned v => return v

def callWithin (host : Host) : Nat → ChronicledRule
  | 0 => fun _ _ span => lift (Run.fail .stackOverflow span)
  | calls + 1 => fun f arguments span =>
    Run.calling span do
      note (.called arguments)
      match f with
      | .native name _ => Run.inside .native (lift (callNative host name arguments span))
      | .closure c => Run.inside .body (callClosure host (callWithin host calls) c arguments)

def execTopLevel (host : Host) (globals : Environment) (s : ResolvedStmt) : Chronicled Unit := do
  match ← execStmt (callWithin host host.maxCallDepth) host.maxPasses globals s with
  | .normal => return ()
  | .returned _ => throw (.defect .strayReturn)

def execProgram (host : Host) (globals : Environment) : List ResolvedStmt → Chronicled Unit
  | [] => return ()
  | s :: ss => do
    Run.blaming s.span (execTopLevel host globals s)
    execProgram host globals ss

end Chronicled

/-! ### Following a chronicle -/

/-- All values in frames are bare. -/
def World.Bare (w : World) : Prop := ∀ id name v, w.store.slot? id name = some v → v.Bare

/-- The values at hand and those in frames are bare. -/
structure Moment.Bare (x : Moment) : Prop where
  values : ∀ v ∈ x.happening.values, v.Bare
  world : x.world.Bare

namespace Moment

/-- From some texts on, exactly the texts of the printed values have been written at each moment. -/
def InStep (written : List String) : List Moment → Prop
  | [] => True
  | x :: xs =>
    x.written = written ++ (prints [x]).map Value.text ∧ InStep (written ++ (prints [x]).map Value.text) xs

theorem prints_append (xs ys : List Moment) : prints (xs ++ ys) = prints xs ++ prints ys :=
  List.filterMap_append

theorem prints_cons (x : Moment) (xs : List Moment) : prints (x :: xs) = prints [x] ++ prints xs :=
  prints_append [x] xs

theorem bare_of_mem_prints {xs : List Moment} (h : ∀ x ∈ xs, x.Bare) {v : Value} (hv : v ∈ prints xs) :
    v.Bare := by
  obtain ⟨x, hx, hprinted⟩ := List.mem_filterMap.mp hv
  exact (h x hx).values v (Happening.mem_values_of_printed? hprinted)

theorem inStep_append {written : List String} {xs ys : List Moment} (hxs : InStep written xs)
    (hys : InStep (written ++ (prints xs).map Value.text) ys) : InStep written (xs ++ ys) := by
  induction xs generalizing written with
  | nil => simpa [prints] using hys
  | cons x xs ih =>
    refine ⟨hxs.1, ih hxs.2 ?_⟩
    rw [prints_cons, List.map_append, ← List.append_assoc] at hys
    exact hys

theorem InStep.written {written : List String} {ms before later : List Moment} {x : Moment}
    (h : InStep written ms) (hms : ms = before ++ x :: later) :
    x.written = written ++ (prints (before ++ [x])).map Value.text := by
  induction before generalizing written ms with
  | nil =>
    subst hms
    exact h.1
  | cons y before ih =>
    subst hms
    rw [List.cons_append, prints_cons, List.map_append, ← List.append_assoc]
    exact ih h.2 rfl

end Moment

/-- A chronicle behind an earlier one: the moments since then are bare, and what was written keeps in step
with what was printed. -/
structure Chronicle.Follows (c d : Chronicle) : Prop where
  earlier : d.earlier = c.earlier
  bare : d.world.Bare
  moments : ∃ since, d.moments = c.moments ++ since ∧ (∀ x ∈ since, x.Bare) ∧
    Moment.InStep c.written since ∧ d.written = c.written ++ (Moment.prints since).map Value.text

namespace Chronicle.Follows

variable {c d e : Chronicle}

theorem trans (h : c.Follows d) (h' : d.Follows e) : c.Follows e := by
  obtain ⟨since, hd, hbare, hstep, hwritten⟩ := h.moments
  obtain ⟨since', he, hbare', hstep', hwritten'⟩ := h'.moments
  refine ⟨h'.earlier.trans h.earlier, h'.bare, since ++ since', ?_, ?_, ?_, ?_⟩
  · rw [he, hd, List.append_assoc]
  · exact List.forall_mem_append.mpr ⟨hbare, hbare'⟩
  · exact Moment.inStep_append hstep (hwritten ▸ hstep')
  · rw [hwritten', hwritten, Moment.prints_append, List.map_append, List.append_assoc]

theorem of_world {w : World} (hw : w.Bare) (hprinted : w.printed = c.world.printed) :
    c.Follows { c with world := w } :=
  ⟨rfl, hw, [], (List.append_nil _).symm, nofun, trivial, by
    simp only [written, hprinted, Moment.prints, List.filterMap_nil, List.map_nil, List.append_nil]⟩

theorem refl (h : c.world.Bare) : c.Follows c := of_world h rfl

end Chronicle.Follows

end Lox
