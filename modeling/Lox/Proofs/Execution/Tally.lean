import Lox.Proofs.Execution.Changes

/-!
# Counting calls

Evaluation that counts the calls in progress: the count goes up in front of a call and down behind it,
however the call ends, and a call fails if the count has reached the limit. The calls that are in progress
are handed down from each to those made in it, and snapshots of an evaluation show both.
Counted evaluation does what evaluation with a number of calls to spare does, and in every snapshot the
count is the number of calls in progress.
-/

namespace Lox

variable {α β : Type}

/-- A snapshot of an evaluation: the count, the calls in progress, the innermost first, and the world. -/
structure Snapshot where
  count : Nat
  calls : List Callable
  world : World

/-- What counted evaluation changes: the world, the count of calls and the snapshots, the latest last. -/
structure Tally where
  world : World
  count : Nat
  snapshots : List Snapshot

abbrev Tallied (α : Type) : Type := RunOf Tally α

abbrev TalliedRule : Type := Callable → List Value → Span → Tallied Value

namespace Tallied

/-! ### Counted evaluation -/

/-- What is done without a call. -/
def lift (m : Run α) : Tallied α := fun room t =>
  match m.run room t.world with
  | .ok a w => .ok a { t with world := w }
  | .error stop w => .error stop { t with world := w }

def note (calls : List Callable) : Tallied Unit :=
  modify fun t => { t with snapshots := t.snapshots ++ [⟨t.count, calls, t.world⟩] }

/-- Counts one call more for as long as it is in progress. -/
def counting (m : Tallied α) : Tallied α := do
  modify fun t => { t with count := t.count + 1 }
  try m finally modify fun t => { t with count := t.count - 1 }

section Runs

variable {m : Tallied α} {n : Run α} {room : Room} {t u : Tally} {w : World}

theorem run_lift_ok {a : α} (h : n.run room t.world = .ok a w) :
    (lift n).run room t = .ok a { t with world := w } := by
  show lift n room t = _
  unfold lift
  rw [h]

theorem run_lift_error {stop : Stop} (h : n.run room t.world = .error stop w) :
    (lift n).run room t = .error stop { t with world := w } := by
  show lift n room t = _
  unfold lift
  rw [h]

theorem run_counting (m : Tallied α) (room : Room) (t : Tally) :
    (counting m).run room t =
      (tryFinally m (modify fun t => { t with count := t.count - 1 } : Tallied Unit)).run room
        { t with count := t.count + 1 } := run_bind_ok _ rfl

theorem run_counting_ok {a : α} (h : m.run room { t with count := t.count + 1 } = .ok a u) :
    (counting m).run room t = .ok a { u with count := u.count - 1 } := by
  have hm : m room { t with count := t.count + 1 } = .ok a u := h
  rw [run_counting]
  unfold ReaderT.run tryFinally tryFinally' ReaderT.tryFinally EStateM.instMonadFinally
  dsimp only [Functor.map, ReaderT.bind, EStateM.map]
  rw [hm]
  rfl

theorem run_counting_error {stop : Stop}
    (h : m.run room { t with count := t.count + 1 } = .error stop u) :
    (counting m).run room t = .error stop { u with count := u.count - 1 } := by
  have hm : m room { t with count := t.count + 1 } = .error stop u := h
  rw [run_counting]
  unfold ReaderT.run tryFinally tryFinally' ReaderT.tryFinally EStateM.instMonadFinally
  dsimp only [Functor.map, ReaderT.bind, EStateM.map]
  rw [hm]
  rfl

end Runs

def applyValue (call : TalliedRule) (callee : Value) (arguments : Tallied (List Value)) (span : Span) :
    Tallied Value := do
  match callee with
  | .function _ f =>
    let vs ← arguments
    if vs.length = f.arity then call f vs span
    else lift (Run.fail (.arityMismatch f.name f.arity vs.length) span)
  | v => lift (Run.fail (.notCallable v.kind) span)

mutual

def evalExpr (call : TalliedRule) (calls : List Callable) (env : Environment) (e : ResolvedExpr) :
    Tallied Value := do
  note calls
  Run.inside e.activity <|
    match e with
    | .literal _ v => return .ofLiteral v
    | .varRef span name ref => lift (Run.read env name ref span)
    | .assign span name ref value => do
      let v ← evalExpr call calls env value
      lift (Run.assign env name ref span v)
      return v
    | .unary span op operand => do
      let v ← evalExpr call calls env operand
      lift (Run.ofOperator span (op.apply v))
    | .binary span op left right => do
      let v ← evalExpr call calls env left
      let w ← evalExpr call calls env right
      lift (Run.ofOperator span (op.apply v w))
    | .logical _ op left right => do
      let v ← evalExpr call calls env left
      if op.isSettledBy v then return v else evalExpr call calls env right
    | .call span callee arguments => do
      let f ← evalExpr call calls env callee
      applyValue call f (Run.inside .arguments (evalExprs call calls env arguments)) span
    | .group _ inner => evalExpr call calls env inner

def evalExprs (call : TalliedRule) (calls : List Callable) (env : Environment) :
    List ResolvedExpr → Tallied (List Value)
  | [] => return []
  | e :: es => do
    let v ← evalExpr call calls env e
    let vs ← evalExprs call calls env es
    return v :: vs

end

def evalOptional (call : TalliedRule) (calls : List Callable) (env : Environment) :
    Option ResolvedExpr → Tallied Value
  | none => return .nil
  | some e => evalExpr call calls env e

def repeatWhile (condition : Tallied Value) (body : Tallied Completion) : Nat → Tallied Completion
  | 0 => throw .passesUsedUp
  | n + 1 => do
    let v ← condition
    if v.isTruthy then
      match ← body with
      | .normal => repeatWhile condition body n
      | .returned v => return .returned v
    else return .normal

mutual

def execStmt (call : TalliedRule) (calls : List Callable) (passes : Nat) (env : Environment)
    (s : ResolvedStmt) : Tallied Completion := do
  note calls
  Run.inside s.activity <|
    match s with
    | .expression _ e => do
      let _ ← evalExpr call calls env e
      return .normal
    | .print _ e => do
      let v ← evalExpr call calls env e
      lift (Run.print v.text)
      return .normal
    | .varDecl _ name initializer => do
      let v ← evalOptional call calls env initializer
      lift (Run.define env name v)
      return .normal
    | .block _ body => do
      let inner ← lift (Run.enter env "block")
      execStmts call calls passes inner body
    | .conditional _ condition thenBranch none => do
      let v ← evalExpr call calls env condition
      if v.isTruthy then execStmt call calls passes env thenBranch else return .normal
    | .conditional _ condition thenBranch (some elseBranch) => do
      let v ← evalExpr call calls env condition
      if v.isTruthy then execStmt call calls passes env thenBranch
      else execStmt call calls passes env elseBranch
    | .loop _ condition body =>
      repeatWhile (evalExpr call calls env condition) (execStmt call calls passes env body) passes
    | .funDecl _ name params body => do
      let f ← lift (Run.newFunction (.closure ⟨name, params, body, env⟩))
      lift (Run.define env name f)
      return .normal
    | .ret _ value => do
      let v ← evalOptional call calls env value
      return .returned v

def execStmts (call : TalliedRule) (calls : List Callable) (passes : Nat) (env : Environment) :
    List ResolvedStmt → Tallied Completion
  | [] => return .normal
  | s :: ss => do
    match ← execStmt call calls passes env s with
    | .normal => execStmts call calls passes env ss
    | .returned v => return .returned v

end

def callClosure (host : Host) (call : TalliedRule) (calls : List Callable) (c : Closure)
    (arguments : List Value) : Tallied Value := do
  let env ← lift (Run.enter c.env c.name)
  lift (bindParams env c.params arguments)
  match ← execStmts call calls host.maxPasses env c.body with
  | .normal => return .nil
  | .returned v => return v

/-- The rule for calls, where some calls are in progress. One is begun unless the count has reached the
limit; the number that bounds the nesting is never used up. -/
def callAmong (host : Host) : Nat → List Callable → TalliedRule
  | 0, _ => fun _ _ _ => throw .passesUsedUp
  | nesting + 1, calls => fun f arguments span => do
    let t ← get
    if host.maxCallDepth ≤ t.count then lift (Run.fail .stackOverflow span)
    else Run.calling span <| counting do
      note (f :: calls)
      match f with
      | .native name _ => Run.inside .native (lift (callNative host name arguments span))
      | .closure c =>
        Run.inside .body (callClosure host (callAmong host nesting (f :: calls)) (f :: calls) c arguments)

def execTopLevel (host : Host) (globals : Environment) (s : ResolvedStmt) : Tallied Unit := do
  match ← execStmt (callAmong host (host.maxCallDepth + 1) []) [] host.maxPasses globals s with
  | .normal => return ()
  | .returned _ => throw (.defect .strayReturn)

def execProgram (host : Host) (globals : Environment) : List ResolvedStmt → Tallied Unit
  | [] => return ()
  | s :: ss => do
    Run.blaming s.span (execTopLevel host globals s)
    execProgram host globals ss

end Tallied

/-! ### Following a tally -/

/-- The count is the number of calls in progress, within the limit, and no name is missing later on. -/
structure Snapshot.Fits (limit : Nat) (w : World) (x : Snapshot) : Prop where
  count : x.count = x.calls.length
  limit : x.count ≤ limit
  kept : x.world.Grown w

theorem Snapshot.Fits.mono {limit : Nat} {w v : World} {x : Snapshot} (h : x.Fits limit w)
    (hgrown : w.Grown v) : x.Fits limit v := ⟨h.count, h.limit, h.kept.trans hgrown⟩

/-- A tally behind an earlier one: the count is the same again, and the snapshots since then fit. -/
structure Tally.Follows (limit : Nat) (t u : Tally) : Prop where
  count : u.count = t.count
  grown : t.world.Grown u.world
  snapshots : ∃ since, u.snapshots = t.snapshots ++ since ∧ ∀ x ∈ since, x.Fits limit u.world

namespace Tally.Follows

variable {limit : Nat} {t u v : Tally}

theorem of_grown {w : World} (h : t.world.Grown w) : t.Follows limit { t with world := w } :=
  ⟨rfl, h, [], (List.append_nil _).symm, fun _ hx => absurd hx List.not_mem_nil⟩

theorem trans (h : t.Follows limit u) (h' : u.Follows limit v) : t.Follows limit v := by
  obtain ⟨since, hu, hsince⟩ := h.snapshots
  obtain ⟨since', hv, hsince'⟩ := h'.snapshots
  have hearlier : ∀ x ∈ since, x.Fits limit v.world := fun x hx => (hsince x hx).mono h'.grown
  refine ⟨h'.count.trans h.count, h.grown.trans h'.grown, since ++ since', ?_, ?_⟩
  · rw [hv, hu, List.append_assoc]
  · exact List.forall_mem_append.mpr ⟨hearlier, hsince'⟩

end Tally.Follows

/-- Counted evaluation with some calls in progress does what plain evaluation does. -/
def Tracks (limit : Nat) (calls : List Callable) (m : Tallied α) (n : Run α) : Prop :=
  ∀ room, ∀ t : Tally, t.count = calls.length → ∃ u, t.Follows limit u ∧
    ((∃ a, m.run room t = .ok a u ∧ n.run room t.world = .ok a u.world) ∨
      ∃ stop, m.run room t = .error stop u ∧ n.run room t.world = .error stop u.world)

def TalliedRule.Tracks (limit : Nat) (calls : List Callable) (call : TalliedRule) (rule : CallRule) :
    Prop :=
  ∀ f args span, Lox.Tracks limit calls (call f args span) (rule f args span)

namespace Tracks

open World (Grown persists_grown)

variable {limit : Nat} {calls : List Callable}

theorem lift {n : Run α} (h : n.Leads Grown) : Tracks limit calls (Tallied.lift n) n := by
  intro room t _
  have hgrown := h room t.world
  cases hn : n.run room t.world with
  | ok a w =>
    rw [Run.final_of_ok hn] at hgrown
    exact ⟨{ t with world := w }, .of_grown hgrown, Or.inl ⟨a, Tallied.run_lift_ok hn, rfl⟩⟩
  | error stop w =>
    rw [Run.final_of_error hn] at hgrown
    exact ⟨{ t with world := w }, .of_grown hgrown, Or.inr ⟨stop, Tallied.run_lift_error hn, rfl⟩⟩

theorem pure (a : α) : Tracks limit calls (Pure.pure a) (Pure.pure a) := fun _ t _ =>
  ⟨t, .of_grown (persists_grown.refl t.world), Or.inl ⟨a, rfl, rfl⟩⟩

theorem throw (stop : Stop) :
    Tracks limit calls (MonadExcept.throw stop : Tallied α) (MonadExcept.throw stop) := fun _ t _ =>
  ⟨t, .of_grown (persists_grown.refl t.world), Or.inr ⟨stop, rfl, rfl⟩⟩

theorem bind {m : Tallied α} {n : Run α} {f : α → Tallied β} {g : α → Run β}
    (h : Tracks limit calls m n) (hf : ∀ a, Tracks limit calls (f a) (g a)) :
    Tracks limit calls (m >>= f) (n >>= g) := by
  intro room t ht
  obtain ⟨u, hu, ⟨a, hm, hn⟩ | ⟨stop, hm, hn⟩⟩ := h room t ht
  · obtain ⟨v, hv, hrest⟩ := hf a room u (hu.count.trans ht)
    refine ⟨v, hu.trans hv, ?_⟩
    rw [run_bind_ok f hm, run_bind_ok g hn]
    exact hrest
  · exact ⟨u, hu, Or.inr ⟨stop, run_bind_error f hm, run_bind_error g hn⟩⟩

theorem note (hcalls : calls.length ≤ limit) {m : Tallied α} {n : Run α}
    (h : Tracks limit calls m n) : Tracks limit calls (Tallied.note calls >>= fun _ => m) n := by
  intro room t ht
  let u : Tally := { t with snapshots := t.snapshots ++ [⟨t.count, calls, t.world⟩] }
  have hnote : (Tallied.note calls).run room t = .ok () u := rfl
  have hfits : ∀ x ∈ [Snapshot.mk t.count calls t.world], x.Fits limit t.world :=
    List.forall_mem_singleton.mpr ⟨ht, ht ▸ hcalls, persists_grown.refl t.world⟩
  have hu : t.Follows limit u := ⟨rfl, persists_grown.refl t.world, _, rfl, hfits⟩
  obtain ⟨v, hv, hrun⟩ := h room u ht
  refine ⟨v, hu.trans hv, ?_⟩
  rw [run_bind_ok _ hnote]
  exact hrun

/-- Behind a call the count is what it was before, whether the call returns or fails. -/
theorem counting {m : Tallied α} {n : Run α} (f : Callable) (h : Tracks limit (f :: calls) m n) :
    Tracks limit calls (Tallied.counting m) n := by
  intro room t ht
  obtain ⟨u, hu, hrun⟩ := h room { t with count := t.count + 1 } (congrArg (· + 1) ht)
  have hcount : u.count - 1 = t.count := by
    rw [hu.count]
    rfl
  refine ⟨{ u with count := u.count - 1 }, ⟨hcount, hu.grown, hu.snapshots⟩, ?_⟩
  rcases hrun with ⟨a, hm, hn⟩ | ⟨stop, hm, hn⟩
  · exact Or.inl ⟨a, Tallied.run_counting_ok hm, hn⟩
  · exact Or.inr ⟨stop, Tallied.run_counting_error hm, hn⟩

theorem inside {m : Tallied α} {n : Run α} (h : Tracks limit calls m n) (a : Activity) :
    Tracks limit calls (Run.inside a m) (Run.inside a n) := by
  intro room t ht
  cases hfits : room.fits a with
  | true =>
    rw [Run.run_inside_fits hfits, Run.run_inside_fits hfits]
    exact h _ t ht
  | false =>
    rw [Run.run_inside_exhausted hfits, Run.run_inside_exhausted hfits]
    exact throw _ room t ht

theorem calling {m : Tallied α} {n : Run α} (h : Tracks limit calls m n) (span : Span) :
    Tracks limit calls (Run.calling span m) (Run.calling span n) := fun _ => h _

theorem blaming {m : Tallied α} {n : Run α} (h : Tracks limit calls m n) (span : Span) :
    Tracks limit calls (Run.blaming span m) (Run.blaming span n) := fun _ => h _

theorem fail (e : RuntimeError) (span : Span) :
    Tracks limit calls (Tallied.lift (Run.fail e span : Run α)) (Run.fail e span) :=
  lift (Run.leads_fail persists_grown e span)

end Tracks

end Lox
