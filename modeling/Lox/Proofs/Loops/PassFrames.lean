import Lox.Proofs.Execution.Complete
import Lox.Proofs.Loops.ForLoops

/-!
# Frames of the passes

The scope of a loop is one frame, made before the first pass. What the passes make are frames of their own:
a pass is begun when all frames of the passes before have been made, and a block makes at least one.
-/

namespace Lox.Loops

/-- Evaluation in made frames, from a complete world, as far as `Q` says. -/
abbrev Keeps {α : Type} (scope : Environment) (m : Run α) (Q : α → World → Prop) : Prop :=
  ∀ w : World, w.store.Complete → w.store.Has scope → Discipline.complete.Keeps w m Q

theorem keeps_followedBy {scope : Environment} {body : Run Completion} {increment : Run Value}
    {Q : Completion → World → Prop} {R : Value → World → Prop} (hbody : Keeps scope body Q)
    (hincrement : Keeps scope increment R) :
    Keeps scope (followedBy body increment) fun _ _ => True := by
  intro w hw hs
  refine (hbody w hw hs).bind fun c u hu _ => ?_
  cases c with
  | normal =>
    refine (hincrement u hu.store (hs.mono hu.size)).bind fun _ v hv _ => ?_
    exact .pure hv.store trivial
  | returned a => exact .pure hu.store trivial

/-- A step that ends normally has made at least so many frames. -/
def Makes (frames : Nat) (scope : Environment) (step : Run Completion) : Prop :=
  ∀ (room : Room) (u v : World), u.store.Complete → u.store.Has scope → step.run room u = .ok .normal v →
    u.store.size + frames ≤ v.store.size

theorem Makes.zero {scope : Environment} {step : Run Completion} {Q : Completion → World → Prop}
    (h : Keeps scope step Q) : Makes 0 scope step := fun _ _ _ hu hs hrun =>
  ((h _ hu hs).follows_of_ok hrun).size

/-- A body is begun when all frames of the passes before have been made; if every step makes `k` frames,
there are that many more. -/
theorem passes_apart {scope : Environment} {condition : Run Value} {step : Run Completion}
    {Q : Value → World → Prop} {R : Completion → World → Prop} (hcondition : Keeps scope condition Q)
    (hstep : Keeps scope step R) {k : Nat} (hmakes : Makes k scope step) {w : World} {us : List World}
    (h : Passes condition step w us) (hw : w.store.Complete) (hs : w.store.Has scope) :
    (∀ u ∈ us, w.store.size ≤ u.store.size) ∧
      us.Pairwise fun u u' => u.store.size + k ≤ u'.store.size := by
  induction h with
  | none => exact ⟨fun u hu => absurd hu List.not_mem_nil, .nil⟩
  | last hrun _ =>
    have hu := (hcondition _ hw hs).follows_of_ok hrun
    refine ⟨fun u hmem => ?_, List.pairwise_singleton _ _⟩
    rw [List.mem_singleton.mp hmem]
    exact hu.size
  | next hrun _ hbody _ ih =>
    have hu := (hcondition _ hw hs).follows_of_ok hrun
    have hv := (hstep _ hu.store (hs.mono hu.size)).follows_of_ok hbody
    obtain ⟨hlater, hpairs⟩ := ih hv.store ((hs.mono hu.size).mono hv.size)
    have hmade := hmakes _ _ _ hu.store (hs.mono hu.size) hbody
    refine ⟨fun u hmem => ?_, .cons (fun u hmem => Nat.le_trans hmade (hlater u hmem)) hpairs⟩
    rcases List.mem_cons.mp hmem with rfl | hmem
    · exact hu.size
    · exact Nat.le_trans (Nat.le_trans hu.size hv.size) (hlater u hmem)

/-! ### The parts of a loop -/

section Parts

variable {host : Host} (hn : host.natives.ReturnsGiven) (calls passes : Nat) (l : ForLoop (Option Nat))
  (scope : Environment)

include hn

theorem keeps_execStmt (s : ResolvedStmt) :
    Keeps scope (execStmt (callWithin host calls) passes scope s) Discipline.complete.Completes :=
  fun _ hw hs => .execStmt (.callWithin hn calls) passes s (fun _ _ => trivial) hw hs

theorem keeps_initializer :
    Keeps scope (l.execInitializer (callWithin host calls) passes scope) fun _ _ => True := by
  intro w hw hs
  unfold ForLoop.execInitializer
  cases l.initializer with
  | none => exact .pure hw trivial
  | some s =>
    exact (keeps_execStmt hn calls passes scope s w hw hs).bind fun _ u hu _ => .pure hu.store trivial

theorem keeps_condition :
    Keeps scope (l.evalCondition (callWithin host calls) scope) Discipline.complete.Admits := by
  intro w hw hs
  unfold ForLoop.evalCondition
  cases l.condition with
  | none =>
    exact .inside .literal hw
      (.pure hw (Discipline.admits_of_isConstant (Value.isConstant_boolean true) w))
  | some e => exact .evalExpr (.callWithin hn calls) e (fun _ _ => trivial) hw hs

theorem keeps_increment :
    Keeps scope (l.evalIncrement (callWithin host calls) scope) Discipline.complete.Admits := by
  intro w hw hs
  unfold ForLoop.evalIncrement
  cases l.increment with
  | none => exact .pure hw (Discipline.admits_of_isConstant ⟨.nil, rfl⟩ w)
  | some e => exact .inside .expression hw (.evalExpr (.callWithin hn calls) e (fun _ _ => trivial) hw hs)

theorem makes_of_block (span : Span) (ss : List ResolvedStmt) :
    Makes 1 scope (followedBy (execStmt (callWithin host calls) passes scope (.block span ss))
      (l.evalIncrement (callWithin host calls) scope)) := by
  intro room u v hu hs hrun
  let inner := scope.child u.store.size
  let entered : World := { u with store := (u.store.alloc "block").2 }
  have hcomplete : entered.store.Complete := hu.alloc "block"
  have hinner : entered.store.Has inner := Store.has_child hs "block"
  have hbody : Discipline.complete.Keeps entered
      (execStmts (callWithin host calls) passes inner ss) Discipline.complete.Completes :=
    .execStmts (.callWithin hn calls) passes ss (fun _ _ => trivial) hcomplete hinner
  obtain ⟨c, u', hblock, hrest⟩ := exists_of_run_bind hrun
  rw [execStmt] at hblock
  -- the frame of the block is made before its statements run
  obtain ⟨_, _, henter, hstmts⟩ := exists_of_run_bind (Run.run_of_inside_ok hblock)
  cases henter
  have hfollows := hbody.follows_of_ok hstmts
  have hsize := hfollows.size
  rw [Store.size_alloc] at hsize
  cases c with
  | returned a => cases hrest
  | normal =>
    have hscope : u'.store.Has scope := hs.mono (Nat.le_of_succ_le hsize)
    have hincrement := (keeps_increment hn calls l scope u' hfollows.store hscope).bind
      fun _ u hu _ => Discipline.Keeps.pure (a := Completion.normal) (Q := fun _ _ => True) hu.store trivial
    exact Nat.le_trans hsize (hincrement.follows_of_ok hrest).size

theorem keeps_step :
    Keeps scope (followedBy (execStmt (callWithin host calls) passes scope l.body)
      (l.evalIncrement (callWithin host calls) scope)) fun _ _ => True :=
  keeps_followedBy (keeps_execStmt hn calls passes scope l.body) (keeps_increment hn calls l scope)

/-- The scope of the loop was made before all passes. A pass begins when all frames of the passes before
were made; if the body is a block, each has made at least one. -/
theorem begins_apart {env : Environment} {w : World} (hw : w.store.Complete) (hs : w.store.Has env)
    {us : List World} (h : l.Begins (callWithin host calls) passes env w us) :
    (∀ u ∈ us, w.store.size < u.store.size) ∧
      (us.Pairwise fun u u' => u.store.size ≤ u'.store.size) ∧
      ((∃ span ss, l.body = .block span ss) →
        us.Pairwise fun u u' => u.store.size < u'.store.size) := by
  obtain ⟨room, u, hrun, hpasses⟩ := h
  have hscope := Store.has_child hs "block"
  have hinit := (keeps_initializer hn calls passes l _ _ (hw.alloc "block") hscope).follows_of_ok hrun
  have hsize := hinit.size
  rw [Store.size_alloc] at hsize
  let scope := env.child w.store.size
  have hcondition := keeps_condition hn calls l scope
  have hstep := keeps_step hn calls passes l scope
  have hapart := passes_apart hcondition hstep (.zero hstep) hpasses hinit.store
    (hscope.mono hinit.size)
  refine ⟨fun v hv => Nat.lt_of_lt_of_le hsize (hapart.1 v hv), hapart.2, ?_⟩
  rintro ⟨span, ss, hbody⟩
  have hmakes := makes_of_block hn calls passes l scope span ss
  rw [← hbody] at hmakes
  exact (passes_apart hcondition hstep hmakes hpasses hinit.store (hscope.mono hinit.size)).2

end Parts

end Lox.Loops
