import Lox.Proofs.Loops.ForLoops
import Lox.Proofs.Loops.Simulation

/-!
# A loop and its tree

A pass of the tree is a pass of the loop: an increment in a block behind the body is one that follows the
body. So the `while` loop agrees with the passes, in scopes that differ in frames without names, and behind
the initializer the tree agrees with the loop.
-/

namespace Lox.Loops

variable {call : CallRule} {passes : Nat} {links : Links} {w w' : World} {env env' : Environment}
  {h : Nat → Nat}

/-! ### Passes -/

theorem followedBy_bind {α : Type} (body : Run Completion) (increment : Run Value)
    (g : Completion → Run α) :
    followedBy body increment >>= g =
      body >>= fun c =>
        match c with
        | .normal => increment >>= fun _ => g .normal
        | .returned v => g (.returned v) := by
  rw [followedBy, bind_assoc]
  refine bind_congr fun c => ?_
  cases c <;> simp only [bind_assoc, pure_bind]

theorem repeatFor_eq (condition : Run Value) (body : Run Completion) (increment : Run Value) (n : Nat) :
    repeatFor condition body increment n = repeatWhile condition (followedBy body increment) n := by
  induction n with
  | zero => rfl
  | succ n ih =>
    rw [repeatFor, repeatWhile]
    refine bind_congr fun v => ?_
    split
    · rw [ih]
      refine Eq.trans (bind_congr fun c => ?_) (followedBy_bind body increment _).symm
      cases c <;> rfl
    · rfl

/-- The parts of a loop that run in each pass, labelled in the scopes `inner` and put among others by a
map of hops. -/
structure PassesAs (h : Nat → Nat) (inner : List (List String)) (l : ForLoop Unit)
    (l' : ForLoop (Option Nat)) : Prop where
  condition : l'.condition =
    (l.condition.map fun e => e.annotate hopsLabel inner).map fun e => e.map (Option.map h)
  increment : l'.increment =
    (l.increment.map fun e => e.annotate hopsLabel inner).map fun e => e.map (Option.map h)
  body : l'.body = (l.body.annotate hopsLabel inner).rehop h

theorem map_optional_id (e : Option ResolvedExpr) : (e.map fun e => e.map (Option.map id)) = e := by
  cases e with
  | none => rfl
  | some e => rw [Option.map_some, Option.map_id, Expr.map_id]

theorem passesAs_id (around : List (List String)) (l : ForLoop Unit) :
    PassesAs id (l.scopes around) l (l.annotate around) where
  condition := (map_optional_id _).symm
  increment := (map_optional_id _).symm
  body := (Stmt.rehop_id _).symm

/-- Without an initializer, the scope of the loop holds no names. -/
theorem passesAs_past (around : List (List String)) {l : ForLoop Unit} (hi : l.initializer = none)
    (hd : l.body.declares = []) : PassesAs (past 0) around l (l.annotate around) := by
  have hscopes : l.scopes around = [] :: around := by rw [ForLoop.scopes, hi]; rfl
  have hmap (e : Option (Expr Unit)) := Expr.annotate_insert_optional [] around e
  refine ⟨?_, ?_, ?_⟩
  · rw [ForLoop.annotate, hscopes]
    exact hmap l.condition
  · rw [ForLoop.annotate, hscopes]
    exact hmap l.increment
  · rw [ForLoop.annotate, hscopes]
    exact Stmt.annotate_insert around l.body [] (Or.inr hd)

/-- A result may be taken on inside of an activity or behind it. -/
theorem inside_bind_pure {α β : Type} (a : Activity) (m : Run α) (f : α → β) :
    Run.inside a (m >>= fun x => pure (f x)) = (Run.inside a m >>= fun x => pure (f x)) := by
  funext room w
  show (Run.inside a (m >>= fun x => pure (f x))).run room w =
    (Run.inside a m >>= fun x => pure (f x)).run room w
  cases hfits : room.fits a with
  | false =>
    rw [Run.run_inside_exhausted hfits, run_bind_error _ (Run.run_inside_exhausted hfits)]
  | true =>
    have hinside : (Run.inside a m).run room w = m.run (room.inside a) w := Run.run_inside_fits hfits
    rw [Run.run_inside_fits hfits]
    cases hm : m.run (room.inside a) w with
    | ok x v =>
      rw [run_bind_ok _ hm, run_bind_ok _ (hinside.trans hm)]
      rfl
    | error stop v => rw [run_bind_error _ hm, run_bind_error _ (hinside.trans hm)]

theorem execStmt_expression (call : CallRule) (passes : Nat) (env : Environment) (span : Span)
    (e : ResolvedExpr) : execStmt call passes env (.expression span e) =
      (Run.inside .expression (evalExpr call env e) >>= fun _ => pure .normal) := by
  rw [execStmt]
  exact inside_bind_pure .expression _ fun _ => Completion.normal

/-- On the stack, body and increment may stand in one block or each in one of its own. -/
theorem run_followedBy_inside (a : Activity) (body : Run Completion) (increment : Run Value) (room : Room)
    (w : World) : (followedBy (Run.inside a body) (Run.inside a increment)).run room w =
      (Run.inside a (followedBy body increment)).run room w := by
  unfold followedBy
  cases hfits : room.fits a with
  | false =>
    rw [run_bind_error _ (Run.run_inside_exhausted hfits), Run.run_inside_exhausted hfits]
  | true =>
    rw [Run.run_inside_fits hfits]
    cases hbody : body.run (room.inside a) w with
    | error stop v =>
      rw [run_bind_error _ hbody, run_bind_error _ ((Run.run_inside_fits hfits).trans hbody)]
    | ok c v =>
      rw [run_bind_ok _ hbody, run_bind_ok _ ((Run.run_inside_fits hfits).trans hbody)]
      cases c with
      | returned a => rfl
      | normal =>
        dsimp only
        cases hincrement : increment.run (room.inside a) v with
        | ok b u =>
          rw [run_bind_ok _ hincrement, run_bind_ok _ ((Run.run_inside_fits hfits).trans hincrement)]
          rfl
        | error stop u =>
          rw [run_bind_error _ hincrement,
            run_bind_error _ ((Run.run_inside_fits hfits).trans hincrement)]

theorem agree_step (hcall : CallsAgree call) (passes : Nat) {l : ForLoop Unit} {l' : ForLoop (Option Nat)}
    {inner : List (List String)} (hl : PassesAs h inner l l') (hd : l.body.declares = [])
    (hw : WorldsMatch links w w') (henv : Aligned links h id env env') :
    Agree links w w'
      (followedBy (Run.insideBlock l'.increment.isSome (execStmt call passes env l'.body))
        (Run.insideBlock l'.increment.isSome (l'.evalIncrement call env)))
      (execStmt call passes env' (l.step.annotate hopsLabel inner)) CompletionMatches := by
  have hbody : (l.body.annotate hopsLabel inner).declares = [] := by rw [Stmt.declares_annotate, hd]
  unfold ForLoop.step ForLoop.evalIncrement
  rw [hl.body, hl.increment]
  cases l.increment with
  | none =>
    have hexec := Agree.execStmt hcall passes (l.body.annotate hopsLabel inner) hw henv (Or.inl hbody)
    rw [Stmt.rehop_id] at hexec
    show Agree links w w' (followedBy _ (return .nil)) _ _
    rw [← bind_pure (execStmt call passes env' _)]
    refine hexec.bind fun later v v' c c' _ hv hc => ?_
    cases hc with
    | normal => exact .pure hv .normal
    | returned ha => exact .pure hv (.returned ha)
  | some e =>
    have hb : l.body.annotate hopsLabel ([] :: inner) =
        (l.body.annotate hopsLabel inner).rehop fun k => id k + 1 :=
      Stmt.annotate_insert inner l.body [] (Or.inr hd)
    have he : e.annotate hopsLabel ([] :: inner) =
        (e.annotate hopsLabel inner).map (Option.map fun k => id k + 1) :=
      Expr.annotate_insert [] inner e
    simp only [Stmt.annotate, Stmt.annotateAll, hd, extendScope_nothing, hb, he]
    rw [execStmt]
    refine .of_run (run_followedBy_inside .block _ _ _ _) rfl (List.Subset.refl links) ?_
    -- the tree has a block around body and increment, which the loop does not have
    refine Agree.inside .block hw (Agree.enterRight ?_)
    have henv' := henv.childRight w'.store.size
    have hexec := Agree.execStmt hcall passes (l.body.annotate hopsLabel inner) (hw.allocRight "block")
      henv' (Or.inl hbody)
    refine hexec.bind fun later v v' c c' hl hv hc => ?_
    cases hc with
    | normal =>
      rw [Matching.execStmts_singleton, execStmt_expression]
      have heval := Agree.evalExpr hcall (e.annotate hopsLabel inner) hv (henv'.mono hl)
      exact (Agree.inside .expression hv heval).bind fun _ _ _ _ _ _ hu _ => .pure hu .normal
    | returned ha => exact .pure hv (.returned ha)

/-- The passes of a loop agree with the `while` loop that stands for them. -/
theorem agree_passes (hcall : CallsAgree call) (passes : Nat) {inner : List (List String)}
    {l : ForLoop Unit} {l' : ForLoop (Option Nat)} (hl : PassesAs h inner l l')
    (hd : l.body.declares = []) (hw : WorldsMatch links w w') (henv : Aligned links h id env env') :
    Agree links w w' (l'.execPasses call passes env)
      (execStmt call passes env' (l.passesTree.annotate hopsLabel inner)) CompletionMatches := by
  rw [ForLoop.execPasses, repeatFor_eq, ForLoop.passesTree, Stmt.annotate, execStmt]
  refine Agree.inside .loop hw ?_
  refine Agree.repeatWhile (fun {later v v'} hlater hv => ?_) (fun hlater hv => ?_) passes hw
  · rw [ForLoop.evalCondition, hl.condition]
    cases l.condition with
    | none =>
      show Agree later v v' _ (evalExpr call env' (.literal l.keyword (.boolean true))) _
      rw [evalExpr]
      exact Agree.inside .literal hv (.pure hv (.constant (Value.isConstant_boolean true)))
    | some e =>
      have heval := Agree.evalExpr hcall (e.annotate hopsLabel inner) hv (henv.mono hlater)
      rw [Option.map_id, Expr.map_id] at heval
      exact heval
  · exact agree_step hcall passes hl hd hv (henv.mono hlater)

/-! ### The whole loop -/

theorem eq_of_run_bind_pure {α β : Type} {m : Run α} {b c : β} {room : Room} {v : World}
    (hrun : (m >>= fun _ => (pure c : Run β)).run room w = .ok b v) : b = c := by
  obtain ⟨_, _, -, hpure⟩ := exists_of_run_bind hrun
  cases hpure
  rfl

theorem normal_of_initializer {is : List Token} {s : Stmt Unit}
    (hs : Grammar.IsInitializer is (some s)) (scopes : List (List String)) {room : Room} {c : Completion}
    {v : World} (hrun : (execStmt call passes env (s.annotate hopsLabel scopes)).run room w = .ok c v) :
    c = .normal := by
  cases hs with
  | declaration hs =>
    cases hs <;> rw [Stmt.annotate, execStmt] at hrun <;>
      exact eq_of_run_bind_pure (by rw [bind_assoc]; exact Run.run_of_inside_ok hrun)
  | expression hs =>
    cases hs
    rw [Stmt.annotate, execStmt] at hrun
    exact eq_of_run_bind_pure (Run.run_of_inside_ok hrun)

/-- A loop agrees with its tree; the scope that holds its variable is one frame on both sides. -/
theorem agree_loop (hcall : CallsAgree call) (passes : Nat) {is : List Token} {l : ForLoop Unit}
    (hi : Grammar.IsInitializer is l.initializer) (hd : l.body.declares = [])
    (around : List (List String)) (hw : WorldsMatch links w w') (henv : Aligned links id id env env') :
    Agree links w w' ((l.annotate around).exec call passes env)
      (execStmt call passes env' (l.tree.annotate hopsLabel around)) fun later c c' =>
        CompletionMatches later c c' ∧
          (l.initializer.isSome → (w.store.size, w'.store.size) ∈ later) := by
  cases hinit : l.initializer with
  | none =>
    rw [ForLoop.tree_of_none hinit, ForLoop.exec, ForLoop.isSome_initializer, hinit]
    refine Agree.enterLeft ?_
    have hpasses := agree_passes hcall passes (passesAs_past around hinit hd) hd (hw.allocLeft "block")
      (henv.childLeft w.store.size)
    rw [ForLoop.execInitializer, ForLoop.annotate, hinit]
    exact hpasses.mono fun later c c' _ hc => ⟨hc, nofun⟩
  | some s =>
    rw [ForLoop.annotate_tree_of_some hinit, execStmt, ForLoop.exec, ForLoop.isSome_initializer, hinit]
    refine Agree.inside .block hw (Agree.enter ?_)
    have hhead : ((env.child w.store.size).frame, (env'.child w'.store.size).frame) ∈
        (w.store.size, w'.store.size) :: links := List.mem_cons_self
    have henv' := (henv.mono (List.subset_cons_self _ links)).child hhead
    rw [lift_id] at henv'
    have hexec := Agree.execStmt hcall passes (s.annotate hopsLabel ([] :: around)) (hw.alloc "block")
      henv' (Or.inr hhead)
    rw [Stmt.rehop_id] at hexec
    have hnormal := hexec.and_left fun room c v => normal_of_initializer (hinit ▸ hi) ([] :: around)
    have hleft : (l.annotate around).execInitializer call passes (env.child w.store.size) =
        (execStmt call passes (env.child w.store.size) (s.annotate hopsLabel ([] :: around)) >>=
          fun _ => pure ()) := by
      rw [ForLoop.execInitializer, ForLoop.annotate, hinit]
      rfl
    rw [hleft, bind_assoc]
    refine hnormal.bind fun later v v' c c' hl hv hc => ?_
    obtain ⟨rfl, hc⟩ := hc
    cases hc
    rw [pure_bind, Matching.execStmts_singleton]
    have hpasses := agree_passes hcall passes (passesAs_id around l) hd hv (henv'.mono hl)
    exact hpasses.mono fun later' c c' hl' hc => ⟨hc, fun _ => hl' (hl hhead)⟩

end Lox.Loops
