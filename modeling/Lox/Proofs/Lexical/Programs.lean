import Lox.Proofs.Lexical.Simulation

/-!
# Calls and programs agree with lexical scoping

A call extends the environment of its function where the resolved program fills a new frame, so calls
agree by induction on how many more may be in progress. At top level declarations make globals, and what
is no declaration runs in the empty environment.
-/

namespace Lox.Lexical

theorem outline_map {slots : List Slot} {as : List Lox.Value} {bs : List Value}
    (h : List.Forall₂ (ValueLike slots) as bs) :
    as.map Lox.Value.outline = bs.map Value.outline := by
  induction h with
  | nil => rfl
  | cons hab _ ih => rw [List.map_cons, List.map_cons, hab.outline, ih]

theorem run_callNative {host : Host} {name : String} {args : List Value} {span : Span} {v : World} :
    (callNative host name args span).run v =
      match host.natives.answer name (host.clock v.nativeCalls) (args.map Value.outline) with
      | .ok a => .ok (.ofResult a) { v with nativeCalls := v.nativeCalls + 1 }
      | .error message =>
        .error (.error (.nativeFailure name message) span)
          { v with nativeCalls := v.nativeCalls + 1 } := by
  have hclock : (modifyGet fun v : World =>
      (host.clock v.nativeCalls, { v with nativeCalls := v.nativeCalls + 1 }) : Run Float).run v =
        .ok (host.clock v.nativeCalls) { v with nativeCalls := v.nativeCalls + 1 } := rfl
  unfold callNative Registry.answer
  rw [run_bind_ok _ hclock]
  cases host.natives.find? name with
  | none => rfl
  | some native =>
    dsimp only
    cases native.run (host.clock v.nativeCalls) (args.map Value.outline) <;> rfl

namespace Agree

/-! ### Calls -/

theorem callNative {host : Host} (hn : host.natives.Plain) {name : String} {args : List Lox.Value}
    {largs : List Value} {span : Span} {slots : List Slot} {w : Lox.World} {v : World}
    (hc : Corresponds slots w v) (hab : List.Forall₂ (ValueLike slots) args largs) :
    Agree none slots w v (Lox.callNative host name args span)
      (Lexical.callNative host name largs span) Alike := by
  have hsame : host.natives.answer name (host.clock v.nativeCalls) (largs.map Value.outline) =
      host.natives.answer name (host.clock w.nativeCalls) args := by
    rw [← outline_map hab, hn.answer_outline, hc.nativeCalls]
  have hlexical := @run_callNative host name largs span v
  rw [hsame] at hlexical
  cases hanswer : host.natives.answer name (host.clock w.nativeCalls) args with
  | ok a =>
    rw [hanswer] at hlexical
    exact of_ok (run_callNative_ok hanswer) hlexical (Later.same none slots (Nat.le_refl w.store.size))
      hc.countNativeCall (valueLike_ofResult (hn.isConstant_of_answer hanswer) slots)
  | error message =>
    rw [hanswer] at hlexical
    have hcounted : Corresponds slots { w with nativeCalls := w.nativeCalls + 1 }
        { v with nativeCalls := v.nativeCalls + 1 } := hc.countNativeCall
    intro room hroom
    have hfail : (Lox.Run.fail (.nativeFailure name message) span : Lox.Run Lox.Value).run room
        { w with nativeCalls := w.nativeCalls + 1 } = _ := Lox.Run.run_fail (hroom.fits .report)
    exact .stop ((run_callNative_error hanswer).trans hfail) hlexical hcounted

theorem bindParams {env : Environment} {scopes : List (List String)} (params : List Parameter)
    {args : List Lox.Value} {largs : List Value} {held : List String} {lenv : Env} {slots : List Slot}
    {w : Lox.World} {v : World} (hlen : args.length = params.length)
    (hnodup : (paramNames params ++ held).Nodup) (hc : Corresponds slots w v)
    (hat : At slots w (held :: scopes) env lenv) (hab : List.Forall₂ (ValueLike slots) args largs) :
    Agree (some env.frame) slots w v (Lox.bindParams env params args)
      (Lexical.bindParams lenv params largs)
      fun slots' w' _ lenv' => At slots' w' ((paramNames params ++ held) :: scopes) env lenv' := by
  induction params generalizing args largs held lenv slots w v with
  | nil => exact pure hc hat
  | cons p ps ih =>
    cases hab with
    | nil => cases hlen
    | @cons a b as bs hhead htail =>
      rw [paramNames_cons, List.append_assoc] at hnodup ⊢
      have hfree : FreeIn p.name (held :: scopes) :=
        freeIn_cons_iff.mpr (List.nodup_cons.mp (List.nodup_append.mp hnodup).2.1).1
      refine bind (declare hc hat (List.cons_ne_nil held scopes) hfree hhead)
        fun slots' w' v' _ lenv' hl hc' hat' => ?_
      exact ih (Nat.succ.inj hlen) hnodup hc' hat' (hl.valuesLike htail)

theorem callClosure {host : Host} {call : Lox.CallRule} {lcall : CallRule}
    (hcall : CallsAgree call lcall) {c : Lox.Closure} {k : Closure} {args : List Lox.Value}
    {largs : List Value} {slots : List Slot} {w : Lox.World} {v : World} (hc : Corresponds slots w v)
    (hk : ClosureLike slots c k) (hab : List.Forall₂ (ValueLike slots) args largs)
    (hlen : args.length = c.params.length) :
    Agree none slots w v (Lox.callClosure host call c args) (Lexical.callClosure host lcall k largs)
      Alike := by
  obtain ⟨hname, hparams, hnodup, hplaced, scopes, hsees, hbody, haccepted⟩ := hk
  unfold Lox.callClosure Lexical.callClosure
  rw [hbody, hparams]
  have hplace : At slots { w with store := (w.store.alloc c.name).2 } ([] :: scopes)
      (c.env.child w.store.size) k.env := hsees.at_child hc c.name
  rw [hparams] at hlen
  have hnodup' : (paramNames k.params ++ []).Nodup := by rwa [List.append_nil]
  have hparams := bindParams k.params hlen hnodup' (hc.alloc c.name) hplace hab
  refine enter (bind hparams fun slots' w' v' _ lenv' _ hc' hat' => ?_)
  rw [List.append_nil] at hat'
  have hexec := execStmts hcall host.maxPasses k.body hplaced haccepted (List.cons_ne_nil _ _) hc' hat'
  refine bind hexec fun slots'' w'' v'' r r' _ hc'' hends => ?_
  cases hends with
  | normal => exact pure hc'' (.constant .nil)
  | returned hab' => exact pure hc'' hab'

theorem callWithin {host : Host} (hn : host.natives.Plain) (calls : Nat) :
    CallsAgree (Lox.callWithin host calls) (Lexical.callWithin host calls) := by
  induction calls with
  | zero => exact fun span hc _ _ _ => fail .stackOverflow span hc
  | succ calls ih =>
    intro slots w v f g args largs span hc hfg hab hlen
    refine calling span ?_
    cases hfg with
    | native name arity => exact inside .native (callNative hn hc hab)
    | closure hk => exact inside .body (callClosure ih hc hk hab hlen)

/-! ### Programs -/

section Programs

variable {host : Host} {slots : List Slot} {w : Lox.World} {v : World}

theorem at_globals (hc : Corresponds slots w v) : At slots w [] Session.globals [] where
  sees := ⟨rfl, fun _ => rfl⟩
  made := hc.made
  holds _ _ h := nomatch h

/-- What is no declaration runs in the empty environment and declares nothing. -/
theorem execOther {call : Lox.CallRule} {lcall : CallRule} (hcall : CallsAgree call lcall)
    (passes : Nat) {s : Stmt Unit} (hs : s.declared? = none) (hp : s.Placed)
    (ha : s.Accepted false [] false) (hc : Corresponds slots w v) :
    Agree (some 0) slots w v (Lox.execStmt call passes Session.globals (s.annotate hopsLabel []))
      (Lexical.execStmt lcall passes [] s) (EndsAlike [] Session.globals) := by
  have hexec := execStmt hcall passes s hp ha (fun _ => hp.declares_eq_nil hs) hc (at_globals hc)
  rwa [extendScope_nil] at hexec

theorem execVarDecl {call : Lox.CallRule} {lcall : CallRule} (hcall : CallsAgree call lcall)
    (passes : Nat) (span : Span) (name : String) (initializer : Option (Expr Unit))
    (hc : Corresponds slots w v) :
    Agree (some 0) slots w v
      (Lox.execStmt call passes Session.globals
        ((Stmt.varDecl span name initializer).annotate hopsLabel []))
      (Lexical.evalOptional lcall [] initializer >>= fun b => Run.defineGlobal name b)
      fun _ _ _ _ => True := by
  have hinit : ∀ e, initializer = some e →
      Finds slots w [] Session.globals [] e.references := fun e _ => (at_globals hc).finds _
  rw [Stmt.annotate, Lox.execStmt]
  refine inside _ (first (evalOptional hcall initializer hc hinit) fun slots' w' v' a b _ hc' hab => ?_)
  exact of_ok rfl rfl (Later.same (some 0) slots' (Store.size_le_define w'.store 0 name a))
    (hc'.defineGlobal name hab) trivial

theorem execFunDecl {call : Lox.CallRule} (passes : Nat) (span : Span) (name : String)
    {params : List Parameter} {body : List (Stmt Unit)} (hnodup : (paramNames params).Nodup)
    (hp : Stmt.PlacedAll body) (ha : Stmt.AcceptedAll false [paramNames params] true body)
    (hc : Corresponds slots w v) :
    Agree (some 0) slots w v
      (Lox.execStmt call passes Session.globals
        ((Stmt.funDecl span name params body).annotate hopsLabel []))
      (Run.declareGlobalFunction name params body) fun _ _ _ _ => True := by
  have hlike : ValueLike slots
      (.function w.functions (.closure ⟨name, params,
        Stmt.annotateAll hopsLabel [paramNames params] body, Session.globals⟩))
      (.function v.functions (.closure ⟨name, params, body, []⟩)) := by
    rw [← hc.functions]
    exact .function (.closure ⟨rfl, rfl, hnodup, hp, [], (at_globals hc).sees, rfl, ha⟩)
  rw [Stmt.annotate, Lox.execStmt]
  have hgrows := Store.size_le_define w.store 0 name (.function w.functions (.closure ⟨name, params,
    Stmt.annotateAll hopsLabel [paramNames params] body, Session.globals⟩))
  exact inside _ (of_ok rfl rfl (Later.same (some 0) slots hgrows)
    (hc.countFunction.defineGlobal name hlike) trivial)

theorem endTopLevel {m : Lox.Run Lox.Completion} {n : Run Unit} {next : Lox.Completion → Lox.Run Unit}
    (h : Agree (some 0) slots w v m n fun _ _ _ _ => True) (hnormal : next .normal = Pure.pure ())
    (hreturned : ∀ a, next (.returned a) = throw (.defect .strayReturn)) :
    Agree (some 0) slots w v (m >>= next) n fun _ _ _ _ => True := by
  rw [← bind_pure n]
  refine bind h fun slots' w' v' c _ _ hc' _ => ?_
  cases c with
  | normal =>
    rw [hnormal]
    exact pure hc' trivial
  | returned a =>
    rw [hreturned]
    exact of_defect rfl

theorem execTopLevel (hn : host.natives.Plain) {s : Stmt Unit} (hp : s.Placed)
    (ha : s.Accepted false [] false) (hc : Corresponds slots w v) :
    Agree (some 0) slots w v (Lox.execTopLevel host Session.globals (s.annotate hopsLabel []))
      (Lexical.execTopLevel host s) fun _ _ _ _ => True := by
  have hcall : CallsAgree (Lox.callWithin host host.maxCallDepth)
      (Lexical.callWithin host host.maxCallDepth) := callWithin hn host.maxCallDepth
  have hother (hs : s.declared? = none) :
      Agree (some 0) slots w v
        (Lox.execStmt (Lox.callWithin host host.maxCallDepth) host.maxPasses Session.globals
          (s.annotate hopsLabel []))
        (Lexical.execStmt (Lexical.callWithin host host.maxCallDepth) host.maxPasses [] s >>=
          fun _ => Pure.pure ()) fun _ _ _ _ => True := by
    rw [← bind_pure (Lox.execStmt _ _ _ _)]
    exact bind (execOther hcall host.maxPasses hs hp ha hc) fun _ _ _ _ _ _ hc' _ => pure hc' trivial
  cases s with
  | varDecl span name initializer =>
    exact endTopLevel (execVarDecl hcall host.maxPasses span name initializer hc) rfl fun _ => rfl
  | funDecl span name params body =>
    exact endTopLevel (execFunDecl host.maxPasses span name ha.2.1 hp ha.2.2 hc) rfl fun _ => rfl
  | expression | print | block | conditional | loop | ret =>
    exact endTopLevel (hother rfl) rfl fun _ => rfl

theorem execProgram (hn : host.natives.Plain) (ss : List (Stmt Unit)) (hp : Stmt.PlacedAll ss)
    (ha : Stmt.AcceptedAll false [] false ss) (hc : Corresponds slots w v) :
    Agree (some 0) slots w v
      (Lox.execProgram host Session.globals (Stmt.annotateAll hopsLabel [] ss))
      (Lexical.execProgram host ss) fun _ _ _ _ => True := by
  induction ss generalizing slots w v with
  | nil => exact pure hc trivial
  | cons s ss ih =>
    refine bind (blaming _ (execTopLevel hn hp.1 ha.1 hc)) fun slots' w' v' _ _ _ hc' _ => ?_
    have hrest : Stmt.AcceptedAll false [] false ss := extendScope_nil s.declares ▸ ha.2
    exact ih hp.2 hrest hc'

end Programs

end Agree

end Lox.Lexical
