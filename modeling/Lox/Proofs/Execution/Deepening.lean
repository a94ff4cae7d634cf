import Lox.Proofs.Execution.Changes
import Lox.Proofs.Execution.Rooms

/-!
# More calls and more room

With more calls to spare, and more room on the stack, an evaluation does the same in the same worlds until
it would have stopped for want of calls or room; from there on it may go on, and what was printed stays
printed. This is so of every way to evaluate if it is so of calls, and of calls by induction on the calls
to spare.
-/

namespace Lox

open World (Appended persists_appended)

/-! ### Runs that go at least as far -/

variable {α β : Type} {cuts : RuntimeError → Prop}

namespace Run

variable {m : Run α} {w v : World}

/-- The second run prints behind what was printed before, and with at least as much room it does what the
first one does, unless that is cut off by an error of some kind: then it has printed what the first one
has. -/
structure Extends (cuts : RuntimeError → Prop) (m n : Run α) : Prop where
  leads : n.Leads Appended
  run : ∀ room room' w, room.Within room' → n.run room' w = m.run room w ∨
    ∃ e span v, cuts e ∧ m.run room w = .error (.error e span) v ∧ Appended v (n.final room' w)

namespace Extends

theorem of_same (h : ∀ room room' w, m.run room' w = m.run room w) (hleads : m.Leads Appended) :
    Extends cuts m m :=
  ⟨hleads, fun room room' w _ => Or.inl (h room room' w)⟩

theorem pure (a : α) : Extends cuts (Pure.pure a : Run α) (Pure.pure a) :=
  of_same (fun _ _ _ => rfl) (leads_pure persists_appended a)

theorem throw (stop : Stop) : Extends cuts (MonadExcept.throw stop : Run α) (MonadExcept.throw stop) :=
  of_same (fun _ _ _ => rfl) (leads_throw persists_appended stop)

theorem bind {n : Run α} {f g : α → Run β} (h : Extends cuts m n) (hf : ∀ a, Extends cuts (f a) (g a)) :
    Extends cuts (m >>= f) (n >>= g) := by
  have hleads : (n >>= g).Leads Appended :=
    h.leads.bind persists_appended fun a => (hf a).leads
  refine ⟨hleads, fun room room' w hroom => ?_⟩
  rcases h.run room room' w hroom with heq | ⟨e, span, v, he, hm, hprinted⟩
  · cases hm : m.run room w with
    | error stop v => exact Or.inl ((run_bind_error g (heq.trans hm)).trans (run_bind_error f hm).symm)
    | ok a v =>
      have hn := heq.trans hm
      rw [run_bind_ok f hm, run_bind_ok g hn, final_bind_ok g hn]
      exact (hf a).run room room' v hroom
  · refine Or.inr ⟨e, span, v, he, run_bind_error f hm, ?_⟩
    cases hn : n.run room' w with
    | ok b u =>
      rw [final_of_ok hn] at hprinted
      rw [final_bind_ok g hn]
      exact hprinted.trans ((hf b).leads room' u)
    | error stop u =>
      rw [final_of_error hn] at hprinted
      rwa [final_bind_error g hn]

/-! A run may be cut off where there is no room for an activity. -/

section Room

variable (hroom : cuts .stackExhausted)

include hroom

theorem inside {n : Run α} (h : Extends cuts m n) (a : Activity) :
    Extends cuts (Run.inside a m) (Run.inside a n) := by
  have hleads : Run.Leads Appended (Run.inside a n) := h.leads.inside persists_appended a
  refine ⟨hleads, fun room room' w hwithin => ?_⟩
  cases hfits : room.fits a with
  | true =>
    rw [run_inside_fits hfits, run_inside_fits (hwithin.fits hfits),
      final_congr (run_inside_fits (hwithin.fits hfits))]
    exact h.run _ _ w (hwithin.inside a)
  | false => exact Or.inr ⟨_, _, w, hroom, run_inside_exhausted hfits, hleads room' w⟩

omit hroom in
theorem calling {n : Run α} (h : Extends cuts m n) (span : Span) :
    Extends cuts (Run.calling span m) (Run.calling span n) :=
  ⟨h.leads.calling span, fun _ _ w hwithin => h.run _ _ w (hwithin.calling span)⟩

omit hroom in
theorem blaming {n : Run α} (h : Extends cuts m n) (span : Span) :
    Extends cuts (Run.blaming span m) (Run.blaming span n) :=
  ⟨fun _ => h.leads _, fun _ _ w hwithin => h.run _ _ w (hwithin.blaming span)⟩

theorem fail (e : RuntimeError) (span : Span) : Extends cuts (Run.fail e span : Run α) (Run.fail e span) :=
  inside hroom (throw _) .report

/-- A run that does without room is followed by one that tells about an error, if it does. -/
theorem of_told (hleads : m.Leads Appended)
    (h : ∀ w, (∀ room room', m.run room' w = m.run room w) ∨
      ∃ e span v, Appended w v ∧ ∀ room, m.run room w = (Run.fail e span : Run α).run room v) :
    Extends cuts m m := by
  refine ⟨hleads, fun room room' w hwithin => ?_⟩
  rcases h w with hsame | ⟨e, span, v, -, hfail⟩
  · exact Or.inl (hsame room room')
  · rw [hfail room, hfail room', final_congr (hfail room')]
    exact (fail hroom e span).run room room' v hwithin

theorem read (env : Environment) (name : String) (ref : Option Nat) (span : Span) :
    Extends cuts (Run.read env name ref span) (Run.read env name ref span) := by
  refine of_told hroom (leads_read persists_appended env name ref span) fun w => ?_
  rcases read_cases w env name ref span with ⟨-, -, v, -, hrun⟩ | ⟨d, hrun⟩ | ⟨-, -, hrun⟩
  · exact Or.inl fun _ _ => hrun.trans hrun.symm
  · exact Or.inl fun _ _ => hrun.trans hrun.symm
  · exact Or.inr ⟨_, span, w, List.prefix_rfl, fun _ => hrun⟩

theorem assign (env : Environment) (name : String) (ref : Option Nat) (span : Span) (v : Value) :
    Extends cuts (Run.assign env name ref span v) (Run.assign env name ref span v) := by
  refine of_told hroom (leads_assign persists_appended env name ref span v) fun w => ?_
  rcases assign_cases w env name ref span v with ⟨id, -, hrun⟩ | ⟨d, hrun⟩ | ⟨-, -, hrun⟩
  · exact Or.inl fun _ _ => hrun.trans hrun.symm
  · exact Or.inl fun _ _ => hrun.trans hrun.symm
  · exact Or.inr ⟨_, span, w, List.prefix_rfl, fun _ => hrun⟩

theorem ofOperator (span : Span) (r : Except RuntimeError Value) :
    Extends cuts (Run.ofOperator span r) (Run.ofOperator span r) := by
  cases r with
  | ok v => exact pure v
  | error e => exact fail hroom e span

theorem callNative (host : Host) (name : String) (args : List Value) (span : Span) :
    Extends cuts (Lox.callNative host name args span) (Lox.callNative host name args span) := by
  refine of_told hroom (leads_callNative persists_appended host name args span) fun w => ?_
  cases hanswer : host.natives.answer name (host.clock w.nativeCalls) args with
  | ok v => exact Or.inl fun _ _ => (run_callNative_ok hanswer).trans (run_callNative_ok hanswer).symm
  | error message =>
    exact Or.inr ⟨_, span, _, persists_appended.callNative w, fun _ => run_callNative_error hanswer⟩

end Room

theorem define (env : Environment) (name : String) (v : Value) :
    Extends cuts (Run.define env name v) (Run.define env name v) :=
  of_same (fun _ _ _ => rfl) (leads_define persists_appended env name v)

theorem enter (env : Environment) (name : String) :
    Extends cuts (Run.enter env name) (Run.enter env name) :=
  of_same (fun _ _ _ => rfl) (leads_enter persists_appended env name)

theorem newFunction (f : Callable) : Extends cuts (Run.newFunction f) (Run.newFunction f) :=
  of_same (fun _ _ _ => rfl) (leads_newFunction persists_appended f)

theorem print (text : String) : Extends cuts (Run.print text) (Run.print text) :=
  of_same (fun _ _ _ => rfl) (leads_print persists_appended text)

theorem bindParams (env : Environment) (params : List Parameter) (args : List Value) :
    Extends cuts (Lox.bindParams env params args) (Lox.bindParams env params args) := by
  induction params generalizing args with
  | nil => exact pure ()
  | cons p ps ih =>
    cases args with
    | nil => exact pure ()
    | cons v vs => exact (define env p.name v).bind fun _ => ih vs

end Extends

end Run

/-! ### Evaluation -/

/-- Every call goes at least as far. -/
def CallRule.Extends (cuts : RuntimeError → Prop) (call call' : CallRule) : Prop :=
  ∀ f args span, Run.Extends cuts (call f args span) (call' f args span)

/-- The same host with another limit on calls. -/
def Host.allowing (h : Host) (calls : Nat) : Host := { h with maxCallDepth := calls }

namespace Run.Extends

section Evaluation

variable {call call' : CallRule}

theorem applyValue (hroom : cuts .stackExhausted) (hcall : CallRule.Extends cuts call call')
    (callee : Value) {arguments arguments' : Run (List Value)}
    (hargs : Extends cuts arguments arguments') (span : Span) :
    Extends cuts (applyValue call callee arguments span) (applyValue call' callee arguments' span) := by
  unfold Lox.applyValue
  split
  · refine hargs.bind fun vs => ?_
    split
    · exact hcall _ vs span
    · exact fail hroom _ span
  · exact fail hroom _ span

mutual

theorem evalExpr (hroom : cuts .stackExhausted) (hcall : CallRule.Extends cuts call call')
    (env : Environment) (e : ResolvedExpr) :
    Extends cuts (evalExpr call env e) (evalExpr call' env e) := by
  unfold Lox.evalExpr
  refine inside hroom ?_ _
  cases e with
  | literal span v => exact pure _
  | varRef span name ref => exact read hroom env name ref span
  | assign span name ref value =>
    refine (evalExpr hroom hcall env value).bind fun v => ?_
    refine (assign hroom env name ref span v).bind fun _ => ?_
    exact pure v
  | unary span op operand =>
    refine (evalExpr hroom hcall env operand).bind fun v => ?_
    exact ofOperator hroom span _
  | binary span op left right =>
    refine (evalExpr hroom hcall env left).bind fun v => ?_
    refine (evalExpr hroom hcall env right).bind fun u => ?_
    exact ofOperator hroom span _
  | logical span op left right =>
    refine (evalExpr hroom hcall env left).bind fun v => ?_
    split
    · exact pure v
    · exact evalExpr hroom hcall env right
  | call span callee arguments =>
    refine (evalExpr hroom hcall env callee).bind fun f => ?_
    exact applyValue hroom hcall f ((evalExprs hroom hcall env arguments).inside hroom _) span
  | group span inner => exact evalExpr hroom hcall env inner

theorem evalExprs (hroom : cuts .stackExhausted) (hcall : CallRule.Extends cuts call call')
    (env : Environment) (es : List ResolvedExpr) :
    Extends cuts (evalExprs call env es) (evalExprs call' env es) := by
  cases es with
  | nil => exact pure []
  | cons e es =>
    refine (evalExpr hroom hcall env e).bind fun v => ?_
    refine (evalExprs hroom hcall env es).bind fun vs => ?_
    exact pure _

end

theorem evalOptional (hroom : cuts .stackExhausted) (hcall : CallRule.Extends cuts call call')
    (env : Environment) (e : Option ResolvedExpr) :
    Extends cuts (evalOptional call env e) (evalOptional call' env e) := by
  cases e with
  | none => exact pure _
  | some e => exact evalExpr hroom hcall env e

theorem repeatWhile {condition condition' : Run Value} {body body' : Run Completion}
    (hcondition : Extends cuts condition condition') (hbody : Extends cuts body body') (n : Nat) :
    Extends cuts (repeatWhile condition body n) (repeatWhile condition' body' n) := by
  induction n with
  | zero => exact throw _
  | succ n ih =>
    refine hcondition.bind fun v => ?_
    split
    · refine hbody.bind fun c => ?_
      cases c with
      | normal => exact ih
      | returned v => exact pure _
    · exact pure _

mutual

theorem execStmt (hroom : cuts .stackExhausted) (hcall : CallRule.Extends cuts call call')
    (passes : Nat) (env : Environment) (s : ResolvedStmt) :
    Extends cuts (execStmt call passes env s) (execStmt call' passes env s) := by
  unfold Lox.execStmt
  refine inside hroom ?_ _
  cases s with
  | expression span e =>
    exact (evalExpr hroom hcall env e).bind fun _ => pure _
  | print span e =>
    refine (evalExpr hroom hcall env e).bind fun v => ?_
    exact (print v.text).bind fun _ => pure _
  | varDecl span name e =>
    refine (evalOptional hroom hcall env e).bind fun v => ?_
    exact (define env name v).bind fun _ => pure _
  | block span body =>
    refine (enter env "block").bind fun inner => ?_
    exact execStmts hroom hcall passes inner body
  | conditional span c t e =>
    cases e with
    | none =>
      refine (evalExpr hroom hcall env c).bind fun v => ?_
      split
      · exact execStmt hroom hcall passes env t
      · exact pure _
    | some e =>
      refine (evalExpr hroom hcall env c).bind fun v => ?_
      split
      · exact execStmt hroom hcall passes env t
      · exact execStmt hroom hcall passes env e
  | loop span c b =>
    exact repeatWhile (evalExpr hroom hcall env c) (execStmt hroom hcall passes env b) passes
  | funDecl span name params body =>
    refine (newFunction _).bind fun f => ?_
    exact (define env name f).bind fun _ => pure _
  | ret span e =>
    exact (evalOptional hroom hcall env e).bind fun v => pure _

theorem execStmts (hroom : cuts .stackExhausted) (hcall : CallRule.Extends cuts call call')
    (passes : Nat) (env : Environment) (ss : List ResolvedStmt) :
    Extends cuts (execStmts call passes env ss) (execStmts call' passes env ss) := by
  cases ss with
  | nil => exact pure _
  | cons s ss =>
    refine (execStmt hroom hcall passes env s).bind fun c => ?_
    cases c with
    | normal => exact execStmts hroom hcall passes env ss
    | returned v => exact pure _

end

end Evaluation

/-! ### Calls -/

variable {host : Host} {calls : Nat} (hroom : cuts .stackExhausted)

include hroom

theorem callClosure {call call' : CallRule} (hcall : CallRule.Extends cuts call call') (c : Closure)
    (args : List Value) :
    Extends cuts (callClosure host call c args) (callClosure (host.allowing calls) call' c args) := by
  refine (enter c.env c.name).bind fun env => ?_
  refine (bindParams env c.params args).bind fun _ => ?_
  refine (execStmts hroom hcall host.maxPasses env c.body).bind fun r => ?_
  cases r with
  | normal => exact pure _
  | returned v => exact pure _

/-- Where one rule has no call to spare and the other has, the run is cut off. -/
theorem callWithin {n m : Nat} (hnm : n ≤ m) (hcuts : n < m → cuts .stackOverflow) :
    CallRule.Extends cuts (callWithin host n) (callWithin (host.allowing calls) m) := by
  induction m generalizing n with
  | zero =>
    obtain rfl := Nat.le_zero.mp hnm
    exact fun f args span => fail hroom _ span
  | succ m ih =>
    -- one call more than a rule that goes at least as far
    have hstep {n : Nat} (hn : n ≤ m) (hcuts : n < m → cuts .stackOverflow) :
        CallRule.Extends cuts (Lox.callWithin host (n + 1))
          (Lox.callWithin (host.allowing calls) (m + 1)) := by
      intro f args span
      refine calling ?_ span
      cases f with
      | native name arity => exact inside hroom (callNative hroom host name args span) _
      | closure c => exact inside hroom (callClosure hroom (ih hn hcuts) c args) _
    cases n with
    | zero =>
      intro f args span
      have hover := hcuts (Nat.zero_lt_succ m)
      have hleads := (hstep (Nat.zero_le m) (fun _ => hover) f args span).leads
      refine ⟨hleads, fun room room' w _ => Or.inr ?_⟩
      rcases fail_cases (α := Value) .stackOverflow span room w with hrun | hrun
      · exact ⟨_, _, w, hover, hrun, hleads room' w⟩
      · exact ⟨_, _, w, hroom, hrun, hleads room' w⟩
    | succ n => exact hstep (Nat.le_of_succ_le_succ hnm) fun hlt => hcuts (Nat.succ_lt_succ hlt)

section Programs

variable (hle : host.maxCallDepth ≤ calls) (hcuts : host.maxCallDepth < calls → cuts .stackOverflow)

include hle hcuts

theorem execTopLevel (globals : Environment) (s : ResolvedStmt) :
    Extends cuts (execTopLevel host globals s) (execTopLevel (host.allowing calls) globals s) := by
  refine (execStmt hroom (callWithin hroom hle hcuts) host.maxPasses globals s).bind fun c => ?_
  cases c with
  | normal => exact pure _
  | returned v => exact throw _

theorem execProgram (globals : Environment) (ss : List ResolvedStmt) :
    Extends cuts (execProgram host globals ss) (execProgram (host.allowing calls) globals ss) := by
  induction ss with
  | nil => exact pure ()
  | cons s ss ih => exact ((execTopLevel hroom hle hcuts globals s).blaming s.span).bind fun _ => ih

end Programs

end Run.Extends

/-- A program does the same with ample room, unless it has exhausted the stack. -/
theorem Run.ample_or_exhausted (host : Host) (globals : Environment) (ss : List ResolvedStmt) (room : Room)
    (w : World) :
    (execProgram host globals ss).run room.ample w = (execProgram host globals ss).run room w ∨
      ∃ span v, (execProgram host globals ss).run room w = .error (.error .stackExhausted span) v := by
  have hextends : Extends (Eq .stackExhausted) (execProgram host globals ss)
      (execProgram (host.allowing host.maxCallDepth) globals ss) :=
    Extends.execProgram rfl (Nat.le_refl _) (fun hlt => absurd hlt (Nat.lt_irrefl _)) globals ss
  rcases hextends.run room room.ample w room.within_ample with heq | ⟨e, span, v, rfl, hrun, -⟩
  · exact Or.inl heq
  · exact Or.inr ⟨span, v, hrun⟩

end Lox
