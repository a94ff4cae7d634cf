import Lox.Proofs.Execution.Tally

/-!
# The count is right

Counted evaluation tracks plain evaluation if counted calls track plain ones; that calls do is shown by
induction on the number of calls to spare, which is what the count lacks of the limit.
-/

namespace Lox

open World (Grown persists_grown)

namespace Tracks

variable {limit : Nat} {calls : List Callable} {call : TalliedRule} {rule : CallRule}

theorem applyValue (hcall : call.Tracks limit calls rule) (callee : Value)
    {arguments : Tallied (List Value)} {arguments' : Run (List Value)}
    (hargs : Tracks limit calls arguments arguments') (span : Span) :
    Tracks limit calls (Tallied.applyValue call callee arguments span)
      (applyValue rule callee arguments' span) := by
  cases callee with
  | function id f =>
    refine hargs.bind fun vs => ?_
    split
    · exact hcall f vs span
    · exact fail _ span
  | _ => exact fail _ span

mutual

theorem evalExpr (hcalls : calls.length ≤ limit) (hcall : call.Tracks limit calls rule)
    (env : Environment) (e : ResolvedExpr) :
    Tracks limit calls (Tallied.evalExpr call calls env e) (evalExpr rule env e) := by
  unfold Tallied.evalExpr Lox.evalExpr
  refine note hcalls (inside ?_ _)
  cases e with
  | literal span v => exact pure _
  | varRef span name ref =>
    exact lift (Run.leads_read persists_grown env name ref span)
  | assign span name ref value =>
    refine (evalExpr hcalls hcall env value).bind fun v => ?_
    refine (lift (Run.leads_assign persists_grown env name ref span v)).bind fun _ => ?_
    exact pure v
  | unary span op operand =>
    refine (evalExpr hcalls hcall env operand).bind fun v => ?_
    exact lift (Run.leads_ofOperator persists_grown span _)
  | binary span op left right =>
    refine (evalExpr hcalls hcall env left).bind fun v => ?_
    refine (evalExpr hcalls hcall env right).bind fun u => ?_
    exact lift (Run.leads_ofOperator persists_grown span _)
  | logical span op left right =>
    refine (evalExpr hcalls hcall env left).bind fun v => ?_
    split
    · exact pure v
    · exact evalExpr hcalls hcall env right
  | call span callee arguments =>
    refine (evalExpr hcalls hcall env callee).bind fun f => ?_
    exact applyValue hcall f ((evalExprs hcalls hcall env arguments).inside _) span
  | group span inner => exact evalExpr hcalls hcall env inner

theorem evalExprs (hcalls : calls.length ≤ limit) (hcall : call.Tracks limit calls rule)
    (env : Environment) (es : List ResolvedExpr) :
    Tracks limit calls (Tallied.evalExprs call calls env es) (evalExprs rule env es) := by
  cases es with
  | nil => exact pure _
  | cons e es =>
    refine (evalExpr hcalls hcall env e).bind fun v => ?_
    refine (evalExprs hcalls hcall env es).bind fun vs => ?_
    exact pure _

end

theorem evalOptional (hcalls : calls.length ≤ limit) (hcall : call.Tracks limit calls rule)
    (env : Environment) (e : Option ResolvedExpr) :
    Tracks limit calls (Tallied.evalOptional call calls env e) (evalOptional rule env e) := by
  cases e with
  | none => exact pure _
  | some e => exact evalExpr hcalls hcall env e

theorem repeatWhile {condition : Tallied Value} {condition' : Run Value} {body : Tallied Completion}
    {body' : Run Completion} (hcondition : Tracks limit calls condition condition')
    (hbody : Tracks limit calls body body') (n : Nat) :
    Tracks limit calls (Tallied.repeatWhile condition body n) (repeatWhile condition' body' n) := by
  induction n with
  | zero => exact throw _
  | succ n ih =>
    refine hcondition.bind fun v => ?_
    split
    · refine hbody.bind fun c => ?_
      cases c with
      | normal => exact ih
      | returned v => exact pure _
    · exact pure _

mutual

theorem execStmt (hcalls : calls.length ≤ limit) (hcall : call.Tracks limit calls rule) (passes : Nat)
    (env : Environment) (s : ResolvedStmt) :
    Tracks limit calls (Tallied.execStmt call calls passes env s) (execStmt rule passes env s) := by
  unfold Tallied.execStmt Lox.execStmt
  refine note hcalls (inside ?_ _)
  cases s with
  | expression span e =>
    exact (evalExpr hcalls hcall env e).bind fun _ => pure _
  | print span e =>
    refine (evalExpr hcalls hcall env e).bind fun v => ?_
    exact (lift (Run.leads_print persists_grown v.text)).bind fun _ => pure _
  | varDecl span name e =>
    refine (evalOptional hcalls hcall env e).bind fun v => ?_
    exact (lift (Run.leads_define persists_grown env name v)).bind fun _ => pure _
  | block span body =>
    refine (lift (Run.leads_enter persists_grown env "block")).bind fun inner => ?_
    exact execStmts hcalls hcall passes inner body
  | conditional span c t e =>
    cases e with
    | none =>
      refine (evalExpr hcalls hcall env c).bind fun v => ?_
      split
      · exact execStmt hcalls hcall passes env t
      · exact pure _
    | some e =>
      refine (evalExpr hcalls hcall env c).bind fun v => ?_
      split
      · exact execStmt hcalls hcall passes env t
      · exact execStmt hcalls hcall passes env e
  | loop span c b =>
    exact repeatWhile (evalExpr hcalls hcall env c) (execStmt hcalls hcall passes env b) passes
  | funDecl span name params body =>
    refine (lift (Run.leads_newFunction persists_grown _)).bind fun f => ?_
    exact (lift (Run.leads_define persists_grown env name f)).bind fun _ => pure _
  | ret span e => exact (evalOptional hcalls hcall env e).bind fun v => pure _

theorem execStmts (hcalls : calls.length ≤ limit) (hcall : call.Tracks limit calls rule)
    (passes : Nat) (env : Environment) (ss : List ResolvedStmt) :
    Tracks limit calls (Tallied.execStmts call calls passes env ss)
      (execStmts rule passes env ss) := by
  cases ss with
  | nil => exact pure _
  | cons s ss =>
    refine (execStmt hcalls hcall passes env s).bind fun c => ?_
    cases c with
    | normal => exact execStmts hcalls hcall passes env ss
    | returned v => exact pure _

end

/-! ### Calls -/

variable {host : Host}

theorem callClosure (hcalls : calls.length ≤ limit) (hcall : call.Tracks limit calls rule)
    (c : Closure) (args : List Value) :
    Tracks limit calls (Tallied.callClosure host call calls c args) (callClosure host rule c args) := by
  refine (lift (Run.leads_enter persists_grown c.env c.name)).bind fun env => ?_
  refine (lift (Run.leads_bindParams persists_grown env c.params args)).bind fun _ => ?_
  refine (execStmts hcalls hcall host.maxPasses env c.body).bind fun r => ?_
  cases r with
  | normal => exact pure _
  | returned v => exact pure _

/-- A rule for calls with so many calls to spare, where the others are in progress. -/
theorem callAmong (spare : Nat) (h : calls.length + spare = host.maxCallDepth) :
    (Tallied.callAmong host (spare + 1) calls).Tracks host.maxCallDepth calls
      (callWithin host spare) := by
  induction spare generalizing calls with
  | zero =>
    -- the count is at the limit, so the call fails in both
    intro f args span room t ht
    have hfull : host.maxCallDepth ≤ t.count := by omega
    unfold Tallied.callAmong
    rw [run_get_bind, if_pos hfull]
    exact fail .stackOverflow span room t ht
  | succ spare ih =>
    -- the call is in progress while its body runs, with one call less to spare
    intro f args span room t ht
    have hspared : ¬ host.maxCallDepth ≤ t.count := by omega
    have hspare : (f :: calls).length + spare = host.maxCallDepth := by
      rw [List.length_cons]
      omega
    have hlength : (f :: calls).length ≤ host.maxCallDepth := Nat.le.intro hspare
    unfold Tallied.callAmong
    rw [run_get_bind, if_neg hspared]
    refine calling (counting f (note hlength ?_)) span room t ht
    cases f with
    | native name arity => exact inside (lift (Run.leads_callNative persists_grown host name args span)) _
    | closure c => exact inside (callClosure hlength (ih hspare) c args) _

theorem execTopLevel (globals : Environment) (s : ResolvedStmt) :
    Tracks host.maxCallDepth [] (Tallied.execTopLevel host globals s) (execTopLevel host globals s) := by
  have hrule : (Tallied.callAmong host (host.maxCallDepth + 1) []).Tracks host.maxCallDepth []
      (callWithin host host.maxCallDepth) := callAmong host.maxCallDepth (Nat.zero_add _)
  refine (execStmt (Nat.zero_le _) hrule host.maxPasses globals s).bind fun c => ?_
  cases c with
  | normal => exact pure _
  | returned v => exact throw _

theorem execProgram (globals : Environment) (ss : List ResolvedStmt) :
    Tracks host.maxCallDepth [] (Tallied.execProgram host globals ss) (execProgram host globals ss) := by
  induction ss with
  | nil => exact pure ()
  | cons s ss ih => exact ((execTopLevel globals s).blaming s.span).bind fun _ => ih

end Tracks

end Lox
