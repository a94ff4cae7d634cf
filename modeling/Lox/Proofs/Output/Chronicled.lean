import Lox.Proofs.Output.Following

/-!
# Chronicles of programs

Evaluation with a chronicle follows plain evaluation: by induction on the tree, whose leaves are spelled as
in a source, and on the calls that may be in progress.
-/

namespace Lox

open Leaf (AllSpelled)

namespace Chronicles

variable {call : ChronicledRule} {rule : CallRule}

/-! ### Expressions -/

theorem applyValue (hcall : call.Chronicles rule) {callee : Value} (hcallee : callee.Bare)
    {arguments : Chronicled (List Value)} {arguments' : Run (List Value)}
    (hargs : Chronicles arguments arguments' fun vs => ∀ v ∈ vs, v.Bare) (span : Span) :
    Chronicles (Chronicled.applyValue call callee arguments span)
      (applyValue rule callee arguments' span) Value.Bare := by
  cases callee with
  | function id f =>
    refine hargs.bind fun vs hvs => ?_
    split
    · exact hcall f vs span hcallee hvs
    · exact fail _ span
  | _ => exact fail _ span

mutual

theorem evalExpr (hcall : call.Chronicles rule) (env : Environment) (e : ResolvedExpr)
    (he : AllSpelled e.leaves) :
    Chronicles (Chronicled.evalExpr call env e) (evalExpr rule env e) Value.Bare := by
  unfold Chronicled.evalExpr Lox.evalExpr
  refine noted (inside e.activity ?_)
  cases e with
  | literal span v => exact pure (.ofLiteral (he _ List.mem_cons_self))
  | varRef span name ref => exact lift (.read env name ref span)
  | assign span name ref value =>
    refine (evalExpr hcall env value (Leaf.allSpelled_cons.mp he).2).bind fun v hv => ?_
    exact (lift (.assign env name ref span hv)).bind fun _ _ => pure hv
  | unary span op operand =>
    refine (evalExpr hcall env operand he).bind fun v hv => ?_
    exact lift (.ofOperator span fun _ => Value.Bare.unary)
  | binary span op left right =>
    obtain ⟨hl, hr⟩ := Leaf.allSpelled_append.mp he
    refine (evalExpr hcall env left hl).bind fun v hv => ?_
    refine (evalExpr hcall env right hr).bind fun u hu => ?_
    exact lift (.ofOperator span fun _ => Value.Bare.binary hv hu)
  | logical span op left right =>
    obtain ⟨hl, hr⟩ := Leaf.allSpelled_append.mp he
    refine (evalExpr hcall env left hl).bind fun v hv => ?_
    split
    · exact pure hv
    · exact evalExpr hcall env right hr
  | call span callee arguments =>
    obtain ⟨hf, hargs⟩ := Leaf.allSpelled_append.mp he
    refine (evalExpr hcall env callee hf).bind fun f hf => ?_
    exact applyValue hcall hf (inside .arguments (evalExprs hcall env arguments hargs)) span
  | group span inner => exact evalExpr hcall env inner he

theorem evalExprs (hcall : call.Chronicles rule) (env : Environment) (es : List ResolvedExpr)
    (hes : AllSpelled (Expr.leavesAll es)) :
    Chronicles (Chronicled.evalExprs call env es) (evalExprs rule env es) fun vs => ∀ v ∈ vs, v.Bare := by
  cases es with
  | nil => exact pure nofun
  | cons e es =>
    obtain ⟨he, hes⟩ := Leaf.allSpelled_append.mp hes
    refine (evalExpr hcall env e he).bind fun v hv => ?_
    refine (evalExprs hcall env es hes).bind fun vs hvs => ?_
    exact pure (List.forall_mem_cons.mpr ⟨hv, hvs⟩)

end

theorem evalOptional (hcall : call.Chronicles rule) (env : Environment) (e : Option ResolvedExpr)
    (he : ∀ e', e = some e' → AllSpelled e'.leaves) :
    Chronicles (Chronicled.evalOptional call env e) (evalOptional rule env e) Value.Bare := by
  cases e with
  | none => exact pure trivial
  | some e => exact evalExpr hcall env e (he e rfl)

/-! ### Statements -/

end Chronicles

/-- The value that a body returns, if it returns one, is bare. -/
def Completion.Bare : Completion → Prop
  | .normal => True
  | .returned v => v.Bare

namespace Chronicles

variable {call : ChronicledRule} {rule : CallRule}

theorem repeatWhile {condition : Chronicled Value} {condition' : Run Value} {body : Chronicled Completion}
    {body' : Run Completion} (hcondition : Chronicles condition condition' Value.Bare)
    (hbody : Chronicles body body' Completion.Bare) (n : Nat) :
    Chronicles (Chronicled.repeatWhile condition body n) (repeatWhile condition' body' n)
      Completion.Bare := by
  induction n with
  | zero => exact throw _
  | succ n ih =>
    refine hcondition.bind fun v _ => ?_
    split
    · refine hbody.bind fun c hc => ?_
      cases c with
      | normal => exact ih
      | returned v => exact pure hc
    · exact pure trivial

mutual

theorem execStmt (hcall : call.Chronicles rule) (passes : Nat) (env : Environment) (s : ResolvedStmt)
    (hs : AllSpelled s.leaves) :
    Chronicles (Chronicled.execStmt call passes env s) (execStmt rule passes env s) Completion.Bare := by
  unfold Chronicled.execStmt Lox.execStmt
  refine note (x := .begun) nofun rfl (inside s.activity ?_)
  cases s with
  | expression span e =>
    exact (evalExpr hcall env e hs).bind fun _ _ => pure trivial
  | print span e =>
    refine (evalExpr hcall env e hs).bind fun v hv => ?_
    exact (print hv).bind fun _ _ => pure trivial
  | varDecl span name e =>
    have he : ∀ e', e = some e' → AllSpelled e'.leaves := by
      rintro e' rfl
      exact (Leaf.allSpelled_cons.mp hs).2
    refine (evalOptional hcall env e he).bind fun v hv => ?_
    exact (lift (.define env name hv)).bind fun _ _ => pure trivial
  | block span body =>
    refine (lift (.enter env "block")).bind fun inner _ => ?_
    exact execStmts hcall passes inner body hs
  | conditional span c t f =>
    cases f with
    | none =>
      obtain ⟨hc, ht⟩ := Leaf.allSpelled_append.mp hs
      refine (evalExpr hcall env c hc).bind fun v _ => ?_
      split
      · exact execStmt hcall passes env t ht
      · exact pure trivial
    | some f =>
      obtain ⟨hc, htf⟩ := Leaf.allSpelled_append.mp hs
      obtain ⟨ht, hf⟩ := Leaf.allSpelled_append.mp htf
      refine (evalExpr hcall env c hc).bind fun v _ => ?_
      split
      · exact execStmt hcall passes env t ht
      · exact execStmt hcall passes env f hf
  | loop span c b =>
    obtain ⟨hc, hb⟩ := Leaf.allSpelled_append.mp hs
    exact repeatWhile (evalExpr hcall env c hc) (execStmt hcall passes env b hb) passes
  | funDecl span name params body =>
    obtain ⟨hname, hrest⟩ := Leaf.allSpelled_cons.mp hs
    have hf : (Callable.closure ⟨name, params, body, env⟩).Bare :=
      ⟨.of_name hname, (Leaf.allSpelled_append.mp hrest).2⟩
    refine (lift (.newFunction hf)).bind fun f hf => ?_
    exact (lift (.define env name hf)).bind fun _ _ => pure trivial
  | ret span e =>
    have he : ∀ e', e = some e' → AllSpelled e'.leaves := by
      rintro e' rfl
      exact hs
    exact (evalOptional hcall env e he).bind fun v hv => pure hv

theorem execStmts (hcall : call.Chronicles rule) (passes : Nat) (env : Environment)
    (ss : List ResolvedStmt) (hss : AllSpelled (Stmt.leavesAll ss)) :
    Chronicles (Chronicled.execStmts call passes env ss) (execStmts rule passes env ss)
      Completion.Bare := by
  cases ss with
  | nil => exact pure trivial
  | cons s ss =>
    obtain ⟨hs, hss⟩ := Leaf.allSpelled_append.mp hss
    refine (execStmt hcall passes env s hs).bind fun c hc => ?_
    cases c with
    | normal => exact execStmts hcall passes env ss hss
    | returned v => exact pure hc

end

/-! ### Calls -/

variable {host : Host}

theorem callClosure (hcall : call.Chronicles rule) {c : Closure} (hc : (Callable.closure c).Bare)
    {args : List Value} (hargs : ∀ v ∈ args, v.Bare) :
    Chronicles (Chronicled.callClosure host call c args) (callClosure host rule c args) Value.Bare := by
  refine (lift (.enter c.env c.name)).bind fun env _ => ?_
  refine (lift (.bindParams env c.params hargs)).bind fun _ _ => ?_
  refine (execStmts hcall host.maxPasses env c.body hc.2).bind fun r hr => ?_
  cases r with
  | normal => exact pure trivial
  | returned v => exact pure hr

theorem callWithin (hnatives : host.natives.Bare) (calls : Nat) :
    (Chronicled.callWithin host calls).Chronicles (callWithin host calls) := by
  induction calls with
  | zero => exact fun f args span _ _ => fail .stackOverflow span
  | succ calls ih =>
    intro f args span hf hargs
    refine calling span (note (x := .called args) hargs rfl ?_)
    cases f with
    | native name arity => exact inside .native (lift (.callNative hnatives name hargs span))
    | closure c => exact inside .body (callClosure ih hf hargs)

/-! ### Programs -/

theorem execTopLevel (hnatives : host.natives.Bare) (globals : Environment) (s : ResolvedStmt)
    (hs : AllSpelled s.leaves) :
    Chronicles (Chronicled.execTopLevel host globals s) (execTopLevel host globals s) fun _ => True := by
  have hbody := execStmt (callWithin hnatives host.maxCallDepth) host.maxPasses globals s hs
  refine hbody.bind fun c _ => ?_
  cases c with
  | normal => exact pure trivial
  | returned v => exact throw _

theorem execProgram (hnatives : host.natives.Bare) (globals : Environment) (ss : List ResolvedStmt)
    (hss : AllSpelled (Stmt.leavesAll ss)) :
    Chronicles (Chronicled.execProgram host globals ss) (execProgram host globals ss) fun _ => True := by
  induction ss with
  | nil => exact pure trivial
  | cons s ss ih =>
    obtain ⟨hs, hss⟩ := Leaf.allSpelled_append.mp hss
    exact ((execTopLevel hnatives globals s hs).blaming s.span).bind fun _ _ => ih hss

end Chronicles

end Lox
