import Lox.Proofs.Loops.Agreement
import Lox.Proofs.Matching.Simulation

/-!
# One tree in two environments

By induction on the tree: its two runs agree, each with the hops that its environment asks for, and so do
calls, by induction on how many more may be in progress. A statement that declares something needs linked
innermost frames; inside a block and a function they always are.
-/

namespace Lox.Loops

abbrev ValuesMatch (links : Links) : List Value → List Value → Prop :=
  List.Forall₂ (ValueMatches links)

inductive CompletionMatches (links : Links) : Completion → Completion → Prop where
  | normal : CompletionMatches links .normal .normal
  | returned {v v' : Value} (h : ValueMatches links v v') :
    CompletionMatches links (.returned v) (.returned v')

/-- A rule for calls that agrees with itself on functions and arguments that match. -/
def CallsAgree (call : CallRule) : Prop :=
  ∀ {links : Links} {w w' : World} {f f' : Callable} {args args' : List Value} (span : Span),
    WorldsMatch links w w' → CallableMatches links f f' → ValuesMatch links args args' →
      Agree links w w' (call f args span) (call f' args' span) ValueMatches

namespace Agree

variable {links : Links} {w w' : World} {call : CallRule} {env env' : Environment} {h h' : Nat → Nat}

/-! ### Expressions -/

theorem applyValue (hcall : CallsAgree call) {f f' : Value} {arguments arguments' : Run (List Value)}
    (span : Span) (hw : WorldsMatch links w w') (hf : ValueMatches links f f')
    (hargs : Agree links w w' arguments arguments' ValuesMatch) :
    Agree links w w' (applyValue call f arguments span) (applyValue call f' arguments' span)
      ValueMatches := by
  cases hf with
  | constant hf =>
    obtain ⟨l, rfl⟩ := hf
    cases l <;> exact fail _ span hw
  | function id hf =>
    refine bind hargs fun later v v' as as' hl hv has => ?_
    have hf' := hf.mono hl
    rw [← has.length_eq, ← hf.arity, ← hf.name]
    split
    · exact hcall span hv hf' has
    · exact fail _ span hv

mutual

theorem evalExpr (hcall : CallsAgree call) (e : ResolvedExpr) {links : Links} {w w' : World}
    (hw : WorldsMatch links w w') (henv : Aligned links h h' env env') :
    Agree links w w' (evalExpr call env (e.map (Option.map h)))
      (evalExpr call env' (e.map (Option.map h'))) ValueMatches := by
  unfold Lox.evalExpr
  rw [Expr.activity_map, Expr.activity_map]
  refine inside _ hw ?_
  cases e with
  | literal span v => exact pure hw (.constant ⟨v, rfl⟩)
  | varRef span name ref => exact read hw henv name ref span
  | assign span name ref value =>
    refine bind (evalExpr hcall value hw henv) fun later v v' a a' hl hv ha => ?_
    refine bind (assign hv (henv.mono hl) name ref span ha) fun later' u u' _ _ hl' hu _ => ?_
    exact pure hu (ha.mono hl')
  | unary span op operand =>
    refine bind (evalExpr hcall operand hw henv) fun later v v' a a' hl hv ha => ?_
    rw [← ha.alike.applyUnary]
    exact ofOperator hv span fun _ => UnaryOp.isConstant_of_apply
  | binary span op left right =>
    refine bind (evalExpr hcall left hw henv) fun later v v' a a' hl hv ha => ?_
    refine bind (evalExpr hcall right hv (henv.mono hl)) fun later' u u' b b' hl' hu hb => ?_
    rw [← ha.alike.applyBinary hb.alike]
    exact ofOperator hu span fun _ => BinaryOp.isConstant_of_apply
  | logical span op left right =>
    refine bind (evalExpr hcall left hw henv) fun later v v' a a' hl hv ha => ?_
    rw [← ha.alike.isSettledBy]
    split
    · exact pure hv ha
    · exact evalExpr hcall right hv (henv.mono hl)
  | call span callee arguments =>
    refine bind (evalExpr hcall callee hw henv) fun later v v' a a' hl hv ha => ?_
    exact applyValue hcall span hv ha (inside .arguments hv (evalExprs hcall arguments hv (henv.mono hl)))
  | group span inner => exact evalExpr hcall inner hw henv

theorem evalExprs (hcall : CallsAgree call) (es : List ResolvedExpr) {links : Links} {w w' : World}
    (hw : WorldsMatch links w w') (henv : Aligned links h h' env env') :
    Agree links w w' (evalExprs call env (Expr.mapAll (Option.map h) es))
      (evalExprs call env' (Expr.mapAll (Option.map h') es)) ValuesMatch := by
  cases es with
  | nil => exact pure hw .nil
  | cons e es =>
    refine bind (evalExpr hcall e hw henv) fun later v v' a a' hl hv ha => ?_
    refine bind (evalExprs hcall es hv (henv.mono hl)) fun later' u u' as as' hl' hu has => ?_
    exact pure hu (.cons (ha.mono hl') has)

end

theorem evalOptional (hcall : CallsAgree call) (e : Option ResolvedExpr) (hw : WorldsMatch links w w')
    (henv : Aligned links h h' env env') :
    Agree links w w' (evalOptional call env (e.map fun e => e.map (Option.map h)))
      (evalOptional call env' (e.map fun e => e.map (Option.map h'))) ValueMatches := by
  cases e with
  | none => exact pure hw (.constant ⟨.nil, rfl⟩)
  | some e => exact evalExpr hcall e hw henv

/-! ### Statements -/

theorem choose {condition condition' : Run Value} {m m' n n' : Run Completion}
    (hcondition : Agree links w w' condition condition' ValueMatches)
    (hthen : ∀ later v v', links ⊆ later → WorldsMatch later v v' →
      Agree later v v' m n CompletionMatches)
    (helse : ∀ later v v', links ⊆ later → WorldsMatch later v v' →
      Agree later v v' m' n' CompletionMatches) :
    Agree links w w' (condition >>= fun a => if a.isTruthy then m else m')
      (condition' >>= fun b => if b.isTruthy then n else n') CompletionMatches := by
  refine bind hcondition fun later v v' a b hl hv hab => ?_
  rw [← hab.alike.isTruthy]
  split
  · exact hthen later v v' hl hv
  · exact helse later v v' hl hv

theorem repeatWhile {condition condition' : Run Value} {body body' : Run Completion}
    (hcondition : ∀ {later : Links} {v v' : World}, links ⊆ later → WorldsMatch later v v' →
      Agree later v v' condition condition' ValueMatches)
    (hbody : ∀ {later : Links} {v v' : World}, links ⊆ later → WorldsMatch later v v' →
      Agree later v v' body body' CompletionMatches)
    (n : Nat) (hw : WorldsMatch links w w') :
    Agree links w w' (repeatWhile condition body n) (repeatWhile condition' body' n)
      CompletionMatches := by
  induction n generalizing links w w' with
  | zero => exact of_stop rfl rfl .passesUsedUp hw
  | succ n ih =>
    refine choose (hcondition (List.Subset.refl links) hw) (fun later v v' hl hv => ?_)
      fun later v v' hl hv => pure hv .normal
    refine bind (hbody hl hv) fun later' u u' c c' hl' hu hc => ?_
    have hlater := List.Subset.trans hl hl'
    cases hc with
    | normal =>
      exact ih (fun h => hcondition (List.Subset.trans hlater h))
        (fun h => hbody (List.Subset.trans hlater h)) hu
    | returned hab => exact pure hu (.returned hab)

mutual

theorem execStmt (hcall : CallsAgree call) (passes : Nat) (s : ResolvedStmt) {h h' : Nat → Nat}
    {env env' : Environment} {links : Links} {w w' : World} (hw : WorldsMatch links w w')
    (henv : Aligned links h h' env env')
    (hhead : s.declares = [] ∨ (env.frame, env'.frame) ∈ links) :
    Agree links w w' (execStmt call passes env (s.rehop h)) (execStmt call passes env' (s.rehop h'))
      CompletionMatches := by
  unfold Lox.execStmt
  rw [Stmt.activity_rehop, Stmt.activity_rehop]
  refine inside _ hw ?_
  cases s with
  | expression span e =>
    refine bind (evalExpr hcall e hw henv) fun later v v' a a' hl hv ha => ?_
    exact pure hv .normal
  | print span e =>
    refine bind (evalExpr hcall e hw henv) fun later v v' a a' hl hv ha => ?_
    rw [← ha.alike.text]
    refine bind (print hv a.text) fun later' u u' _ _ hl' hu _ => ?_
    exact pure hu .normal
  | varDecl span name e =>
    have hlinked := hhead.resolve_left (List.cons_ne_nil name [])
    refine bind (evalOptional hcall e hw henv) fun later v v' a a' hl hv ha => ?_
    refine bind (define hv (hl hlinked) name ha) fun later' u u' _ _ hl' hu _ => ?_
    exact pure hu .normal
  | block span body =>
    refine enter ?_
    have henv' := henv.mono (List.subset_cons_self (w.store.size, w'.store.size) links)
    exact execStmts hcall passes body (hw.alloc "block") (henv'.child List.mem_cons_self)
      List.mem_cons_self
  | conditional span c t e =>
    cases e with
    | none =>
      exact choose (evalExpr hcall c hw henv)
        (fun later v v' hl hv => execStmt hcall passes t hv (henv.mono hl) (hhead.imp_right (hl ·)))
        fun later v v' hl hv => pure hv .normal
    | some e =>
      have ht := hhead.imp_left fun hd => (List.append_eq_nil_iff.mp hd).2
      have he := hhead.imp_left fun hd => (List.append_eq_nil_iff.mp hd).1
      exact choose (evalExpr hcall c hw henv)
        (fun later v v' hl hv => execStmt hcall passes t hv (henv.mono hl) (ht.imp_right (hl ·)))
        fun later v v' hl hv => execStmt hcall passes e hv (henv.mono hl) (he.imp_right (hl ·))
  | loop span c b =>
    exact repeatWhile (fun hl hv => evalExpr hcall c hv (henv.mono hl))
      (fun hl hv => execStmt hcall passes b hv (henv.mono hl) (hhead.imp_right (hl ·))) passes hw
  | funDecl span name params body =>
    have hlinked := hhead.resolve_left (List.cons_ne_nil name [])
    refine bind (newFunction hw (.closure name params body henv)) fun later v v' f f' hl hv hf => ?_
    refine bind (define hv (hl hlinked) name hf) fun later' u u' _ _ hl' hu _ => ?_
    exact pure hu .normal
  | ret span e =>
    refine bind (evalOptional hcall e hw henv) fun later v v' a a' hl hv ha => ?_
    exact pure hv (.returned ha)

theorem execStmts (hcall : CallsAgree call) (passes : Nat) (ss : List ResolvedStmt) {h h' : Nat → Nat}
    {env env' : Environment} {links : Links} {w w' : World} (hw : WorldsMatch links w w')
    (henv : Aligned links h h' env env') (hhead : (env.frame, env'.frame) ∈ links) :
    Agree links w w' (execStmts call passes env (Stmt.rehopAll h ss))
      (execStmts call passes env' (Stmt.rehopAll h' ss)) CompletionMatches := by
  cases ss with
  | nil => exact pure hw .normal
  | cons s ss =>
    refine bind (execStmt hcall passes s hw henv (Or.inr hhead)) fun later v v' c c' hl hv hc => ?_
    cases hc with
    | normal => exact execStmts hcall passes ss hv (henv.mono hl) (hl hhead)
    | returned hab => exact pure hv (.returned hab)

end

/-! ### Calls -/

theorem callNative {host : Host} (hn : host.natives.Discreet) (name : String) {args args' : List Value}
    (span : Span) (hw : WorldsMatch links w w') (hargs : ValuesMatch links args args') :
    Agree links w w' (callNative host name args span) (callNative host name args' span)
      ValueMatches := by
  have hsame := hn.answer_congr name (host.clock w.nativeCalls) (hargs.imp fun _ _ h => h.alike)
  rw [hw.nativeCalls] at hsame
  cases hanswer : host.natives.answer name (host.clock w.nativeCalls) args with
  | ok a =>
    have hanswer' := hsame.symm.trans (hw.nativeCalls ▸ hanswer)
    exact of_ok (run_callNative_ok hanswer) (run_callNative_ok hanswer') hw.countNativeCall
      (.constant (hn.isConstant_of_answer hanswer))
  | error message =>
    have hanswer' := hsame.symm.trans (hw.nativeCalls ▸ hanswer)
    exact of_run (run_callNative_error hanswer) (run_callNative_error hanswer') (List.Subset.refl links)
      (fail _ span hw.countNativeCall)

theorem bindParams (params : List Parameter) {args args' : List Value} (hw : WorldsMatch links w w')
    (hhead : (env.frame, env'.frame) ∈ links) (hargs : ValuesMatch links args args') :
    Agree links w w' (bindParams env params args) (bindParams env' params args')
      fun _ _ _ => True := by
  induction params generalizing links w w' args args' with
  | nil => exact pure hw trivial
  | cons p ps ih =>
    cases hargs with
    | nil => exact pure hw trivial
    | cons hv hrest =>
      refine bind (define hw hhead p.name hv) fun later u u' _ _ hl hu _ => ?_
      exact ih hu (hl hhead) (hrest.imp fun _ _ h => h.mono hl)

theorem callClosure {host : Host} (hcall : CallsAgree call) {c c' : Closure} {args args' : List Value}
    (hw : WorldsMatch links w w') (hc : CallableMatches links (.closure c) (.closure c'))
    (hargs : ValuesMatch links args args') :
    Agree links w w' (callClosure host call c args) (callClosure host call c' args') ValueMatches := by
  cases hc with
  | @closure h h' env env' name params body henv =>
    refine enter ?_
    have hold : links ⊆ (w.store.size, w'.store.size) :: links := List.subset_cons_self _ links
    have hinner := (henv.mono hold).child List.mem_cons_self
    have hhead : ((env.child w.store.size).frame, (env'.child w'.store.size).frame) ∈
        (w.store.size, w'.store.size) :: links := List.mem_cons_self
    have hbind := bindParams params (hw.alloc name) hhead (hargs.imp fun _ _ h => h.mono hold)
    refine bind hbind fun later u u' _ _ hl hu _ => ?_
    have hexec := execStmts hcall host.maxPasses body hu (hinner.mono hl) (hl hhead)
    refine bind hexec fun later' v v' r r' hl' hv hr => ?_
    cases hr with
    | normal => exact pure hv (.constant ⟨.nil, rfl⟩)
    | returned hab => exact pure hv hab

theorem callWithin {host : Host} (hn : host.natives.Discreet) (calls : Nat) :
    CallsAgree (callWithin host calls) := by
  induction calls with
  | zero => exact fun span hw _ _ => fail .stackOverflow span hw
  | succ calls ih =>
    intro links w w' f f' args args' span hw hf hargs
    refine calling span ?_
    cases f with
    | native name arity =>
      cases hf
      exact inside .native hw (callNative hn name span hw hargs)
    | closure c =>
      cases f' with
      | native => cases hf
      | closure c' => exact inside .body hw (callClosure ih hw hf hargs)

end Agree

end Lox.Loops
