import Lox.Proofs.Matching.Agreement

/-!
# Matching programs do the same

By induction on the tree of the second program: matching expressions and statements agree in aligned
environments, and so do calls, by induction on how many more may be in progress. A scope that only the
second program has costs it a frame that is linked to none.
-/

namespace Lox.Matching

variable {wraps : Prop} {before : List String}

abbrev ValuesMatch (wraps : Prop) (links : List Link) : List Value → List Value → Prop :=
  List.Forall₂ (ValueMatches wraps links)

inductive CompletionMatches (wraps : Prop) (links : List Link) : Completion → Completion → Prop where
  | normal : CompletionMatches wraps links .normal .normal
  | returned {v v' : Value} (h : ValueMatches wraps links v v') :
    CompletionMatches wraps links (.returned v) (.returned v')

def CallsAgree (wraps : Prop) (before : List String) (call call' : CallRule) : Prop :=
  ∀ {links : List Link} {w w' : World} {f f' : Callable} {args args' : List Value} (span span' : Span),
    WorldsMatch wraps before links w w' → CallableMatches wraps links f f' →
      ValuesMatch wraps links args args' →
        Agree wraps before links w w' (call f args span) (call' f' args' span') (ValueMatches wraps)

theorem execStmts_singleton (call : CallRule) (passes : Nat) (env : Environment) (s : ResolvedStmt) :
    execStmts call passes env [s] = execStmt call passes env s := by
  conv_rhs => rw [← bind_pure (execStmt call passes env s)]
  refine bind_congr fun c => ?_
  cases c <;> rfl

namespace Agree

variable {links : List Link} {w w' : World} {call call' : CallRule} {env env' : Environment}
  {σ : List Step}

/-! ### Expressions -/

theorem applyValue (hcall : CallsAgree wraps before call call') {f f' : Value}
    {arguments arguments' : Run (List Value)} (span span' : Span)
    (hw : WorldsMatch wraps before links w w') (hf : ValueMatches wraps links f f')
    (hargs : Agree wraps before links w w' arguments arguments' (ValuesMatch wraps)) :
    Agree wraps before links w w' (applyValue call f arguments span)
      (applyValue call' f' arguments' span') (ValueMatches wraps) := by
  cases hf with
  | constant h =>
    obtain ⟨l, rfl⟩ := h
    cases l <;> exact fail _ span span' hw
  | function id hf =>
    refine bind hargs fun later v v' as as' hl hv has => ?_
    have hf' := hf.mono hl
    rw [← has.length_eq, ← hf.arity, ← hf.name]
    split
    · exact hcall span span' hv hf' has
    · exact fail _ span span' hv

mutual

theorem evalExpr (hcall : CallsAgree wraps before call call') (e' : ResolvedExpr) {e : ResolvedExpr}
    {links : List Link} {w w' : World} (he : ExprMatches σ e e')
    (hw : WorldsMatch wraps before links w w') (henv : Aligned links σ env.frames env'.frames) :
    Agree wraps before links w w' (evalExpr call env e) (evalExpr call' env' e') (ValueMatches wraps) := by
  unfold Lox.evalExpr
  rw [he.activity]
  refine inside _ hw ?_
  cases e' with
  | literal span' v =>
    cases he
    exact pure hw (.constant ⟨v, rfl⟩)
  | varRef span' name' ref' =>
    cases he with
    | varRef hr => exact read hw henv hr _ _
  | assign span' name' ref' value' =>
    cases he with
    | assign hr hvalue =>
      refine bind (evalExpr hcall value' hvalue hw henv) fun later v v' a a' hl hv ha => ?_
      refine bind (assign hv (henv.mono hl) hr _ _ ha) fun later' u u' _ _ hl' hu _ => ?_
      exact pure hu (ha.mono hl')
  | unary span' op operand' =>
    cases he with
    | unary op hoperand =>
      refine bind (evalExpr hcall operand' hoperand hw henv) fun later v v' a a' hl hv ha => ?_
      rw [← ha.alike.applyUnary]
      exact ofOperator hv _ _ fun _ => UnaryOp.isConstant_of_apply
  | binary span' op left' right' =>
    cases he with
    | binary op hleft hright =>
      refine bind (evalExpr hcall left' hleft hw henv) fun later v v' a a' hl hv ha => ?_
      have henv' := henv.mono hl
      refine bind (evalExpr hcall right' hright hv henv') fun later' u u' b b' hl' hu hb => ?_
      rw [← ha.alike.applyBinary hb.alike]
      exact ofOperator hu _ _ fun _ => BinaryOp.isConstant_of_apply
  | logical span' op left' right' =>
    cases he with
    | logical op hleft hright =>
      refine bind (evalExpr hcall left' hleft hw henv) fun later v v' a a' hl hv ha => ?_
      rw [← ha.alike.isSettledBy]
      split
      · exact pure hv ha
      · exact evalExpr hcall right' hright hv (henv.mono hl)
  | call span' callee' arguments' =>
    cases he with
    | call hcallee harguments =>
      refine bind (evalExpr hcall callee' hcallee hw henv) fun later v v' a a' hl hv ha => ?_
      have hargs := evalExprs hcall arguments' harguments hv (henv.mono hl)
      exact applyValue hcall _ _ hv ha (inside .arguments hv hargs)
  | group span' inner' =>
    cases he with
    | group hinner => exact evalExpr hcall inner' hinner hw henv

theorem evalExprs (hcall : CallsAgree wraps before call call') (es' : List ResolvedExpr)
    {es : List ResolvedExpr} {links : List Link} {w w' : World} (hes : ExprsMatch σ es es')
    (hw : WorldsMatch wraps before links w w') (henv : Aligned links σ env.frames env'.frames) :
    Agree wraps before links w w' (evalExprs call env es) (evalExprs call' env' es')
      (ValuesMatch wraps) := by
  cases es' with
  | nil =>
    cases hes
    exact pure hw .nil
  | cons e' es' =>
    cases hes with
    | cons he hes =>
      refine bind (evalExpr hcall e' he hw henv) fun later v v' a a' hl hv ha => ?_
      refine bind (evalExprs hcall es' hes hv (henv.mono hl)) fun later' u u' as as' hl' hu has => ?_
      exact pure hu (.cons (ha.mono hl') has)

end

theorem evalOptional (hcall : CallsAgree wraps before call call') {e e' : Option ResolvedExpr}
    (he : Option.Rel (ExprMatches σ) e e') (hw : WorldsMatch wraps before links w w')
    (henv : Aligned links σ env.frames env'.frames) :
    Agree wraps before links w w' (evalOptional call env e) (evalOptional call' env' e')
      (ValueMatches wraps) := by
  cases he with
  | none => exact pure hw (.constant ⟨.nil, rfl⟩)
  | some he => exact evalExpr hcall _ he hw henv

/-! ### Statements -/

theorem choose {condition condition' : Run Value} {m m' n n' : Run Completion}
    (hcondition : Agree wraps before links w w' condition condition' (ValueMatches wraps))
    (hthen : ∀ later v v', links ⊆ later → WorldsMatch wraps before later v v' →
      Agree wraps before later v v' m n (CompletionMatches wraps))
    (helse : ∀ later v v', links ⊆ later → WorldsMatch wraps before later v v' →
      Agree wraps before later v v' m' n' (CompletionMatches wraps)) :
    Agree wraps before links w w' (condition >>= fun a => if a.isTruthy then m else m')
      (condition' >>= fun b => if b.isTruthy then n else n') (CompletionMatches wraps) := by
  refine bind hcondition fun later v v' a b hl hv hab => ?_
  rw [← hab.alike.isTruthy]
  split
  · exact hthen later v v' hl hv
  · exact helse later v v' hl hv

theorem repeatWhile {condition condition' : Run Value} {body body' : Run Completion}
    (hcondition : ∀ {later : List Link} {v v' : World}, links ⊆ later →
      WorldsMatch wraps before later v v' →
        Agree wraps before later v v' condition condition' (ValueMatches wraps))
    (hbody : ∀ {later : List Link} {v v' : World}, links ⊆ later → WorldsMatch wraps before later v v' →
      Agree wraps before later v v' body body' (CompletionMatches wraps))
    (n : Nat) (hw : WorldsMatch wraps before links w w') :
    Agree wraps before links w w' (repeatWhile condition body n) (repeatWhile condition' body' n)
      (CompletionMatches wraps) := by
  induction n generalizing links w w' with
  | zero => exact of_stop rfl rfl .passesUsedUp hw
  | succ n ih =>
    refine choose (hcondition (List.Subset.refl links) hw) (fun later v v' hl hv => ?_)
      fun later v v' hl hv => pure hv .normal
    refine bind (hbody hl hv) fun later' u u' c c' hl' hu hc => ?_
    have hlater := List.Subset.trans hl hl'
    cases hc with
    | normal =>
      exact ih (fun h => hcondition (List.Subset.trans hlater h))
        (fun h => hbody (List.Subset.trans hlater h)) hu
    | returned hab => exact pure hu (.returned hab)

mutual

theorem execStmt (hcall : CallsAgree wraps before call call') (passes : Nat) (s' : ResolvedStmt)
    {s : ResolvedStmt} {σ : List Step} {env env' : Environment} {links : List Link} {w w' : World}
    (hs : StmtMatches wraps σ s s') (hw : WorldsMatch wraps before links w w')
    (henv : Aligned links σ env.frames env'.frames) :
    Agree wraps before links w w' (execStmt call passes env s) (execStmt call' passes env' s')
      (CompletionMatches wraps) := by
  -- a block that was put in is only on the second side, so each side is opened in its own case
  cases s' with
  | expression span' e' =>
    cases hs with
    | expression he =>
      unfold Lox.execStmt
      refine inside .expression hw ?_
      refine bind (evalExpr hcall e' he hw henv) fun later v v' a a' hl hv ha => ?_
      exact pure hv .normal
  | print span' e' =>
    cases hs with
    | print he =>
      unfold Lox.execStmt
      refine inside .print hw ?_
      refine bind (evalExpr hcall e' he hw henv) fun later v v' a a' hl hv ha => ?_
      rw [← ha.alike.text]
      refine bind (print hv a.text) fun later' u u' _ _ hl' hu _ => ?_
      exact pure hu .normal
  | varDecl span' name' e' =>
    cases hs with
    | varDecl name hπ he =>
      unfold Lox.execStmt
      refine inside .varDecl hw ?_
      refine bind (evalOptional hcall he hw henv) fun later v v' a a' hl hv ha => ?_
      refine bind (define hv (henv.mono hl) hπ name ha) fun later' u u' _ _ hl' hu _ => ?_
      exact pure hu .normal
  | block span' body' =>
    cases hs with
    | block π hbody =>
      unfold Lox.execStmt
      refine inside .block hw ?_
      refine enter π ?_
      have henv' := henv.mono (List.subset_cons_self ⟨w.store.size, w'.store.size, π⟩ links)
      exact execStmts hcall passes body' hbody (hw.alloc "block" "block" π)
        (.both List.mem_cons_self henv')
    | @wrapped _ _ _ s' hwraps hs =>
      -- the block that was put in takes no room and makes a frame which the first side does not have
      rw [Lox.execStmt]
      refine insideBlock hwraps (enterRight ?_)
      have henv' : Aligned links (.extra :: σ) env.frames (env'.child w'.store.size).frames :=
        .extra w'.store.size henv
      rw [execStmts_singleton]
      exact execStmt hcall passes s' hs (hw.allocRight "block") henv'
  | conditional span' c' t' e' =>
    cases hs with
    | ifThen hc ht =>
      unfold Lox.execStmt
      refine inside .conditional hw ?_
      exact choose (evalExpr hcall c' hc hw henv)
        (fun later v v' hl hv => execStmt hcall passes t' ht hv (henv.mono hl))
        fun later v v' hl hv => pure hv .normal
    | @ifElse _ _ _ _ _ _ _ _ e' hc ht he =>
      unfold Lox.execStmt
      refine inside .conditional hw ?_
      exact choose (evalExpr hcall c' hc hw henv)
        (fun later v v' hl hv => execStmt hcall passes t' ht hv (henv.mono hl))
        fun later v v' hl hv => execStmt hcall passes e' he hv (henv.mono hl)
  | loop span' c' b' =>
    cases hs with
    | loop hc hb =>
      unfold Lox.execStmt
      refine inside .loop hw ?_
      exact repeatWhile (fun hl hv => evalExpr hcall c' hc hv (henv.mono hl))
        (fun hl hv => execStmt hcall passes b' hb hv (henv.mono hl)) passes hw
  | funDecl span' name' params' body' =>
    cases hs with
    | funDecl ρ hπ hname hparams hbody =>
      unfold Lox.execStmt
      refine inside .funDecl hw ?_
      refine bind (newFunction hw (.closure rfl hparams hbody henv)) fun later v v' f f' hl hv hf => ?_
      have hdefine := define hv (henv.mono hl) hπ name' hf
      rw [hname] at hdefine
      refine bind hdefine fun later' u u' _ _ hl' hu _ => ?_
      exact pure hu .normal
  | ret span' e' =>
    cases hs with
    | ret he =>
      unfold Lox.execStmt
      refine inside .ret hw ?_
      refine bind (evalOptional hcall he hw henv) fun later v v' a a' hl hv ha => ?_
      exact pure hv (.returned ha)

theorem execStmts (hcall : CallsAgree wraps before call call') (passes : Nat)
    (ss' : List ResolvedStmt) {ss : List ResolvedStmt} {σ : List Step} {env env' : Environment}
    {links : List Link} {w w' : World} (hs : StmtsMatch wraps σ ss ss')
    (hw : WorldsMatch wraps before links w w') (henv : Aligned links σ env.frames env'.frames) :
    Agree wraps before links w w' (execStmts call passes env ss) (execStmts call' passes env' ss')
      (CompletionMatches wraps) := by
  cases ss' with
  | nil =>
    cases hs
    exact pure hw .normal
  | cons s' ss' =>
    cases hs with
    | cons hs hss =>
      refine bind (execStmt hcall passes s' hs hw henv) fun later v v' c c' hl hv hc => ?_
      cases hc with
      | normal => exact execStmts hcall passes ss' hss hv (henv.mono hl)
      | returned hab => exact pure hv (.returned hab)

end

/-! ### Calls -/

theorem callNative {host : Host} (hn : host.natives.Discreet) (name : String) {args args' : List Value}
    (span span' : Span) (hw : WorldsMatch wraps before links w w')
    (hargs : ValuesMatch wraps links args args') :
    Agree wraps before links w w' (callNative host name args span) (callNative host name args' span')
      (ValueMatches wraps) := by
  have hsame := hn.answer_congr name (host.clock w.nativeCalls) (hargs.imp fun _ _ h => h.alike)
  rw [hw.nativeCalls] at hsame
  cases hanswer : host.natives.answer name (host.clock w.nativeCalls) args with
  | ok a =>
    have hanswer' := hsame.symm.trans (hw.nativeCalls ▸ hanswer)
    exact of_ok (run_callNative_ok hanswer) (run_callNative_ok hanswer') hw.countNativeCall
      (.constant (hn.isConstant_of_answer hanswer))
  | error message =>
    have hanswer' := hsame.symm.trans (hw.nativeCalls ▸ hanswer)
    exact congr (run_callNative_error hanswer) (run_callNative_error hanswer')
      (fail _ span span' hw.countNativeCall)

theorem bindParams {π : Equiv.Perm String} (hπ : here? σ = some π) {params params' : List Parameter}
    {args args' : List Value} (hparams : ParamsMatch π params params')
    (hw : WorldsMatch wraps before links w w') (henv : Aligned links σ env.frames env'.frames)
    (hargs : ValuesMatch wraps links args args') :
    Agree wraps before links w w' (bindParams env params args) (bindParams env' params' args')
      fun _ _ _ => True := by
  induction hparams generalizing links w w' args args' with
  | nil => exact pure hw trivial
  | @cons p p' ps ps' hp _ ih =>
    cases hargs with
    | nil => exact pure hw trivial
    | cons hv hrest =>
      have hdefine := define hw henv hπ p.name hv
      rw [← hp] at hdefine
      refine bind hdefine fun later u u' _ _ hl hu _ => ?_
      exact ih hu (henv.mono hl) (hrest.imp fun _ _ h => h.mono hl)

theorem callClosure {host : Host} (hcall : CallsAgree wraps before call call') {c c' : Closure}
    {args args' : List Value} (hw : WorldsMatch wraps before links w w')
    (hc : CallableMatches wraps links (.closure c) (.closure c'))
    (hargs : ValuesMatch wraps links args args') :
    Agree wraps before links w w' (callClosure host call c args) (callClosure host call' c' args')
      (ValueMatches wraps) := by
  obtain ⟨⟩ | ⟨hname, hparams, hbody, henv⟩ := hc
  rename_i σ π
  refine enter π ?_
  let l : Link := ⟨w.store.size, w'.store.size, π⟩
  have hold : links ⊆ l :: links := List.subset_cons_self l links
  have hinner : Aligned (l :: links) (.both π :: σ) (c.env.child w.store.size).frames
      (c'.env.child w'.store.size).frames := .both List.mem_cons_self (henv.mono hold)
  have hbind := bindParams rfl hparams (hw.alloc c.name c'.name π) hinner
    (hargs.imp fun _ _ h => h.mono hold)
  refine bind hbind fun later u u' _ _ hl hu _ => ?_
  have hexec := execStmts hcall host.maxPasses c'.body hbody hu (hinner.mono hl)
  refine bind hexec fun later' v v' r r' hl' hv hr => ?_
  cases hr with
  | normal => exact pure hv (.constant ⟨.nil, rfl⟩)
  | returned hab => exact pure hv hab

theorem callWithin {host : Host} (hn : host.natives.Discreet) (calls : Nat) :
    CallsAgree wraps before (callWithin host calls) (callWithin host calls) := by
  induction calls with
  | zero => exact fun span span' hw _ _ => fail .stackOverflow span span' hw
  | succ calls ih =>
    intro links w w' f f' args args' span span' hw hf hargs
    refine calling span span' ?_
    cases f with
    | native name arity =>
      cases hf
      exact inside .native hw (callNative hn name span span' hw hargs)
    | closure c =>
      cases f' with
      | native => cases hf
      | closure c' => exact inside .body hw (callClosure ih hw hf hargs)

/-! ### Programs -/

theorem aligned_globals (links : List Link) :
    Aligned links [] (Environment.frames ⟨0, []⟩) (Environment.frames ⟨0, []⟩) := .globals

theorem execTopLevel {host : Host} (hn : host.natives.Discreet) {s s' : ResolvedStmt}
    (hs : StmtMatches wraps [] s s') (hw : WorldsMatch wraps before links w w') :
    Agree wraps before links w w' (execTopLevel host ⟨0, []⟩ s) (execTopLevel host ⟨0, []⟩ s')
      fun _ _ _ => True := by
  have hexec := execStmt (callWithin hn host.maxCallDepth) host.maxPasses s' hs hw (aligned_globals links)
  refine bind hexec fun later v v' c c' _ hv hc => ?_
  cases hc with
  | normal => exact pure hv trivial
  | returned => exact of_stop rfl rfl (.defect _ _) hv

theorem execProgram {host : Host} (hn : host.natives.Discreet) {ss ss' : List ResolvedStmt}
    (hs : ProgramsMatch wraps ss ss') (hw : WorldsMatch wraps before links w w') :
    Agree wraps before links w w' (execProgram host ⟨0, []⟩ ss) (execProgram host ⟨0, []⟩ ss')
      fun _ _ _ => True := by
  induction hs generalizing links w w' with
  | nil => exact pure hw trivial
  | @cons s s' ss ss' hs _ ih =>
    refine bind (blaming s.span s'.span (execTopLevel hn hs hw)) fun later v v' _ _ _ hv _ => ?_
    exact ih hv

end Agree

end Lox.Matching
