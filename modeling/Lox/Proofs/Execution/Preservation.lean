import Lox.Proofs.Execution.Safety

/-!
# Accepted statements are safe

By induction on the tree: an expression is safe where its references resolve, a statement where the
frames cover the scopes that it was resolved in. A call hands over to a body that was resolved in scopes
covered by the frames of its function, so calls are safe by induction on how many more may be in
progress.
-/

namespace Lox

variable {redeclare : Bool} {own : String → Prop}

def CallRule.Safe (redeclare : Bool) (own : String → Prop) (call : CallRule) : Prop :=
  ∀ {w : World} {f : Callable} {args : List Value} (span : Span), w.store.Sound redeclare own →
    f.Sound redeclare own w.store → (∀ v ∈ args, v.Sound redeclare own w.store) →
    args.length = f.arity → Lox.Safe redeclare own w (call f args span) (Value.SoundIn redeclare own)

/-! ### Expressions -/

def SoundAll (redeclare : Bool) (own : String → Prop) (vs : List Value) (w : World) : Prop :=
  ∀ v ∈ vs, v.SoundIn redeclare own w

namespace Safe

theorem applyValue {call : CallRule} (hcall : call.Safe redeclare own) {callee : Value}
    {arguments : Run (List Value)} {span : Span} {w : World} (hw : w.store.Sound redeclare own)
    (hf : callee.Sound redeclare own w.store)
    (hargs : Safe redeclare own w arguments (SoundAll redeclare own)) :
    Safe redeclare own w (applyValue call callee arguments span) (Value.SoundIn redeclare own) := by
  unfold Lox.applyValue
  split
  · refine bind hargs fun vs w' hw' hvs => ?_
    split
    · exact hcall span hw'.sound (Value.Sound.mono (v := .function _ _) hf hw'.grows) hvs ‹_›
    · exact fail _ span hw'.sound
  · exact fail _ span hw

mutual

theorem evalExpr {call : CallRule} (hcall : call.Safe redeclare own) (e : ResolvedExpr)
    {env : Environment} {w : World} (hw : w.store.Sound redeclare own)
    (hr : w.store.Resolves own env e.references) :
    Safe redeclare own w (evalExpr call env e) (Value.SoundIn redeclare own) := by
  unfold Lox.evalExpr
  refine inside _ hw ?_
  cases e with
  | literal span v => exact pure hw (Value.sound_ofLiteral w.store v)
  | varRef span name ref =>
    refine read hw fun hops hh => ?_
    have hn := hr ⟨false, name, span, ref⟩ List.mem_cons_self hops hh
    exact hn.resolve_right fun ho => nomatch ho.1
  | assign span name ref value =>
    have ⟨ht, hv⟩ := Store.resolves_append_iff.mp
      (show w.store.Resolves own env ([⟨true, name, span, ref⟩] ++ value.references) from hr)
    refine bind (evalExpr hcall value hw hv) fun v w' hw' hsound => ?_
    have htarget : ∀ hops, ref = some hops →
        w'.store.Holds env hops name ∨ (hops = 0 ∧ own name) := fun hops hh =>
      (ht.mono hw'.grows ⟨true, name, span, ref⟩ List.mem_cons_self hops hh).imp_right And.right
    exact bind (assign hw'.sound htarget hsound) fun _ w'' hw'' _ =>
      pure hw''.sound (hsound.mono hw''.grows)
  | unary span op operand =>
    exact bind (evalExpr hcall operand hw hr) fun v w' hw' _ =>
      ofOperator hw'.sound fun _ => UnaryOp.isConstant_of_apply
  | binary span op left right =>
    have ⟨hl, hr⟩ := Store.resolves_append_iff.mp hr
    refine bind (evalExpr hcall left hw hl) fun u w' hw' _ => ?_
    exact bind (evalExpr hcall right hw'.sound (hr.mono hw'.grows)) fun v w'' hw'' _ =>
      ofOperator hw''.sound fun _ => BinaryOp.isConstant_of_apply
  | logical span op left right =>
    have ⟨hl, hr⟩ := Store.resolves_append_iff.mp hr
    refine bind (evalExpr hcall left hw hl) fun v w' hw' hv => ?_
    split
    · exact pure hw'.sound hv
    · exact evalExpr hcall right hw'.sound (hr.mono hw'.grows)
  | call span callee arguments =>
    have ⟨hf, ha⟩ := Store.resolves_append_iff.mp hr
    refine bind (evalExpr hcall callee hw hf) fun f w' hw' hfun => ?_
    exact applyValue hcall hw'.sound hfun
      (inside _ hw'.sound (evalExprs hcall arguments hw'.sound (ha.mono hw'.grows)))
  | group span inner => exact evalExpr hcall inner hw hr

theorem evalExprs {call : CallRule} (hcall : call.Safe redeclare own) (es : List ResolvedExpr)
    {env : Environment} {w : World} (hw : w.store.Sound redeclare own)
    (hr : w.store.Resolves own env (Expr.referencesAll es)) :
    Safe redeclare own w (evalExprs call env es) (SoundAll redeclare own) := by
  cases es with
  | nil => exact pure hw fun v hv => nomatch hv
  | cons e es =>
    have ⟨he, hes⟩ := Store.resolves_append_iff.mp hr
    refine bind (evalExpr hcall e hw he) fun v w' hw' hv => ?_
    refine bind (evalExprs hcall es hw'.sound (hes.mono hw'.grows)) fun vs w'' hw'' hvs => ?_
    refine pure hw''.sound fun u hu => ?_
    rcases List.mem_cons.mp hu with rfl | hu
    · exact hv.mono hw''.grows
    · exact hvs u hu

end

end Safe

/-! ### References of accepted expressions -/

theorem Store.Covers.resolves {s : Store} {scopes : List (List String)} {env : Environment}
    (h : s.Covers scopes env) (e : Expr Unit) :
    s.Resolves own env (e.annotate hopsLabel scopes).references := by
  intro r hr hops hh
  rw [Expr.references_annotate] at hr
  obtain ⟨r, -, rfl⟩ := List.mem_map.mp hr
  exact Or.inl (h.2 r.name hops hh)

/-- In its own initializer a variable is in scope ahead of its value: an accepted initializer does not
read it there. -/
theorem Store.Covers.resolves_initializer {s : Store} {scopes : List (List String)}
    {env : Environment} (h : s.Covers scopes env) {name : String} {e : Expr Unit}
    (hreads : scopes ≠ [] → name ∉ e.reads) (hown : e.assignsOwn name scopes → own name) :
    s.Resolves own env (e.annotate hopsLabel (extendScope [name] scopes)).references := by
  intro r hr hops hh
  rw [Expr.references_annotate] at hr
  obtain ⟨r, hmem, rfl⟩ := List.mem_map.mp hr
  change hopsIn r.name (extendScope [name] scopes) = some hops at hh
  show s.Holds env hops r.name ∨ r.assigns = true ∧ hops = 0 ∧ own r.name
  by_cases hx : r.name = name
  · by_cases hfree : scopes ≠ [] ∧ FreeIn name scopes
    · obtain ⟨hne, hfree⟩ := hfree
      rw [hx, hopsIn_extendScope_self name hne] at hh
      obtain rfl := Option.some.inj hh
      have hassigns : r.assigns = true := by
        by_contra hn
        rw [Bool.not_eq_true] at hn
        exact hreads hne (hx ▸ Reference.mem_namesOf hmem hn)
      have hassigned : name ∈ e.assigned := hx ▸ Reference.mem_namesOf hmem hassigns
      exact Or.inr ⟨hassigns, rfl, hx ▸ hown ⟨hne, hfree, hassigned⟩⟩
    · -- the name is global or has a value from an earlier declaration in the same scope
      cases scopes with
      | nil => exact absurd hh (by simp [hopsIn_nil])
      | cons names scopes =>
        have hin : name ∈ names := by
          by_contra hin
          exact hfree ⟨List.cons_ne_nil names scopes, freeIn_cons_iff.mpr hin⟩
        rw [hx, hopsIn_extendScope_self name (List.cons_ne_nil names scopes)] at hh
        exact Or.inl (hx ▸ h.2 name hops (by rw [hopsIn_cons_of_mem hin, hh]))
  · rw [hopsIn_extendScope_of_ne hx] at hh
    exact Or.inl (h.2 r.name hops hh)

/-! ### Statements -/

/-- What holds behind a statement: the frames cover the scopes there, or a function returns a value. -/
def Completion.Sound (redeclare : Bool) (own : String → Prop) (inFunction : Bool)
    (scopes : List (List String)) (env : Environment) : Completion → World → Prop
  | .normal, w => w.store.Covers scopes env
  | .returned v, w => inFunction = true ∧ v.Sound redeclare own w.store

namespace Safe

theorem evalOptional {call : CallRule} (hcall : call.Safe redeclare own) {e : Option (Expr Unit)}
    {scopes : List (List String)} {env : Environment} {w : World} (hw : w.store.Sound redeclare own)
    (hr : ∀ e', e = some e' → w.store.Resolves own env (e'.annotate hopsLabel scopes).references) :
    Safe redeclare own w (evalOptional call env (e.map fun e => e.annotate hopsLabel scopes))
      (Value.SoundIn redeclare own) := by
  cases e with
  | none => exact pure hw trivial
  | some e => exact evalExpr hcall (e.annotate hopsLabel scopes) hw (hr e rfl)

theorem repeatWhile {condition : Run Value} {body : Run Completion} {inFunction : Bool}
    {scopes : List (List String)} {env : Environment}
    (hcondition : ∀ w : World, w.store.Sound redeclare own → w.store.Covers scopes env →
      Safe redeclare own w condition (Value.SoundIn redeclare own))
    (hbody : ∀ w : World, w.store.Sound redeclare own → w.store.Covers scopes env →
      Safe redeclare own w body (Completion.Sound redeclare own inFunction scopes env))
    (n : Nat) {w : World} (hw : w.store.Sound redeclare own) (hc : w.store.Covers scopes env) :
    Safe redeclare own w (repeatWhile condition body n)
      (Completion.Sound redeclare own inFunction scopes env) := by
  induction n generalizing w with
  | zero => exact of_error rfl hw trivial
  | succ n ih =>
    refine bind (hcondition w hw hc) fun v w' hw' _ => ?_
    have hc' := hc.mono hw'.grows
    split
    · refine bind (hbody w' hw'.sound hc') fun c w'' hw'' hq => ?_
      cases c with
      | normal => exact ih hw''.sound hq
      | returned u => exact pure hw''.sound hq
    · exact pure hw'.sound hc'

mutual

theorem execStmt {call : CallRule} (hcall : call.Safe redeclare own) (passes : Nat) (s : Stmt Unit)
    {scopes : List (List String)} {inFunction : Bool} {env : Environment} {w : World}
    (hp : s.Placed) (ha : s.Accepted redeclare scopes inFunction)
    (hs : ∀ x, s.SelfAssigns x scopes → own x) (hw : w.store.Sound redeclare own)
    (hc : w.store.Covers scopes env) :
    Safe redeclare own w (execStmt call passes env (s.annotate hopsLabel scopes))
      (Completion.Sound redeclare own inFunction (extendScope s.declares scopes) env) := by
  unfold Lox.execStmt
  refine inside _ hw ?_
  cases s with
  | expression span e =>
    refine bind (evalExpr hcall _ hw (hc.resolves e)) fun v w' hw' _ => pure hw'.sound ?_
    exact (extendScope_nothing scopes).symm ▸ hc.mono hw'.grows
  | print span e =>
    refine bind (evalExpr hcall _ hw (hc.resolves e)) fun v w' hw' _ => ?_
    refine bind (print hw'.sound) fun _ w'' hw'' _ => pure hw''.sound ?_
    exact (extendScope_nothing scopes).symm ▸ (hc.mono hw'.grows).mono hw''.grows
  | varDecl span name initializer =>
    have hinit : ∀ e, initializer = some e →
        w.store.Resolves own env (e.annotate hopsLabel (extendScope [name] scopes)).references :=
      fun e he => hc.resolves_initializer (ha.2 e he) fun ho => hs name ⟨rfl, e, he, ho⟩
    refine bind (evalOptional hcall hw hinit) fun v w' hw' hv => ?_
    have hc' := hc.mono hw'.grows
    refine bind (define hw'.sound hc' (hv.mono (Store.grows_define hc'.1 name v))) fun _ w'' hw'' hq => ?_
    exact pure hw''.sound hq
  | block span body =>
    refine bind (enter "block" hw hc) fun inner w' hw' hc' => ?_
    refine (execStmts hcall passes body hp ha hs hw'.sound hc').mono fun c w'' hw'' hq => ?_
    cases c with
    | normal =>
      have hf := hw'.grows.trans hw''.grows
      exact (extendScope_nothing scopes).symm ▸ hc.mono hf
    | returned v => exact hq
  | conditional span c t e =>
    rw [hp.extendScope_declares rfl]
    have hcondition := evalExpr hcall _ hw (hc.resolves c)
    cases e with
    | none =>
      obtain ⟨hd, hpt⟩ := hp
      refine bind hcondition fun v w' hw' _ => ?_
      have hc' := hc.mono hw'.grows
      split
      · have ht := execStmt hcall passes t hpt ha hs hw'.sound hc'
        rw [hd, extendScope_nothing] at ht
        exact ht
      · exact pure hw'.sound hc'
    | some e =>
      obtain ⟨⟨hdt, hpt⟩, hde, hpe⟩ := hp
      obtain ⟨hat, hae⟩ := ha
      have hse : ∀ x, e.SelfAssigns x scopes → own x := fun x hx =>
        hs x (Or.inr (by rwa [hdt, extendScope_nothing]))
      -- the first branch declares nothing, so the second one stands in the same scopes
      rw [hdt, extendScope_nothing] at hae
      rw [Stmt.annotate, hdt, extendScope_nothing]
      refine bind hcondition fun v w' hw' _ => ?_
      have hc' := hc.mono hw'.grows
      split
      · have ht := execStmt hcall passes t hpt hat (fun x hx => hs x (Or.inl hx)) hw'.sound hc'
        rw [hdt, extendScope_nothing] at ht
        exact ht
      · have he := execStmt hcall passes e hpe hae hse hw'.sound hc'
        rw [hde, extendScope_nothing] at he
        exact he
  | loop span c b =>
    rw [hp.extendScope_declares rfl]
    obtain ⟨hd, hpb⟩ := hp
    refine repeatWhile (fun w hw hc => evalExpr hcall _ hw (hc.resolves c)) (fun w hw hc => ?_)
      passes hw hc
    have hb := execStmt hcall passes b hpb ha hs hw hc
    rw [hd, extendScope_nothing] at hb
    exact hb
  | funDecl span name params body =>
    refine bind (newFunction hw) fun f w' hw' hf => ?_
    obtain ⟨hstore, id, rfl⟩ := hf
    have hc' := hc.mono hw'.grows
    -- the function is in scope in its own body, so it is sound once it is defined
    have hsound : ∀ u, Value.Sound redeclare own (w'.store.define env.frame name u)
        (.function id (.closure ⟨name, params,
          Stmt.annotateAll hopsLabel (paramNames params :: extendScope [name] scopes) body, env⟩)) :=
      fun u => ⟨extendScope [name] scopes, body, rfl, hp, ha.2.2, hs, hc'.define name u⟩
    exact bind (define hw'.sound hc' (hsound _)) fun _ w'' hw'' hq => pure hw''.sound hq
  | ret span value =>
    refine bind (evalOptional hcall hw fun e _ => hc.resolves e) fun v w' hw' hv => ?_
    exact pure hw'.sound ⟨ha, hv⟩

theorem execStmts {call : CallRule} (hcall : call.Safe redeclare own) (passes : Nat)
    (ss : List (Stmt Unit)) {scopes : List (List String)} {inFunction : Bool} {env : Environment}
    {w : World} (hp : Stmt.PlacedAll ss) (ha : Stmt.AcceptedAll redeclare scopes inFunction ss)
    (hs : ∀ x, Stmt.SelfAssignsAll x scopes ss → own x) (hw : w.store.Sound redeclare own)
    (hc : w.store.Covers scopes env) :
    Safe redeclare own w (execStmts call passes env (Stmt.annotateAll hopsLabel scopes ss))
      (Completion.Sound redeclare own inFunction (extendScope (Stmt.declaresAll ss) scopes) env) := by
  cases ss with
  | nil => exact pure hw ((extendScope_nothing scopes).symm ▸ hc)
  | cons s ss =>
    have hhead := execStmt hcall passes s hp.1 ha.1 (fun x hx => hs x (Or.inl hx)) hw hc
    refine bind hhead fun c w' hw' hq => ?_
    cases c with
    | normal =>
      rw [Stmt.declaresAll, extendScope_append]
      exact execStmts hcall passes ss hp.2 ha.2 (fun x hx => hs x (Or.inr hx)) hw'.sound hq
    | returned v => exact pure hw'.sound hq

end

end Safe

end Lox
