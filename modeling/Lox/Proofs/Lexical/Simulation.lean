import Lox.Proofs.Lexical.Agreement
import Mathlib.Data.List.Forall2

/-!
# Resolved statements agree with lexical scoping

By induction on the tree as it is written: what a resolved expression or statement does at a place agrees
with what the tree does in the lexical environment of that place. An accepted initializer does not read
the variable that it belongs to; where it assigns it, the slot is still empty and the run meets a defect.
-/

namespace Lox.Lexical

def CallsAgree (call : Lox.CallRule) (lcall : CallRule) : Prop :=
  ∀ {slots : List Slot} {w : Lox.World} {v : World} {f : Lox.Callable} {g : Callable}
    {args : List Lox.Value} {largs : List Value} (span : Span), Corresponds slots w v →
    CallableLike slots f g → List.Forall₂ (ValueLike slots) args largs → args.length = f.arity →
      Agree none slots w v (call f args span) (lcall g largs span) Alike

/-! ### References -/

/-- The references of an expression find their variables in both environments, but for assignments to
a variable without a value. -/
structure Finds (slots : List Slot) (w : Lox.World) (scopes : List (List String)) (env : Environment)
    (lenv : Env) (rs : List (Reference Unit)) : Prop where
  outermost : env.outermost = 0
  made : env.frame < w.store.size
  located : ∀ r ∈ rs, Located slots env lenv r.name (hopsIn r.name scopes) ∨
    (r.assigns = true ∧ hopsIn r.name scopes = some 0 ∧ env.frame ≠ 0 ∧ (env.frame, r.name) ∉ slots)

namespace Finds

variable {slots slots' : List Slot} {w w' : Lox.World} {scopes : List (List String)}
  {env : Environment} {lenv : Env} {rs ts : List (Reference Unit)}

theorem later (h : Finds slots w scopes env lenv rs) (hl : Later none slots slots' w w') :
    Finds slots' w' scopes env lenv rs := by
  obtain ⟨more, rfl, hmore⟩ := hl.added
  refine ⟨h.outermost, Nat.lt_of_lt_of_le h.made hl.grows, fun r hr => ?_⟩
  rcases h.located r hr with hloc | ⟨ha, hh, hne, hnew⟩
  · exact Or.inl hloc.mono
  · refine Or.inr ⟨ha, hh, hne, fun hs => ?_⟩
    rcases List.mem_append.mp hs with hs | hs
    · exact hnew hs
    · have hge := (hmore (env.frame, r.name) hs).resolve_left nofun
      exact absurd h.made (Nat.not_lt_of_le hge)

theorem left (h : Finds slots w scopes env lenv (rs ++ ts)) : Finds slots w scopes env lenv rs :=
  ⟨h.outermost, h.made, fun r hr => h.located r (List.mem_append_left ts hr)⟩

theorem right (h : Finds slots w scopes env lenv (rs ++ ts)) : Finds slots w scopes env lenv ts :=
  ⟨h.outermost, h.made, fun r hr => h.located r (List.mem_append_right rs hr)⟩

end Finds

theorem At.finds {slots : List Slot} {w : Lox.World} {scopes : List (List String)} {env : Environment}
    {lenv : Env} (h : At slots w scopes env lenv) (rs : List (Reference Unit)) :
    Finds slots w scopes env lenv rs :=
  ⟨h.sees.outermost, h.made, fun r _ => Or.inl (h.sees.located r.name)⟩

/-- In its own initializer a variable is in scope already, while the environment does not have it yet. -/
theorem At.finds_initializer {slots : List Slot} {w : Lox.World} {scopes : List (List String)}
    {env : Environment} {lenv : Env} (h : At slots w scopes env lenv) {name : String} {e : Expr Unit}
    (hreads : scopes ≠ [] → name ∉ e.reads) (hfree : FreeIn name scopes) :
    Finds slots w (extendScope [name] scopes) env lenv e.references := by
  refine ⟨h.sees.outermost, h.made, fun r hr => ?_⟩
  by_cases hx : r.name = name
  · by_cases hne : scopes = []
    · subst hne
      exact Or.inl (h.sees.located r.name)
    · have hassigns : r.assigns = true := by
        by_contra hn
        rw [Bool.not_eq_true] at hn
        exact hreads hne (hx ▸ Reference.mem_namesOf hr hn)
      rw [hx]
      exact Or.inr ⟨hassigns, hopsIn_extendScope_self name hne, h.frame_ne hne, h.not_mem hne hfree⟩
  · rw [hopsIn_extendScope_of_ne hx]
    exact Or.inl (h.sees.located r.name)

/-! ### Expressions -/

abbrev AlikeAll (slots : List Slot) (_ : Lox.World) (as : List Lox.Value) (bs : List Value) : Prop :=
  List.Forall₂ (ValueLike slots) as bs

theorem Later.valuesLike {own : Option FrameId} {slots slots' : List Slot} {w w' : Lox.World}
    (h : Later own slots slots' w w') {as : List Lox.Value} {bs : List Value}
    (hab : List.Forall₂ (ValueLike slots) as bs) : List.Forall₂ (ValueLike slots') as bs :=
  hab.imp fun _ _ => h.valueLike

theorem Later.callableLike {own : Option FrameId} {slots slots' : List Slot} {w w' : Lox.World}
    (h : Later own slots slots' w w') {f : Lox.Callable} {g : Callable} (hfg : CallableLike slots f g) :
    CallableLike slots' f g := by
  obtain ⟨more, rfl, -⟩ := h.added
  exact hfg.mono

namespace Agree

variable {slots : List Slot} {w : Lox.World} {v : World}

theorem ofOperator {own : Option FrameId} {span : Span} {r : Except RuntimeError Lox.Value}
    (hc : Corresponds slots w v) (hr : ∀ a, r = .ok a → a.IsConstant) :
    Agree own slots w v (Lox.Run.ofOperator span r) (Run.ofOperator span r) Alike := by
  cases r with
  | ok a => exact pure hc (valueLike_ofResult (hr a rfl) slots)
  | error e => exact fail e span hc

theorem applyValue {call : Lox.CallRule} {lcall : CallRule} (hcall : CallsAgree call lcall)
    {callee : Lox.Value} {lcallee : Value} {arguments : Lox.Run (List Lox.Value)}
    {larguments : Run (List Value)} {span : Span} (hc : Corresponds slots w v)
    (hf : ValueLike slots callee lcallee)
    (hargs : Agree none slots w v arguments larguments AlikeAll) :
    Agree none slots w v (Lox.applyValue call callee arguments span)
      (Lexical.applyValue lcall lcallee larguments span) Alike := by
  cases hf with
  | constant l => cases l <;> exact fail _ span hc
  | @function id f g hfg =>
    refine bind hargs fun slots' w' v' as bs hl hc' hab => ?_
    have hlen := hab.length_eq
    have hfg' := hl.callableLike hfg
    rw [← hlen, ← hfg.arity, ← hfg.name]
    split
    · exact hcall span hc' hfg' hab ‹_›
    · exact fail _ span hc'

mutual

theorem evalExpr {call : Lox.CallRule} {lcall : CallRule} (hcall : CallsAgree call lcall)
    (e : Expr Unit) {scopes : List (List String)} {env : Environment} {lenv : Env} {slots : List Slot}
    {w : Lox.World} {v : World} (hc : Corresponds slots w v)
    (hr : Finds slots w scopes env lenv e.references) :
    Agree none slots w v (Lox.evalExpr call env (e.annotate hopsLabel scopes))
      (Lexical.evalExpr lcall lenv e) Alike := by
  unfold Lox.evalExpr
  refine inside _ ?_
  cases e with
  | literal span l => exact pure hc (.constant l)
  | varRef span name ref =>
    have hn := hr.located ⟨false, name, span, ref⟩ List.mem_cons_self
    exact read hc hr.outermost (hn.resolve_right fun ho => nomatch ho.1)
  | assign span name ref value =>
    have hr : Finds slots w scopes env lenv ([⟨true, name, span, ref⟩] ++ value.references) := hr
    refine bind (evalExpr hcall value hc hr.right) fun slots' w' v' a b hl hc' hab => ?_
    have ht := hr.left.later hl
    have htarget := (ht.located ⟨true, name, span, ref⟩ List.mem_cons_self).imp_right And.right
    refine bind (assign hc' ht.outermost htarget hab) fun slots'' w'' v'' _ _ hl' hc'' _ => ?_
    exact pure hc'' (hl'.valueLike hab)
  | unary span op operand =>
    refine bind (evalExpr hcall operand hc hr) fun slots' w' v' a b hl hc' hab => ?_
    rw [← hab.outline, UnaryOp.apply_outline]
    exact ofOperator hc' fun _ => UnaryOp.isConstant_of_apply
  | binary span op left right =>
    have hr : Finds slots w scopes env lenv (left.references ++ right.references) := hr
    refine bind (evalExpr hcall left hc hr.left) fun slots' w' v' a b hl hc' hab => ?_
    refine bind (evalExpr hcall right hc' (hr.right.later hl)) fun slots'' w'' v'' a' b' hl' hc'' hab' => ?_
    rw [← hab.outline, ← hab'.outline, BinaryOp.apply_outline]
    exact ofOperator hc'' fun _ => BinaryOp.isConstant_of_apply
  | logical span op left right =>
    have hr : Finds slots w scopes env lenv (left.references ++ right.references) := hr
    refine bind (evalExpr hcall left hc hr.left) fun slots' w' v' a b hl hc' hab => ?_
    rw [← hab.outline, LogicalOp.isSettledBy_outline]
    split
    · exact pure hc' hab
    · exact evalExpr hcall right hc' (hr.right.later hl)
  | call span callee arguments =>
    have hr : Finds slots w scopes env lenv (callee.references ++ Expr.referencesAll arguments) := hr
    refine bind (evalExpr hcall callee hc hr.left) fun slots' w' v' a b hl hc' hab => ?_
    exact applyValue hcall hc' hab (inside .arguments (evalExprs hcall arguments hc' (hr.right.later hl)))
  | group span inner => exact evalExpr hcall inner hc hr

theorem evalExprs {call : Lox.CallRule} {lcall : CallRule} (hcall : CallsAgree call lcall)
    (es : List (Expr Unit)) {scopes : List (List String)} {env : Environment} {lenv : Env}
    {slots : List Slot} {w : Lox.World} {v : World} (hc : Corresponds slots w v)
    (hr : Finds slots w scopes env lenv (Expr.referencesAll es)) :
    Agree none slots w v (Lox.evalExprs call env (Expr.annotateAll hopsLabel scopes es))
      (Lexical.evalExprs lcall lenv es) AlikeAll := by
  cases es with
  | nil => exact pure hc .nil
  | cons e es =>
    have hr : Finds slots w scopes env lenv (e.references ++ Expr.referencesAll es) := hr
    refine bind (evalExpr hcall e hc hr.left) fun slots' w' v' a b hl hc' hab => ?_
    refine bind (evalExprs hcall es hc' (hr.right.later hl)) fun slots'' w'' v'' as bs hl' hc'' hs => ?_
    exact pure hc'' (.cons (hl'.valueLike hab) hs)

end

end Agree

/-! ### Statements -/

/-- What holds behind a statement on both sides: the place of the code after it, or values that are
alike. -/
inductive EndsAlike (scopes : List (List String)) (env : Environment) (slots : List Slot)
    (w : Lox.World) : Lox.Completion → Completion → Prop
  | normal {lenv : Env} (h : At slots w scopes env lenv) :
    EndsAlike scopes env slots w .normal (.normal lenv)
  | returned {a : Lox.Value} {b : Value} (h : ValueLike slots a b) :
    EndsAlike scopes env slots w (.returned a) (.returned b)

namespace Agree

variable {scopes : List (List String)} {env : Environment} {lenv : Env}

theorem branch {slots : List Slot} {w : Lox.World} {v : World} {m : Lox.Run Lox.Completion}
    {n : Run Completion} (h : Agree (some env.frame) slots w v m n (EndsAlike scopes env))
    (hs : Sees slots scopes env lenv) :
    Agree (some env.frame) slots w v m (Lexical.within lenv n) (EndsAlike scopes env) := by
  refine (h.within lenv).mono fun slots' w' c d hl hq => ?_
  obtain ⟨c', hends, rfl⟩ := hq
  cases hends with
  | normal hat => exact .normal ⟨hl.sees hs, hat.made, hat.holds⟩
  | returned hab => exact .returned hab

theorem evalOptional {call : Lox.CallRule} {lcall : CallRule} (hcall : CallsAgree call lcall)
    (e : Option (Expr Unit)) {slots : List Slot} {w : Lox.World} {v : World}
    (hc : Corresponds slots w v)
    (hr : ∀ e', e = some e' → Finds slots w scopes env lenv e'.references) :
    Agree none slots w v
      (Lox.evalOptional call env (e.map fun e => e.annotate hopsLabel scopes))
      (Lexical.evalOptional lcall lenv e) Alike := by
  cases e with
  | none => exact pure hc (.constant .nil)
  | some e => exact evalExpr hcall e hc (hr e rfl)

theorem choose {own : Option FrameId} {slots : List Slot} {w : Lox.World} {v : World}
    {condition : Lox.Run Lox.Value} {lcondition : Run Value} {m m' : Lox.Run Lox.Completion}
    {n n' : Run Completion} {Q : List Slot → Lox.World → Lox.Completion → Completion → Prop}
    (hcondition : Agree none slots w v condition lcondition Alike)
    (hthen : ∀ slots' w' v', Later none slots slots' w w' → Corresponds slots' w' v' →
      Agree own slots' w' v' m n Q)
    (helse : ∀ slots' w' v', Later none slots slots' w w' → Corresponds slots' w' v' →
      Agree own slots' w' v' m' n' Q) :
    Agree own slots w v (condition >>= fun a => if a.isTruthy then m else m')
      (lcondition >>= fun b => if b.outline.isTruthy then n else n') Q := by
  refine first hcondition fun slots' w' v' a b hl hc' hab => ?_
  rw [← hab.outline, Lox.Value.isTruthy_outline]
  split
  · exact hthen slots' w' v' hl hc'
  · exact helse slots' w' v' hl hc'

theorem repeatWhile {condition : Lox.Run Lox.Value} {lcondition : Run Value}
    {body : Lox.Run Lox.Completion} {lbody : Run Completion}
    (hcondition : ∀ {slots : List Slot} {w : Lox.World} {v : World}, Corresponds slots w v →
      At slots w scopes env lenv → Agree none slots w v condition lcondition Alike)
    (hbody : ∀ {slots : List Slot} {w : Lox.World} {v : World}, Corresponds slots w v →
      At slots w scopes env lenv →
        Agree (some env.frame) slots w v body lbody (EndsAlike scopes env))
    (n : Nat) {slots : List Slot} {w : Lox.World} {v : World} (hc : Corresponds slots w v)
    (hat : At slots w scopes env lenv) :
    Agree (some env.frame) slots w v (Lox.repeatWhile condition body n)
      (Lexical.repeatWhile lenv lcondition lbody n) (EndsAlike scopes env) := by
  induction n generalizing slots w v with
  | zero => exact of_stop rfl rfl hc
  | succ n ih =>
    refine choose (hcondition hc hat) (fun slots' w' v' hl hc' => ?_) fun slots' w' v' hl hc' =>
      pure hc' (.normal (hat.later hl))
    have hat' := hat.later hl
    refine bind (hbody hc' hat') fun slots'' w'' v'' c c' hl' hc'' hends => ?_
    cases hends with
    | normal hends => exact ih hc'' ⟨hl'.sees hat'.sees, hends.made, hends.holds⟩
    | returned hab => exact pure hc'' (.returned hab)

mutual

theorem execStmt {call : Lox.CallRule} {lcall : CallRule} (hcall : CallsAgree call lcall)
    (passes : Nat) (s : Stmt Unit) {scopes : List (List String)} {inFunction : Bool}
    {env : Environment} {lenv : Env} {slots : List Slot} {w : Lox.World} {v : World} (hp : s.Placed)
    (ha : s.Accepted false scopes inFunction) (hlocal : scopes = [] → s.declares = [])
    (hc : Corresponds slots w v) (hat : At slots w scopes env lenv) :
    Agree (some env.frame) slots w v (Lox.execStmt call passes env (s.annotate hopsLabel scopes))
      (Lexical.execStmt lcall passes lenv s) (EndsAlike (extendScope s.declares scopes) env) := by
  unfold Lox.execStmt
  refine inside _ ?_
  cases s with
  | expression span e =>
    refine first (evalExpr hcall e hc (hat.finds _)) fun slots' w' v' a b hl hc' _ => ?_
    exact pure hc' (.normal ((extendScope_nothing scopes).symm ▸ hat.later hl))
  | print span e =>
    refine first (evalExpr hcall e hc (hat.finds _)) fun slots' w' v' a b hl hc' hab => ?_
    rw [← hab.outline, Lox.Value.text_outline]
    refine first (print a.text hc') fun slots'' w'' v'' _ _ hl' hc'' _ => ?_
    exact pure hc'' (.normal ((extendScope_nothing scopes).symm ▸ (hat.later hl).later hl'))
  | varDecl span name initializer =>
    have hne : scopes ≠ [] := fun h => nomatch hlocal h
    have hfree : FreeIn name scopes := ha.1.resolve_left nofun
    -- the initializer is resolved with the name in scope, for which there is no cell yet
    have hinit : ∀ e, initializer = some e →
        Finds slots w (extendScope [name] scopes) env lenv e.references :=
      fun e he => hat.finds_initializer (ha.2 e he) hfree
    refine first (evalOptional hcall initializer hc hinit) fun slots' w' v' a b hl hc' hab => ?_
    refine bind (declare hc' (hat.later hl) hne hfree hab) fun _ _ _ _ lenv' _ hc'' hat'' => ?_
    exact pure hc'' (.normal hat'')
  | block span body =>
    -- what the block declares stays in its own frame, so the places around it are as before
    have hbody := execStmts hcall passes body hp ha (List.cons_ne_nil [] scopes) (hc.alloc "block")
      (hat.child hc "block")
    have hinside := enter (f := fun inner =>
      Lox.execStmts call passes inner (Stmt.annotateAll hopsLabel ([] :: scopes) body)) (hbody.within lenv)
    refine (hinside.mono fun slots' w' c d hl hq => ?_).weaken _
    obtain ⟨c', hends, rfl⟩ := hq
    cases hends with
    | normal => exact .normal ((extendScope_nothing scopes).symm ▸ hat.later hl)
    | returned hab => exact .returned hab
  | conditional span c t e =>
    rw [hp.extendScope_declares rfl]
    have hcondition := evalExpr hcall c hc (hat.finds _)
    cases e with
    | none =>
      obtain ⟨hd, hpt⟩ := hp
      refine choose hcondition (fun slots' w' v' hl hc' => ?_) fun slots' w' v' hl hc' =>
        pure hc' (.normal (hat.later hl))
      have ht := execStmt hcall passes t hpt ha (fun _ => hd) hc' (hat.later hl)
      rw [hd, extendScope_nothing] at ht
      exact ht.branch (hl.sees hat.sees)
    | some e =>
      obtain ⟨⟨hdt, hpt⟩, hde, hpe⟩ := hp
      obtain ⟨hat₁, hae⟩ := ha
      -- the first branch declares nothing, so the second one stands in the same scopes
      rw [hdt, extendScope_nothing] at hae
      rw [Stmt.annotate, hdt, extendScope_nothing]
      refine choose hcondition (fun slots' w' v' hl hc' => ?_) fun slots' w' v' hl hc' => ?_
      · have ht := execStmt hcall passes t hpt hat₁ (fun _ => hdt) hc' (hat.later hl)
        rw [hdt, extendScope_nothing] at ht
        exact ht.branch (hl.sees hat.sees)
      · have he := execStmt hcall passes e hpe hae (fun _ => hde) hc' (hat.later hl)
        rw [hde, extendScope_nothing] at he
        exact he.branch (hl.sees hat.sees)
  | loop span c b =>
    rw [hp.extendScope_declares rfl]
    obtain ⟨hd, hpb⟩ := hp
    refine repeatWhile (fun hc hat => evalExpr hcall c hc (hat.finds _)) (fun hc hat => ?_) passes hc hat
    have hb := execStmt hcall passes b hpb ha (fun _ => hd) hc hat
    rw [hd, extendScope_nothing] at hb
    exact hb
  | funDecl span name params body =>
    have hne : scopes ≠ [] := fun h => nomatch hlocal h
    have hfree : FreeIn name scopes := ha.1.resolve_left nofun
    have hdeclare := declareFunction hc hat hne hfree ha.2.1 hp ha.2.2
    have hboth := bind hdeclare fun _ _ _ _ lenv' _ hc' hat' =>
      pure (a := Lox.Completion.normal) (b := Completion.normal lenv') (Q := EndsAlike _ env) hc' (.normal hat')
    rw [bind_assoc] at hboth
    exact hboth
  | ret span value =>
    refine first (evalOptional hcall value hc fun e _ => hat.finds _) fun slots' w' v' a b _ hc' hab => ?_
    exact pure hc' (.returned hab)

theorem execStmts {call : Lox.CallRule} {lcall : CallRule} (hcall : CallsAgree call lcall)
    (passes : Nat) (ss : List (Stmt Unit)) {scopes : List (List String)} {inFunction : Bool}
    {env : Environment} {lenv : Env} {slots : List Slot} {w : Lox.World} {v : World}
    (hp : Stmt.PlacedAll ss) (ha : Stmt.AcceptedAll false scopes inFunction ss) (hne : scopes ≠ [])
    (hc : Corresponds slots w v) (hat : At slots w scopes env lenv) :
    Agree (some env.frame) slots w v
      (Lox.execStmts call passes env (Stmt.annotateAll hopsLabel scopes ss))
      (Lexical.execStmts lcall passes lenv ss)
      (EndsAlike (extendScope (Stmt.declaresAll ss) scopes) env) := by
  cases ss with
  | nil => exact pure hc (.normal ((extendScope_nothing scopes).symm ▸ hat))
  | cons s ss =>
    have hhead := execStmt hcall passes s hp.1 ha.1 (fun h => absurd h hne) hc hat
    refine bind hhead fun slots' w' v' c c' _ hc' hends => ?_
    cases hends with
    | normal hat' =>
      have hne' : extendScope s.declares scopes ≠ [] := fun h => hne (extendScope_eq_nil_iff.mp h)
      rw [Stmt.declaresAll, extendScope_append]
      exact execStmts hcall passes ss hp.2 ha.2 hne' hc' hat'
    | returned hab => exact pure hc' (.returned hab)

end

end Agree

end Lox.Lexical
