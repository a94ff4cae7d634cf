import Lox.Proofs.Execution.Origins
import Lox.Proofs.Syntax.TreePlaces

/-!
# Where runtime errors are

An error of a running program is put at a place of the statements that are run or of the body of a function
that is called, so at a place of a known declaration, which need not belong to the program that is run.
-/

namespace Lox

variable {α β ρ : Type}

/-! ### Places of functions -/

mutual

theorem Stmt.places_of_functions {s : Stmt ρ} {d : Declaration ρ} (hd : d ∈ s.functions) :
    Stmt.placesAll d.body ⊆ s.places := by
  cases s with
  | expression | print | varDecl | ret => exact absurd hd List.not_mem_nil
  | block span body => exact List.subset_cons_of_subset _ (Stmt.placesAll_of_functions hd)
  | conditional span c t e =>
    cases e with
    | none =>
      have ht : d ∈ t.functions := hd
      exact List.subset_cons_of_subset _
        (List.subset_append_of_subset_right _ (Stmt.places_of_functions ht))
    | some e =>
      refine List.subset_cons_of_subset _ (List.subset_append_of_subset_right _ ?_)
      rcases List.mem_append.mp hd with hd | hd
      · exact List.subset_append_of_subset_left _ (Stmt.places_of_functions hd)
      · exact List.subset_append_of_subset_right _ (Stmt.places_of_functions hd)
  | loop span c b =>
    have hb : d ∈ b.functions := hd
    exact List.subset_cons_of_subset _
      (List.subset_append_of_subset_right _ (Stmt.places_of_functions hb))
  | funDecl span name params body =>
    refine List.subset_cons_of_subset _ (List.subset_append_of_subset_right _ ?_)
    rcases List.mem_cons.mp hd with rfl | hd
    · exact List.Subset.refl _
    · exact Stmt.placesAll_of_functions hd

theorem Stmt.placesAll_of_functions {ss : List (Stmt ρ)} {d : Declaration ρ}
    (hd : d ∈ Stmt.functionsAll ss) : Stmt.placesAll d.body ⊆ Stmt.placesAll ss := by
  cases ss with
  | nil => exact absurd hd List.not_mem_nil
  | cons s ss =>
    rcases List.mem_append.mp hd with hd | hd
    · exact List.subset_append_of_subset_left _ (Stmt.places_of_functions hd)
    · exact List.subset_append_of_subset_right _ (Stmt.placesAll_of_functions hd)

end

/-! ### Runs -/

namespace Origin

variable {O : Origin} {place : Span → Prop}

/-- From a store whose functions are of the origin, every error of the program is at a place as said, if it
would be where there is no room. -/
def Blames (O : Origin) (place : Span → Prop) (m : Run α) : Prop :=
  ∀ room, place room.blame → ∀ w, O.Holds w.store → ∀ e span v,
    m.run room w = .error (.error e span) v → place span

namespace Blames

theorem of_ok {m : Run α} {a : World → α} {f : World → World}
    (h : ∀ room w, m.run room w = .ok (a w) (f w)) : O.Blames place m := by
  intro room _ w _ e span v hrun
  rw [h room w] at hrun
  cases hrun

theorem pure (a : α) : O.Blames place (Pure.pure a) := of_ok fun _ _ => rfl

theorem inside {m : Run α} (a : Activity) (hm : O.Blames place m) : O.Blames place (Run.inside a m) := by
  intro room hroom w hw e span v hrun
  rcases Run.inside_cases a m room w with h | h
  · rw [h] at hrun
    exact hm (room.inside a) hroom w hw e span v hrun
  · rw [h] at hrun
    cases hrun
    exact hroom

theorem blaming {m : Run α} {span : Span} (h : place span) (hm : O.Blames place m) :
    O.Blames place (Run.blaming span m) := fun room _ => hm (room.blaming span) h

theorem calling {m : Run α} {span : Span} (h : place span) (hm : O.Blames place m) :
    O.Blames place (Run.calling span m) := by
  intro room hroom
  refine hm (room.calling span) ?_
  unfold Room.calling
  split
  · exact h
  · exact hroom

theorem fail {e : RuntimeError} {span : Span} (h : place span) :
    O.Blames place (Run.fail e span : Run α) := by
  refine inside .report fun room _ w _ e' span' v hrun => ?_
  cases hrun
  exact h

theorem bind {m : Run α} {f : α → Run β} {Q : α → Prop} (hk : O.Keeps m Q) (hm : O.Blames place m)
    (hf : ∀ a, Q a → O.Blames place (f a)) : O.Blames place (m >>= f) := by
  intro room hroom w hw e span v hrun
  have hkept := hk room w hw
  cases h : m.run room w with
  | ok a u =>
    rw [h] at hkept
    rw [run_bind_ok f h] at hrun
    exact hf a hkept.2 room hroom u hkept.1 e span v hrun
  | error stop u =>
    rw [run_bind_error f h] at hrun
    cases hrun
    exact hm room hroom w hw e span v h

/-! ### Names and operators -/

theorem read (env : Environment) (name : String) (ref : Option Nat) {span : Span} (h : place span) :
    O.Blames place (Run.read env name ref span) := by
  intro room hroom w hw e span' v hrun
  rcases Run.read_cases w env name ref span with ⟨_, -, _, -, hread⟩ | ⟨d, hread⟩ | ⟨-, -, hread⟩
  · rw [hread] at hrun
    cases hrun
  · rw [hread] at hrun
    cases hrun
  · rw [hread] at hrun
    exact fail h room hroom w hw e span' v hrun

theorem assign (env : Environment) (name : String) (ref : Option Nat) {span : Span} (u : Value)
    (h : place span) : O.Blames place (Run.assign env name ref span u) := by
  intro room hroom w hw e span' v hrun
  rcases Run.assign_cases w env name ref span u with ⟨_, -, hassign⟩ | ⟨d, hassign⟩ | ⟨-, -, hassign⟩
  · rw [hassign] at hrun
    cases hrun
  · rw [hassign] at hrun
    cases hrun
  · rw [hassign] at hrun
    exact fail h room hroom w hw e span' v hrun

theorem define (env : Environment) (name : String) (v : Value) :
    O.Blames place (Run.define env name v) := of_ok fun _ _ => rfl

theorem enter (env : Environment) (name : String) : O.Blames place (Run.enter env name) :=
  of_ok fun _ _ => rfl

theorem ofOperator {span : Span} (h : place span) (r : Except RuntimeError α) :
    O.Blames place (Run.ofOperator span r) := by
  cases r with
  | ok a => exact pure a
  | error e => exact fail h

end Blames

/-! ### Expressions -/

/-- A call keeps functions to the origin, and where it fails it is blamed on its own place or another one as
said. -/
structure Calls (O : Origin) (place : Span → Prop) (call : CallRule) : Prop where
  rules : O.Rules call
  blames : ∀ (id : Nat) (f : Callable) (args : List Value) (span : Span), O.Admits (.function id f) →
    (∀ v ∈ args, O.Admits v) → place span → O.Blames place (call f args span)

namespace Blames

variable {call : CallRule}

theorem applyValue (hcall : O.Calls place call) {callee : Value} {arguments : Run (List Value)}
    {span : Span} (hspan : place span) (hf : O.Admits callee)
    (hkept : O.Keeps arguments fun vs => ∀ v ∈ vs, O.Admits v) (hargs : O.Blames place arguments) :
    O.Blames place (applyValue call callee arguments span) := by
  cases callee with
  | function id f =>
    refine bind hkept hargs fun vs hvs => ?_
    split
    · exact hcall.blames id f vs span hf hvs hspan
    · exact fail hspan
  | _ => exact fail hspan

mutual

theorem evalExpr (hcall : O.Calls place call) (env : Environment) (e : ResolvedExpr)
    (he : ∀ s ∈ e.places, place s) : O.Blames place (evalExpr call env e) := by
  have hkept (e : ResolvedExpr) := Keeps.evalExpr hcall.rules env e
  unfold Lox.evalExpr
  refine inside _ ?_
  cases e with
  | literal span v => exact pure _
  | varRef span name ref => exact read env name ref (he _ List.mem_cons_self)
  | assign span name ref value =>
    obtain ⟨hspan, hvalue⟩ := List.forall_mem_cons.mp he
    refine bind (hkept value) (evalExpr hcall env value hvalue) fun v hv => ?_
    exact bind (Keeps.assign env name ref span hv) (assign env name ref v hspan) fun _ _ => pure v
  | unary span op operand =>
    obtain ⟨hspan, hoperand⟩ := List.forall_mem_cons.mp he
    exact bind (hkept operand) (evalExpr hcall env operand hoperand) fun v _ => ofOperator hspan _
  | binary span op left right =>
    obtain ⟨hspan, hparts⟩ := List.forall_mem_cons.mp he
    obtain ⟨hleft, hright⟩ := List.forall_mem_append.mp hparts
    refine bind (hkept left) (evalExpr hcall env left hleft) fun v _ => ?_
    exact bind (hkept right) (evalExpr hcall env right hright) fun u _ => ofOperator hspan _
  | logical span op left right =>
    obtain ⟨hleft, hright⟩ := List.forall_mem_append.mp (List.forall_mem_cons.mp he).2
    refine bind (hkept left) (evalExpr hcall env left hleft) fun v _ => ?_
    split
    · exact pure v
    · exact evalExpr hcall env right hright
  | call span callee arguments =>
    obtain ⟨hspan, hparts⟩ := List.forall_mem_cons.mp he
    obtain ⟨hcallee, hargs⟩ := List.forall_mem_append.mp hparts
    refine bind (hkept callee) (evalExpr hcall env callee hcallee) fun f hf => ?_
    exact applyValue hcall hspan hf (Keeps.inside _ (Keeps.evalExprs hcall.rules env arguments))
      (inside _ (evalExprs hcall env arguments hargs))
  | group span inner => exact evalExpr hcall env inner (List.forall_mem_cons.mp he).2

theorem evalExprs (hcall : O.Calls place call) (env : Environment) (es : List ResolvedExpr)
    (hes : ∀ s ∈ Expr.placesAll es, place s) : O.Blames place (evalExprs call env es) := by
  cases es with
  | nil => exact pure _
  | cons e es =>
    obtain ⟨he, hes⟩ := List.forall_mem_append.mp hes
    refine bind (Keeps.evalExpr hcall.rules env e) (evalExpr hcall env e he) fun v _ => ?_
    exact bind (Keeps.evalExprs hcall.rules env es) (evalExprs hcall env es hes) fun vs _ => pure _

end

/-! ### Statements -/

theorem repeatWhile {condition : Run Value} {body : Run Completion} {Q : Value → Prop}
    (hkc : O.Keeps condition Q) (hc : O.Blames place condition) (hkb : O.Keeps body O.Completes)
    (hb : O.Blames place body) (n : Nat) : O.Blames place (repeatWhile condition body n) := by
  induction n with
  | zero => exact fun _ _ _ _ _ _ _ hrun => by cases hrun
  | succ n ih =>
    refine bind hkc hc fun v _ => ?_
    split
    · refine bind hkb hb fun c _ => ?_
      cases c with
      | normal => exact ih
      | returned v => exact pure _
    · exact pure _

mutual

theorem execStmt (hcall : O.Calls place call) (passes : Nat) {env : Environment}
    (henv : env.outermost = O.root) (s : ResolvedStmt) (hs : ∀ d ∈ s.functions, O.known d)
    (hplaces : ∀ p ∈ s.places, place p) : O.Blames place (execStmt call passes env s) := by
  have hkept (e : ResolvedExpr) := Keeps.evalExpr hcall.rules env e
  unfold Lox.execStmt
  refine inside _ ?_
  cases s with
  | expression span e =>
    have he := evalExpr hcall env e (List.forall_mem_cons.mp hplaces).2
    exact bind (hkept e) he fun _ _ => pure _
  | print span e =>
    have he := evalExpr hcall env e (List.forall_mem_cons.mp hplaces).2
    refine bind (hkept e) he fun v _ => ?_
    exact bind (Keeps.print v.text) (of_ok fun _ _ => rfl) fun _ _ => pure _
  | varDecl span name e =>
    have he : O.Blames place (evalOptional call env e) := by
      cases e with
      | none => exact pure _
      | some e => exact evalExpr hcall env e (List.forall_mem_cons.mp hplaces).2
    refine bind (Keeps.evalOptional hcall.rules env e) he fun v hv => ?_
    exact bind (Keeps.define env name hv) (define env name v) fun _ _ => pure _
  | block span body =>
    refine bind (Keeps.enter "block" henv) (enter env "block") fun inner hinner => ?_
    exact execStmts hcall passes hinner body hs (List.forall_mem_cons.mp hplaces).2
  | conditional span c t f =>
    cases f with
    | none =>
      obtain ⟨hc, ht⟩ := List.forall_mem_append.mp (List.forall_mem_cons.mp hplaces).2
      refine bind (hkept c) (evalExpr hcall env c hc) fun v _ => ?_
      split
      · exact execStmt hcall passes henv t hs ht
      · exact pure _
    | some f =>
      obtain ⟨hc, hbranches⟩ := List.forall_mem_append.mp (List.forall_mem_cons.mp hplaces).2
      obtain ⟨ht, hf⟩ := List.forall_mem_append.mp hbranches
      obtain ⟨hknown, hknown'⟩ := List.forall_mem_append.mp hs
      refine bind (hkept c) (evalExpr hcall env c hc) fun v _ => ?_
      split
      · exact execStmt hcall passes henv t hknown ht
      · exact execStmt hcall passes henv f hknown' hf
  | loop span c b =>
    obtain ⟨hc, hb⟩ := List.forall_mem_append.mp (List.forall_mem_cons.mp hplaces).2
    exact repeatWhile (hkept c) (evalExpr hcall env c hc)
      (Keeps.execStmt hcall.rules passes henv b hs) (execStmt hcall passes henv b hs hb) passes
  | funDecl span name params body =>
    refine bind (Keeps.newFunction henv (hs _ List.mem_cons_self)) (of_ok fun _ _ => rfl) fun f hf => ?_
    exact bind (Keeps.define env name hf) (define env name f) fun _ _ => pure _
  | ret span e =>
    cases e with
    | none => exact pure _
    | some e =>
      have he := evalExpr hcall env e (List.forall_mem_cons.mp hplaces).2
      exact bind (hkept e) he fun _ _ => pure _

theorem execStmts (hcall : O.Calls place call) (passes : Nat) {env : Environment}
    (henv : env.outermost = O.root) (ss : List ResolvedStmt) (hs : ∀ d ∈ Stmt.functionsAll ss, O.known d)
    (hplaces : ∀ p ∈ Stmt.placesAll ss, place p) : O.Blames place (execStmts call passes env ss) := by
  cases ss with
  | nil => exact pure _
  | cons s ss =>
    obtain ⟨hhead, htail⟩ := List.forall_mem_append.mp hs
    obtain ⟨hfirst, hrest⟩ := List.forall_mem_append.mp hplaces
    have hkept := Keeps.execStmt hcall.rules passes henv s hhead
    refine bind hkept (execStmt hcall passes henv s hhead hfirst) fun c _ => ?_
    cases c with
    | normal => exact execStmts hcall passes henv ss htail hrest
    | returned v => exact pure _

end

/-! ### Calls and programs -/

variable {host : Host} {env : Environment}

theorem callNative (name : String) (args : List Value) {span : Span} (h : place span) :
    O.Blames place (callNative host name args span) := by
  intro room hroom w hw e span' v hrun
  cases hanswer : host.natives.answer name (host.clock w.nativeCalls) args with
  | ok v =>
    rw [run_callNative_ok hanswer] at hrun
    cases hrun
  | error message =>
    rw [run_callNative_error hanswer] at hrun
    exact fail h room hroom { w with nativeCalls := w.nativeCalls + 1 } hw e span' v hrun

theorem bindParams (env : Environment) (params : List Parameter) {args : List Value}
    (hargs : ∀ v ∈ args, O.Admits v) : O.Blames place (bindParams env params args) := by
  induction params generalizing args with
  | nil => exact pure _
  | cons p ps ih =>
    cases args with
    | nil => exact pure _
    | cons v vs =>
      obtain ⟨hv, hvs⟩ := List.forall_mem_cons.mp hargs
      exact bind (Keeps.define env p.name hv) (define env p.name v) fun _ _ => ih hvs

section

variable (hbodies : ∀ d, O.known d → ∀ p ∈ Stmt.placesAll d.body, place p)

include hbodies

theorem callClosure (hcall : O.Calls place call) {c : Closure} {args : List Value}
    (henv : c.env.outermost = O.root) (hknown : O.known c.declaration) (hargs : ∀ v ∈ args, O.Admits v) :
    O.Blames place (callClosure host call c args) := by
  refine bind (Keeps.enter c.name henv) (enter c.env c.name) fun env hinner => ?_
  have hparams := Keeps.bindParams env c.params hargs
  refine bind hparams (bindParams env c.params hargs) fun _ _ => ?_
  have hfunctions : ∀ d ∈ Stmt.functionsAll c.body, O.known d := fun d => O.nested hknown
  refine bind (Keeps.execStmts hcall.rules host.maxPasses hinner c.body hfunctions) ?_ fun r _ => ?_
  · exact execStmts hcall host.maxPasses hinner c.body hfunctions (hbodies _ hknown)
  · cases r <;> exact pure _

theorem callWithin (hn : host.natives.ReturnsGiven) (calls : Nat) :
    O.Calls place (callWithin host calls) := by
  -- On the calls that are left: a body is run by the rule for one call less.
  induction calls with
  | zero => exact ⟨Keeps.callWithin hn 0, fun _ _ _ _ _ _ hspan => fail hspan⟩
  | succ calls ih =>
    refine ⟨Keeps.callWithin hn (calls + 1), fun id f args span hf hargs hspan => ?_⟩
    cases f with
    | native name arity => exact calling hspan (inside _ (callNative name args hspan))
    | closure c => exact calling hspan (inside _ (callClosure hbodies ih hf.1 hf.2 hargs))

theorem execTopLevel (hn : host.natives.ReturnsGiven) (henv : env.outermost = O.root) (s : ResolvedStmt)
    (hs : ∀ d ∈ s.functions, O.known d) (hplaces : ∀ p ∈ s.places, place p) :
    O.Blames place (execTopLevel host env s) := by
  have hcall : O.Calls place (Lox.callWithin host host.maxCallDepth) := callWithin hbodies hn _
  have hkept := Keeps.execStmt hcall.rules host.maxPasses henv s hs
  refine bind hkept (execStmt hcall host.maxPasses henv s hs hplaces) fun c _ => ?_
  cases c with
  | normal => exact pure _
  | returned v => exact fun _ _ _ _ _ _ _ hrun => by cases hrun

/-- Errors of a program are at its own places or in the bodies of functions that are known already. Every
statement is told about in its own place, so it does not matter which one was told about before. -/
theorem place_of_execProgram (hn : host.natives.ReturnsGiven) (henv : env.outermost = O.root)
    {ss : List ResolvedStmt} (hs : ∀ d ∈ Stmt.functionsAll ss, O.known d)
    (hplaces : ∀ p ∈ Stmt.placesAll ss, place p) {room : Room} {w v : World} (hw : O.Holds w.store)
    {e : RuntimeError} {span : Span}
    (hrun : (execProgram host env ss).run room w = .error (.error e span) v) : place span := by
  induction ss generalizing w with
  | nil => cases hrun
  | cons s ss ih =>
    obtain ⟨hhead, htail⟩ := List.forall_mem_append.mp hs
    obtain ⟨hfirst, hrest⟩ := List.forall_mem_append.mp hplaces
    let first := Run.blaming s.span (Lox.execTopLevel host env s)
    let rest := fun _ : Unit => Lox.execProgram host env ss
    have hkept := Keeps.blaming s.span (Keeps.execTopLevel hn henv s hhead) room w hw
    have hspan : place s.span := hplaces _ (List.mem_append_left _ s.span_mem_places)
    have hfails := execTopLevel hbodies hn henv s hhead hfirst (room.blaming s.span) hspan w hw
    have hprogram : Lox.execProgram host env (s :: ss) = first >>= rest := rfl
    rw [hprogram] at hrun
    cases h : first.run room w with
    | ok a u =>
      rw [show (Run.blaming s.span _).run room w = _ from h] at hkept
      rw [run_bind_ok rest h] at hrun
      exact ih htail hrest hkept.1 hrun
    | error stop u =>
      rw [run_bind_error rest h] at hrun
      cases hrun
      exact hfails e span v h

end

end Blames

end Origin

end Lox
