import Lox.Proofs.Execution.Discipline

/-!
# Where functions come from

Evaluation makes a function from a declaration in the statements that it runs and from the environment
that it runs them in. So if all functions of a world come from known declarations, with those declared
inside them, and have captured environments with the same outermost frame, this stays so.
-/

namespace Lox

variable {α β ρ : Type}

/-! ### Declared functions -/

/-- A function as it is declared, without its environment. -/
structure Declaration (ρ : Type) where
  name : String
  params : List Parameter
  body : List (Stmt ρ)

mutual

/-- The functions that are declared in a statement, also inside one another. -/
def Stmt.functions : Stmt ρ → List (Declaration ρ)
  | .expression _ _ | .print _ _ | .varDecl _ _ _ | .ret _ _ => []
  | .block _ body => Stmt.functionsAll body
  | .conditional _ _ t none => t.functions
  | .conditional _ _ t (some e) => t.functions ++ e.functions
  | .loop _ _ b => b.functions
  | .funDecl _ name params body => ⟨name, params, body⟩ :: Stmt.functionsAll body

def Stmt.functionsAll : List (Stmt ρ) → List (Declaration ρ)
  | [] => []
  | s :: ss => s.functions ++ Stmt.functionsAll ss

end

def Program.functions (p : Program ρ) : List (Declaration ρ) := Stmt.functionsAll p.statements

def Closure.declaration (c : Closure) : Declaration (Option Nat) := ⟨c.name, c.params, c.body⟩

mutual

theorem Stmt.functions_nested {s : Stmt ρ} {d e : Declaration ρ} (hd : d ∈ s.functions)
    (he : e ∈ Stmt.functionsAll d.body) : e ∈ s.functions := by
  cases s with
  | expression | print | varDecl | ret => exact absurd hd List.not_mem_nil
  | block span body => exact Stmt.functionsAll_nested hd he
  | conditional span c t f =>
    cases f with
    | none => exact Stmt.functions_nested (s := t) hd he
    | some f =>
      rcases List.mem_append.mp hd with hd | hd
      · exact List.mem_append_left _ (Stmt.functions_nested hd he)
      · exact List.mem_append_right _ (Stmt.functions_nested hd he)
  | loop span c b => exact Stmt.functions_nested (s := b) hd he
  | funDecl span name params body =>
    rcases List.mem_cons.mp hd with rfl | hd
    · exact List.mem_cons_of_mem _ he
    · exact List.mem_cons_of_mem _ (Stmt.functionsAll_nested hd he)

theorem Stmt.functionsAll_nested {ss : List (Stmt ρ)} {d e : Declaration ρ}
    (hd : d ∈ Stmt.functionsAll ss) (he : e ∈ Stmt.functionsAll d.body) :
    e ∈ Stmt.functionsAll ss := by
  cases ss with
  | nil => exact absurd hd List.not_mem_nil
  | cons s ss =>
    rcases List.mem_append.mp hd with hd | hd
    · exact List.mem_append_left _ (Stmt.functions_nested hd he)
    · exact List.mem_append_right _ (Stmt.functionsAll_nested hd he)

end

/-! ### Origins -/

/-- The outermost frame and the declarations that functions may come from. -/
structure Origin where
  root : FrameId
  known : Declaration (Option Nat) → Prop
  nested : ∀ {d e}, known d → e ∈ Stmt.functionsAll d.body → known e

namespace Origin

variable {O : Origin}

/-- A function of a program comes from a known declaration, in an environment around the root. -/
def Admits (O : Origin) : Value → Prop
  | .function _ (.closure c) => c.env.outermost = O.root ∧ O.known c.declaration
  | .function _ (.native _ _) | .nil | .boolean _ | .number _ | .string _ => True

def Holds (O : Origin) (s : Store) : Prop := ∀ id name v, s.slot? id name = some v → O.Admits v

theorem admits_of_isConstant {v : Value} (h : v.IsConstant) : O.Admits v := by
  obtain ⟨l, rfl⟩ := h
  cases l <;> trivial

theorem Holds.define {s : Store} (h : O.Holds s) (id : FrameId) (name : String) {v : Value}
    (hv : O.Admits v) : O.Holds (s.define id name v) := by
  intro g x u hu
  rcases Store.slot?_define_cases hu with ⟨-, rfl⟩ | hu
  · exact hv
  · exact h g x u hu

theorem Holds.alloc {s : Store} (h : O.Holds s) (name : String) : O.Holds (s.alloc name).2 := by
  intro g x u hu
  rw [Store.slot?_alloc] at hu
  exact h g x u hu

theorem Holds.mono {O' : Origin} {s : Store} (h : O.Holds s) (hknown : ∀ d, O.known d → O'.known d)
    (hroot : O.root = O'.root) : O'.Holds s := by
  intro id name v hv
  have hadmits := h id name v hv
  cases v with
  | function n f =>
    cases f with
    | native => trivial
    | closure c => exact ⟨hadmits.1.trans hroot, hknown _ hadmits.2⟩
  | _ => trivial

/-- From a store whose functions are of the origin, a run leaves such a store, with a result as said. -/
def Keeps (O : Origin) (m : Run α) (Q : α → Prop) : Prop :=
  ∀ room w, O.Holds w.store →
    match m.run room w with
    | .ok a v => O.Holds v.store ∧ Q a
    | .error _ v => O.Holds v.store

namespace Keeps

theorem of_ok {m : Run α} {Q : α → Prop} {a : World → α} {f : World → World}
    (h : ∀ room w, m.run room w = .ok (a w) (f w)) (hf : ∀ w, O.Holds w.store → O.Holds (f w).store)
    (hq : ∀ w, Q (a w)) : O.Keeps m Q := by
  intro room w hw
  rw [h room w]
  exact ⟨hf w hw, hq w⟩

theorem pure {Q : α → Prop} {a : α} (hq : Q a) : O.Keeps (pure a) Q :=
  of_ok (fun _ _ => rfl) (fun _ hw => hw) fun _ => hq

theorem throw {Q : α → Prop} (stop : Stop) : O.Keeps (throw stop) Q := fun _ _ hw => hw

theorem bind {m : Run α} {f : α → Run β} {Q : α → Prop} {R : β → Prop} (hm : O.Keeps m Q)
    (hf : ∀ a, Q a → O.Keeps (f a) R) : O.Keeps (m >>= f) R := by
  intro room w hw
  have hfirst := hm room w hw
  cases h : m.run room w with
  | ok a v =>
    rw [h] at hfirst
    rw [run_bind_ok f h]
    exact hf a hfirst.2 room v hfirst.1
  | error stop v =>
    rw [h] at hfirst
    rw [run_bind_error f h]
    exact hfirst

theorem inside {m : Run α} {Q : α → Prop} (a : Activity) (hm : O.Keeps m Q) :
    O.Keeps (Run.inside a m) Q := by
  intro room w hw
  rcases Run.inside_cases a m room w with h | h
  · rw [h]
    exact hm _ w hw
  · rw [h]
    exact hw

theorem calling {m : Run α} {Q : α → Prop} (span : Span) (hm : O.Keeps m Q) :
    O.Keeps (Run.calling span m) Q := fun _ => hm _

theorem blaming {m : Run α} {Q : α → Prop} (span : Span) (hm : O.Keeps m Q) :
    O.Keeps (Run.blaming span m) Q := fun _ => hm _

theorem fail {Q : α → Prop} (e : RuntimeError) (span : Span) : O.Keeps (Run.fail e span) Q :=
  inside .report (throw _)

/-! ### Names and operators -/

theorem read (env : Environment) (name : String) (ref : Option Nat) (span : Span) :
    O.Keeps (Run.read env name ref span) O.Admits := by
  intro room w hw
  rcases Run.read_cases w env name ref span with ⟨id, -, v, hv, hrun⟩ | ⟨d, hrun⟩ | ⟨-, -, hrun⟩
  · rw [hrun]
    exact ⟨hw, hw id name v hv⟩
  · rw [hrun]
    exact hw
  · rw [hrun]
    exact fail _ span room w hw

theorem assign (env : Environment) (name : String) (ref : Option Nat) (span : Span) {v : Value}
    (hv : O.Admits v) : O.Keeps (Run.assign env name ref span v) fun _ => True := by
  intro room w hw
  rcases Run.assign_cases w env name ref span v with ⟨id, -, hrun⟩ | ⟨d, hrun⟩ | ⟨-, -, hrun⟩
  · rw [hrun]
    exact ⟨hw.define id name hv, trivial⟩
  · rw [hrun]
    exact hw
  · rw [hrun]
    exact fail _ span room w hw

theorem define (env : Environment) (name : String) {v : Value} (hv : O.Admits v) :
    O.Keeps (Run.define env name v) fun _ => True :=
  of_ok (fun _ _ => rfl) (fun _ hw => hw.define env.frame name hv) fun _ => trivial

theorem enter {env : Environment} (name : String) (he : env.outermost = O.root) :
    O.Keeps (Run.enter env name) fun inner => inner.outermost = O.root :=
  of_ok (fun _ _ => rfl) (fun _ hw => hw.alloc name) fun w => (env.outermost_child w.store.size).trans he

theorem newFunction {c : Closure} (he : c.env.outermost = O.root) (hd : O.known c.declaration) :
    O.Keeps (Run.newFunction (.closure c)) O.Admits :=
  of_ok (fun _ _ => rfl) (fun _ hw => hw) fun _ => ⟨he, hd⟩

theorem print (text : String) : O.Keeps (Run.print text) fun _ => True :=
  of_ok (fun _ _ => rfl) (fun _ hw => hw) fun _ => trivial

theorem ofOperator (span : Span) {r : Except RuntimeError Value}
    (h : ∀ v, r = .ok v → v.IsConstant) : O.Keeps (Run.ofOperator span r) O.Admits := by
  cases r with
  | ok v => exact pure (admits_of_isConstant (h v rfl))
  | error e => exact fail e span

/-! ### Expressions -/

end Keeps

def Rules (O : Origin) (call : CallRule) : Prop :=
  ∀ (id : Nat) (f : Callable) (args : List Value) (span : Span), O.Admits (.function id f) →
    (∀ v ∈ args, O.Admits v) → O.Keeps (call f args span) O.Admits

namespace Keeps

variable {call : CallRule}

theorem applyValue (hcall : O.Rules call) {callee : Value} {arguments : Run (List Value)} (span : Span)
    (hf : O.Admits callee) (hargs : O.Keeps arguments fun vs => ∀ v ∈ vs, O.Admits v) :
    O.Keeps (applyValue call callee arguments span) O.Admits := by
  cases callee with
  | function id f =>
    refine bind hargs fun vs hvs => ?_
    split
    · exact hcall id f vs span hf hvs
    · exact fail _ span
  | _ => exact fail _ span

mutual

theorem evalExpr (hcall : O.Rules call) (env : Environment) (e : ResolvedExpr) :
    O.Keeps (evalExpr call env e) O.Admits := by
  unfold Lox.evalExpr
  refine inside _ ?_
  cases e with
  | literal span v => exact pure (admits_of_isConstant ⟨v, rfl⟩)
  | varRef span name ref => exact read env name ref span
  | assign span name ref value =>
    refine bind (evalExpr hcall env value) fun v hv => ?_
    exact bind (assign env name ref span hv) fun _ _ => pure hv
  | unary span op operand =>
    refine bind (evalExpr hcall env operand) fun v _ => ?_
    exact ofOperator span fun _ => UnaryOp.isConstant_of_apply
  | binary span op left right =>
    refine bind (evalExpr hcall env left) fun v _ => ?_
    refine bind (evalExpr hcall env right) fun u _ => ?_
    exact ofOperator span fun _ => BinaryOp.isConstant_of_apply
  | logical span op left right =>
    refine bind (evalExpr hcall env left) fun v hv => ?_
    split
    · exact pure hv
    · exact evalExpr hcall env right
  | call span callee arguments =>
    refine bind (evalExpr hcall env callee) fun f hf => ?_
    exact applyValue hcall span hf (inside _ (evalExprs hcall env arguments))
  | group span inner => exact evalExpr hcall env inner

theorem evalExprs (hcall : O.Rules call) (env : Environment) (es : List ResolvedExpr) :
    O.Keeps (evalExprs call env es) fun vs => ∀ v ∈ vs, O.Admits v := by
  cases es with
  | nil => exact pure fun v hv => absurd hv List.not_mem_nil
  | cons e es =>
    refine bind (evalExpr hcall env e) fun v hv => ?_
    refine bind (evalExprs hcall env es) fun vs hvs => ?_
    exact pure (List.forall_mem_cons.mpr ⟨hv, hvs⟩)

end

theorem evalOptional (hcall : O.Rules call) (env : Environment) (e : Option ResolvedExpr) :
    O.Keeps (evalOptional call env e) O.Admits := by
  cases e with
  | none => exact pure trivial
  | some e => exact evalExpr hcall env e

/-! ### Statements -/

end Keeps

def Completes (O : Origin) : Completion → Prop
  | .normal => True
  | .returned v => O.Admits v

namespace Keeps

variable {call : CallRule}

theorem repeatWhile {condition : Run Value} {body : Run Completion} {Q : Value → Prop}
    (hcondition : O.Keeps condition Q) (hbody : O.Keeps body O.Completes) (n : Nat) :
    O.Keeps (repeatWhile condition body n) O.Completes := by
  induction n with
  | zero => exact throw _
  | succ n ih =>
    refine bind hcondition fun v _ => ?_
    split
    · refine bind hbody fun c hc => ?_
      cases c with
      | normal => exact ih
      | returned v => exact pure hc
    · exact pure trivial

mutual

theorem execStmt (hcall : O.Rules call) (passes : Nat) {env : Environment}
    (he : env.outermost = O.root) (s : ResolvedStmt) (hs : ∀ d ∈ s.functions, O.known d) :
    O.Keeps (execStmt call passes env s) O.Completes := by
  unfold Lox.execStmt
  refine inside _ ?_
  cases s with
  | expression span e => exact bind (evalExpr hcall env e) fun _ _ => pure trivial
  | print span e =>
    refine bind (evalExpr hcall env e) fun v _ => ?_
    exact bind (print v.text) fun _ _ => pure trivial
  | varDecl span name e =>
    refine bind (evalOptional hcall env e) fun v hv => ?_
    exact bind (define env name hv) fun _ _ => pure trivial
  | block span body =>
    refine bind (enter "block" he) fun inner hinner => ?_
    exact execStmts hcall passes hinner body hs
  | conditional span c t f =>
    cases f with
    | none =>
      refine bind (evalExpr hcall env c) fun v _ => ?_
      split
      · exact execStmt hcall passes he t hs
      · exact pure trivial
    | some f =>
      obtain ⟨ht, hf⟩ := List.forall_mem_append.mp hs
      refine bind (evalExpr hcall env c) fun v _ => ?_
      split
      · exact execStmt hcall passes he t ht
      · exact execStmt hcall passes he f hf
  | loop span c b =>
    exact repeatWhile (evalExpr hcall env c) (execStmt hcall passes he b hs) passes
  | funDecl span name params body =>
    refine bind (newFunction he (hs _ List.mem_cons_self)) fun f hf => ?_
    exact bind (define env name hf) fun _ _ => pure trivial
  | ret span e => exact bind (evalOptional hcall env e) fun v hv => pure hv

theorem execStmts (hcall : O.Rules call) (passes : Nat) {env : Environment}
    (he : env.outermost = O.root) (ss : List ResolvedStmt) (hs : ∀ d ∈ Stmt.functionsAll ss, O.known d) :
    O.Keeps (execStmts call passes env ss) O.Completes := by
  cases ss with
  | nil => exact pure trivial
  | cons s ss =>
    obtain ⟨hhead, htail⟩ := List.forall_mem_append.mp hs
    refine bind (execStmt hcall passes he s hhead) fun c hc => ?_
    cases c with
    | normal => exact execStmts hcall passes he ss htail
    | returned v => exact pure hc

end

/-! ### Calls and programs -/

variable {host : Host} {env : Environment}

theorem callNative (hn : host.natives.ReturnsGiven) (name : String) {args : List Value} (span : Span)
    (hargs : ∀ v ∈ args, O.Admits v) : O.Keeps (callNative host name args span) O.Admits := by
  intro room w hw
  cases hanswer : host.natives.answer name (host.clock w.nativeCalls) args with
  | ok v =>
    rw [run_callNative_ok hanswer]
    refine ⟨hw, ?_⟩
    cases v with
    | function id f => exact hargs _ (hn.mem_of_answer hanswer)
    | _ => trivial
  | error message =>
    rw [run_callNative_error hanswer]
    exact fail _ span room _ hw

theorem bindParams (env : Environment) (params : List Parameter) {args : List Value}
    (hargs : ∀ v ∈ args, O.Admits v) : O.Keeps (bindParams env params args) fun _ => True := by
  induction params generalizing args with
  | nil => exact pure trivial
  | cons p ps ih =>
    cases args with
    | nil => exact pure trivial
    | cons v vs =>
      obtain ⟨hv, hvs⟩ := List.forall_mem_cons.mp hargs
      exact bind (define env p.name hv) fun _ _ => ih hvs

theorem callClosure (hcall : O.Rules call) {c : Closure} {args : List Value}
    (he : c.env.outermost = O.root) (hd : O.known c.declaration) (hargs : ∀ v ∈ args, O.Admits v) :
    O.Keeps (callClosure host call c args) O.Admits := by
  refine bind (enter c.name he) fun env hinner => ?_
  refine bind (bindParams env c.params hargs) fun _ _ => ?_
  refine bind (execStmts hcall host.maxPasses hinner c.body fun d => O.nested hd) fun r hr => ?_
  cases r with
  | normal => exact pure trivial
  | returned v => exact pure hr

theorem callWithin (hn : host.natives.ReturnsGiven) (calls : Nat) : O.Rules (callWithin host calls) := by
  induction calls with
  | zero => exact fun id f args span _ _ => fail _ span
  | succ calls ih =>
    intro id f args span hf hargs
    refine calling span ?_
    cases f with
    | native name arity => exact inside _ (callNative hn name span hargs)
    | closure c => exact inside _ (callClosure ih hf.1 hf.2 hargs)

theorem execTopLevel (hn : host.natives.ReturnsGiven) (he : env.outermost = O.root) (s : ResolvedStmt)
    (hs : ∀ d ∈ s.functions, O.known d) : O.Keeps (execTopLevel host env s) fun _ => True := by
  refine bind (execStmt (callWithin hn host.maxCallDepth) host.maxPasses he s hs) fun c _ => ?_
  cases c with
  | normal => exact pure trivial
  | returned v => exact throw _

theorem execProgram (hn : host.natives.ReturnsGiven) (he : env.outermost = O.root)
    (ss : List ResolvedStmt) (hs : ∀ d ∈ Stmt.functionsAll ss, O.known d) :
    O.Keeps (execProgram host env ss) fun _ => True := by
  induction ss with
  | nil => exact pure trivial
  | cons s ss ih =>
    obtain ⟨hhead, htail⟩ := List.forall_mem_append.mp hs
    exact bind (blaming s.span (execTopLevel hn he s hhead)) fun _ _ => ih htail

end Keeps

end Origin

end Lox
