import Lox.Proofs.Execution.Calls

/-!
# Disciplines

A discipline says which frames a place may see and what a reference may be; the values that it admits
are the functions that keep to it. If making a frame, defining a name and using one are within the
discipline, so is every evaluation, however it ends: by induction on the tree, and on the calls that may
be in progress.
-/

namespace Lox

variable {α β : Type}

theorem Environment.outermost_mem_frames (env : Environment) : env.outermost ∈ env.frames :=
  List.getLastD_mem_cons

/-! ### What using a name comes to -/

namespace Run

variable (w : World) (env : Environment) (name : String) (ref : Option Nat) (span : Span)

/-- Reading gives what a visible frame holds, or meets a place that is missing, or a global without a
value. -/
theorem read_cases :
    (∃ id ∈ env.frames, ∃ v, w.store.slot? id name = some v ∧
        ∀ {room}, (read env name ref span).run room w = .ok v w) ∨
      (∃ d, ∀ {room}, (read env name ref span).run room w = .error (.defect d) w) ∨
        (ref = none ∧ w.store.slot? env.outermost name = none ∧
          ∀ {room}, (read env name ref span).run room w =
            (fail (.undefinedVariable name) span : Run Value).run room w) := by
  cases ref with
  | none =>
    cases hv : w.store.slot? env.outermost name with
    | some v => exact Or.inl ⟨_, env.outermost_mem_frames, v, hv, run_read_global hv⟩
    | none => exact Or.inr (Or.inr ⟨rfl, rfl, run_read_undefined hv⟩)
  | some hops =>
    cases hid : env.frames[hops]? with
    | some id =>
      cases hv : w.store.slot? id name with
      | some v => exact Or.inl ⟨id, List.mem_of_getElem? hid, v, hv, run_read_local hid hv⟩
      | none => exact Or.inr (Or.inl ⟨_, run_read_unbound hid hv⟩)
    | none =>
      refine Or.inr (Or.inl ⟨.chainTooShort hops (w.store.frame env.frame).name, fun {room} => ?_⟩)
      unfold read Store.getAt
      rw [run_get_bind]
      simp only [Store.ancestor_eq, hid]
      rfl

/-- Assigning changes a name in a visible frame, or meets a place that is missing, or a global without a
value. -/
theorem assign_cases (v : Value) :
    (∃ id ∈ env.frames, ∀ {room}, (assign env name ref span v).run room w =
        .ok () { w with store := w.store.define id name v }) ∨
      (∃ d, ∀ {room}, (assign env name ref span v).run room w = .error (.defect d) w) ∨
        (ref = none ∧ w.store.slot? env.outermost name = none ∧
          ∀ {room}, (assign env name ref span v).run room w =
            (fail (.undefinedVariable name) span : Run Unit).run room w) := by
  cases ref with
  | none =>
    cases hs : (w.store.slot? env.outermost name).isSome with
    | true => exact Or.inl ⟨_, env.outermost_mem_frames, run_assign_global hs⟩
    | false =>
      have hv := Option.isNone_iff_eq_none.mp (Option.isSome_eq_false_iff.mp hs)
      exact Or.inr (Or.inr ⟨rfl, hv, run_assign_undefined hs⟩)
  | some hops =>
    cases hid : env.frames[hops]? with
    | some id =>
      cases hs : (w.store.slot? id name).isSome with
      | true => exact Or.inl ⟨id, List.mem_of_getElem? hid, run_assign_local hid hs⟩
      | false => exact Or.inr (Or.inl ⟨_, run_assign_unbound hid hs⟩)
    | none =>
      refine Or.inr (Or.inl ⟨.chainTooShort hops (w.store.frame env.frame).name, fun {room} => ?_⟩)
      unfold assign Store.slotAt
      rw [run_get_bind]
      simp only [Store.ancestor_eq, hid]
      rfl

end Run

/-! ### Disciplines -/

/-- The environment and the references of a function are as said. -/
def Value.Within (place : Environment → Prop) (reference : Reference (Option Nat) → Prop) :
    Value → Prop
  | .function _ (.closure c) => place c.env ∧ ∀ r ∈ Stmt.referencesAll c.body, reference r
  | .function _ (.native _ _) | .nil | .boolean _ | .number _ | .string _ => True

/-- What stores, places and references are like, and where a global may be missing; places stay as they
are in larger stores, and what a visible frame holds, gets or misses is within the discipline. -/
structure Discipline where
  store : Store → Prop
  place : Store → Environment → Prop
  reference : Reference (Option Nat) → Prop
  undefined : String → Span → Prop
  place_mono : ∀ {s t : Store} {env : Environment}, s.size ≤ t.size → place s env → place t env
  held : ∀ {s : Store} {env : Environment} {id : FrameId} {name : String} {v : Value},
    store s → place s env → id ∈ env.frames → s.slot? id name = some v →
      v.Within (place s) reference
  missing : ∀ {s : Store} {env : Environment} {r : Reference (Option Nat)},
    store s → place s env → reference r → r.ref = none → s.slot? env.outermost r.name = none →
      undefined r.name r.span
  define : ∀ {s : Store} {env : Environment} {id : FrameId} {v : Value} (name : String),
    store s → place s env → id ∈ env.frames → v.Within (place s) reference →
      store (s.define id name v)
  alloc : ∀ {s : Store} {env : Environment} (name : String), store s → place s env →
    store (s.alloc name).2 ∧ place (s.alloc name).2 (env.child (s.alloc name).1)

namespace Discipline

variable {D : Discipline}

def Admits (D : Discipline) (v : Value) (w : World) : Prop := v.Within (D.place w.store) D.reference

def AdmitsAll (D : Discipline) (vs : List Value) (w : World) : Prop := ∀ v ∈ vs, D.Admits v w

def Allows (D : Discipline) : Stop → Prop
  | .error (.undefinedVariable x) span => D.undefined x span
  | .error _ _ | .defect _ | .passesUsedUp | .refused => True

theorem Admits.mono {v : Value} {w w' : World} (h : D.Admits v w)
    (hsize : w.store.size ≤ w'.store.size) : D.Admits v w' := by
  cases v with
  | function id f =>
    cases f with
    | native name arity => trivial
    | closure c => exact ⟨D.place_mono hsize h.1, h.2⟩
  | _ => trivial

theorem AdmitsAll.mono {vs : List Value} {w w' : World} (h : D.AdmitsAll vs w)
    (hsize : w.store.size ≤ w'.store.size) : D.AdmitsAll vs w' := fun v hv => (h v hv).mono hsize

theorem admits_of_isConstant {v : Value} (h : v.IsConstant) (w : World) : D.Admits v w := by
  obtain ⟨l, rfl⟩ := h
  cases l <;> trivial

/-- A world behind an earlier one: no frame is lost, and the store is as it has to be. -/
structure Follows (D : Discipline) (w w' : World) : Prop where
  size : w.store.size ≤ w'.store.size
  store : D.store w'.store

/-- Evaluation from a world keeps to the discipline, with a result as said or a stop it allows. -/
def Keeps (D : Discipline) (w : World) (m : Run α) (Q : α → World → Prop) : Prop :=
  ∀ room, match m.run room w with
  | .ok a w' => D.Follows w w' ∧ Q a w'
  | .error stop w' => D.Follows w w' ∧ D.Allows stop

namespace Keeps

variable {w : World}

theorem of_ok {m : Run α} {Q : α → World → Prop} {a : α} {w' : World}
    (h : ∀ {room}, m.run room w = .ok a w') (hf : D.Follows w w') (hq : Q a w') : D.Keeps w m Q := by
  intro room
  rw [h]
  exact ⟨hf, hq⟩

theorem of_error {m : Run α} {Q : α → World → Prop} {stop : Stop}
    (h : ∀ {room}, m.run room w = .error stop w) (hw : D.store w.store) (hs : D.Allows stop) :
    D.Keeps w m Q := by
  intro room
  rw [h]
  exact ⟨⟨Nat.le_refl _, hw⟩, hs⟩

theorem congr {m n : Run α} {Q : α → World → Prop} (h : ∀ {room}, m.run room w = n.run room w)
    (hn : D.Keeps w n Q) : D.Keeps w m Q := by
  intro room
  rw [h]
  exact hn room

theorem inside {m : Run α} {Q : α → World → Prop} (a : Activity) (hw : D.store w.store)
    (hm : D.Keeps w m Q) : D.Keeps w (Run.inside a m) Q := by
  intro room
  rcases Run.inside_cases a m room w with h | h
  · rw [h]
    exact hm _
  · rw [h]
    exact ⟨⟨Nat.le_refl _, hw⟩, trivial⟩

theorem calling {m : Run α} {Q : α → World → Prop} (span : Span) (hm : D.Keeps w m Q) :
    D.Keeps w (Run.calling span m) Q := fun _ => hm _

theorem blaming {m : Run α} {Q : α → World → Prop} (span : Span) (hm : D.Keeps w m Q) :
    D.Keeps w (Run.blaming span m) Q := fun _ => hm _

theorem of_store_eq {m : Run α} {Q : α → World → Prop} {a : α} {w' : World}
    (h : ∀ {room}, m.run room w = .ok a w') (hw : D.store w.store) (heq : w'.store = w.store) (hq : Q a w') :
    D.Keeps w m Q := of_ok h ⟨Nat.le_of_eq (by rw [heq]), by rwa [heq]⟩ hq

theorem pure {Q : α → World → Prop} {a : α} (hw : D.store w.store) (hq : Q a w) :
    D.Keeps w (pure a) Q := of_store_eq rfl hw rfl hq

theorem fail {Q : α → World → Prop} {e : RuntimeError} (span : Span) (hw : D.store w.store)
    (he : D.Allows (.error e span)) : D.Keeps w (Run.fail e span) Q :=
  inside .report hw (of_error rfl hw he)

theorem bind {m : Run α} {f : α → Run β} {Q : α → World → Prop} {R : β → World → Prop}
    (hm : D.Keeps w m Q) (hf : ∀ a w', D.Follows w w' → Q a w' → D.Keeps w' (f a) R) :
    D.Keeps w (m >>= f) R := by
  intro room
  have hm := hm room
  cases hr : m.run room w with
  | error stop w' =>
    rw [hr] at hm
    rw [run_bind_error f hr]
    exact hm
  | ok a w' =>
    rw [hr] at hm
    have hfa := hf a w' hm.1 hm.2 room
    rw [run_bind_ok f hr]
    cases hr' : (f a).run room w' with
    | ok b w'' =>
      rw [hr'] at hfa
      exact ⟨⟨Nat.le_trans hm.1.size hfa.1.size, hfa.1.store⟩, hfa.2⟩
    | error stop w'' =>
      rw [hr'] at hfa
      exact ⟨⟨Nat.le_trans hm.1.size hfa.1.size, hfa.1.store⟩, hfa.2⟩

/-! ### Names -/

theorem read {env : Environment} {r : Reference (Option Nat)} (hw : D.store w.store)
    (he : D.place w.store env) (hr : D.reference r) :
    D.Keeps w (Run.read env r.name r.ref r.span) D.Admits := by
  rcases Run.read_cases w env r.name r.ref r.span with
    ⟨id, hid, v, hv, hrun⟩ | ⟨d, hrun⟩ | ⟨href, hs, hrun⟩
  · exact of_store_eq hrun hw rfl (D.held hw he hid hv)
  · exact of_error hrun hw trivial
  · exact congr hrun (fail r.span hw (D.missing hw he hr href hs))

theorem assign {env : Environment} {r : Reference (Option Nat)} {v : Value} (hw : D.store w.store)
    (he : D.place w.store env) (hr : D.reference r) (hv : D.Admits v w) :
    D.Keeps w (Run.assign env r.name r.ref r.span v) fun _ _ => True := by
  rcases Run.assign_cases w env r.name r.ref r.span v with
    ⟨id, hid, hrun⟩ | ⟨d, hrun⟩ | ⟨href, hs, hrun⟩
  · exact of_ok hrun ⟨Store.size_le_define _ _ _ _, D.define r.name hw he hid hv⟩ trivial
  · exact of_error hrun hw trivial
  · exact congr hrun (fail r.span hw (D.missing hw he hr href hs))

theorem define {env : Environment} (name : String) {v : Value} (hw : D.store w.store)
    (he : D.place w.store env) (hv : D.Admits v w) :
    D.Keeps w (Run.define env name v) fun _ _ => True :=
  of_ok rfl ⟨Store.size_le_define _ _ _ _, D.define name hw he List.mem_cons_self hv⟩ trivial

theorem enter {env : Environment} (name : String) (hw : D.store w.store)
    (he : D.place w.store env) :
    D.Keeps w (Run.enter env name) fun inner w' => D.place w'.store inner := by
  have h := D.alloc name hw he
  exact of_ok rfl ⟨(Store.grows_alloc w.store name).size, h.1⟩ h.2

theorem newFunction {c : Closure} (hw : D.store w.store) (he : D.place w.store c.env)
    (hr : ∀ r ∈ Stmt.referencesAll c.body, D.reference r) :
    D.Keeps w (Run.newFunction (.closure c)) D.Admits := of_store_eq rfl hw rfl ⟨he, hr⟩

theorem print {text : String} (hw : D.store w.store) :
    D.Keeps w (Run.print text) fun _ _ => True := of_store_eq rfl hw rfl trivial

theorem ofOperator {span : Span} {r : Except RuntimeError Value} (hw : D.store w.store)
    (hconstant : ∀ v, r = .ok v → v.IsConstant) (herror : ∀ x, r ≠ .error (.undefinedVariable x)) :
    D.Keeps w (Run.ofOperator span r) D.Admits := by
  cases r with
  | ok v => exact pure hw (admits_of_isConstant (hconstant v rfl) w)
  | error e =>
    refine fail span hw ?_
    cases e with
    | undefinedVariable x => exact absurd rfl (herror x)
    | _ => trivial

end Keeps
end Discipline

theorem UnaryOp.apply_ne_undefined (op : UnaryOp) (v : Value) (x : String) :
    op.apply v ≠ .error (.undefinedVariable x) := by
  cases op <;> cases v <;> nofun

theorem BinaryOp.apply_ne_undefined (op : BinaryOp) (u v : Value) (x : String) :
    op.apply u v ≠ .error (.undefinedVariable x) := by
  unfold apply
  split
  · nofun
  · nofun
  · split
    · unfold applyNumbers
      split <;> (try split) <;> nofun
    · nofun
    · nofun
    · nofun

namespace Discipline

variable {D : Discipline}

/-! ### Expressions -/

def Rules (D : Discipline) (call : CallRule) : Prop :=
  ∀ {w : World} {f : Callable} {args : List Value} (id : Nat) (span : Span), D.store w.store →
    D.Admits (.function id f) w → D.AdmitsAll args w → D.Keeps w (call f args span) D.Admits

namespace Keeps

theorem applyValue {call : CallRule} (hcall : D.Rules call) {callee : Value}
    {arguments : Run (List Value)} {span : Span} {w : World} (hw : D.store w.store)
    (hf : D.Admits callee w) (hargs : D.Keeps w arguments D.AdmitsAll) :
    D.Keeps w (applyValue call callee arguments span) D.Admits := by
  unfold Lox.applyValue
  split
  · rename_i id f
    refine bind hargs fun vs w' hw' hvs => ?_
    split
    · exact hcall id span hw'.store (hf.mono hw'.size) hvs
    · exact fail span hw'.store trivial
  · exact fail span hw trivial

mutual

theorem evalExpr {call : CallRule} (hcall : D.Rules call) (e : ResolvedExpr) {env : Environment}
    {w : World} (hr : ∀ r ∈ e.references, D.reference r) (hw : D.store w.store)
    (he : D.place w.store env) : D.Keeps w (evalExpr call env e) D.Admits := by
  unfold Lox.evalExpr
  refine inside _ hw ?_
  cases e with
  | literal span v => exact pure hw (admits_of_isConstant ⟨v, rfl⟩ w)
  | varRef span name ref => exact read hw he (hr ⟨false, name, span, ref⟩ List.mem_cons_self)
  | assign span name ref value =>
    obtain ⟨htarget, hvalue⟩ := List.forall_mem_cons.mp hr
    refine bind (evalExpr hcall value hvalue hw he) fun v w' hw' hv => ?_
    refine bind (assign hw'.store (D.place_mono hw'.size he) htarget hv) fun _ w'' hw'' _ => ?_
    exact pure hw''.store (hv.mono hw''.size)
  | unary span op operand =>
    refine bind (evalExpr hcall operand hr hw he) fun v w' hw' _ => ?_
    exact ofOperator hw'.store (fun _ => UnaryOp.isConstant_of_apply) (op.apply_ne_undefined v)
  | binary span op left right =>
    obtain ⟨hleft, hright⟩ := List.forall_mem_append.mp hr
    refine bind (evalExpr hcall left hleft hw he) fun u w' hw' _ => ?_
    refine bind (evalExpr hcall right hright hw'.store (D.place_mono hw'.size he))
      fun v w'' hw'' _ => ?_
    exact ofOperator hw''.store (fun _ => BinaryOp.isConstant_of_apply) (op.apply_ne_undefined u v)
  | logical span op left right =>
    obtain ⟨hleft, hright⟩ := List.forall_mem_append.mp hr
    refine bind (evalExpr hcall left hleft hw he) fun u w' hw' hu => ?_
    split
    · exact pure hw'.store hu
    · exact evalExpr hcall right hright hw'.store (D.place_mono hw'.size he)
  | call span callee arguments =>
    obtain ⟨hcallee, harguments⟩ := List.forall_mem_append.mp hr
    refine bind (evalExpr hcall callee hcallee hw he) fun f w' hw' hf => ?_
    exact applyValue hcall hw'.store hf
      (inside _ hw'.store (evalExprs hcall arguments harguments hw'.store (D.place_mono hw'.size he)))
  | group span inner => exact evalExpr hcall inner hr hw he

theorem evalExprs {call : CallRule} (hcall : D.Rules call) (es : List ResolvedExpr)
    {env : Environment} {w : World} (hr : ∀ r ∈ Expr.referencesAll es, D.reference r)
    (hw : D.store w.store) (he : D.place w.store env) :
    D.Keeps w (evalExprs call env es) D.AdmitsAll := by
  cases es with
  | nil => exact pure hw fun v hv => absurd hv List.not_mem_nil
  | cons e es =>
    obtain ⟨hhead, htail⟩ := List.forall_mem_append.mp hr
    refine bind (evalExpr hcall e hhead hw he) fun v w' hw' hv => ?_
    refine bind (evalExprs hcall es htail hw'.store (D.place_mono hw'.size he))
      fun vs w'' hw'' hvs => ?_
    exact pure hw''.store (List.forall_mem_cons.mpr ⟨hv.mono hw''.size, hvs⟩)

end

theorem evalOptional {call : CallRule} (hcall : D.Rules call) (e : Option ResolvedExpr)
    {env : Environment} {w : World} (hr : ∀ e', e = some e' → ∀ r ∈ e'.references, D.reference r)
    (hw : D.store w.store) (he : D.place w.store env) :
    D.Keeps w (evalOptional call env e) D.Admits := by
  cases e with
  | none => exact pure hw trivial
  | some e => exact evalExpr hcall e (hr e rfl) hw he

/-! ### Statements -/

end Keeps

def Completes (D : Discipline) : Completion → World → Prop
  | .normal, _ => True
  | .returned v, w => D.Admits v w

namespace Keeps

theorem repeatWhile {condition : Run Value} {body : Run Completion} {env : Environment}
    (hcondition : ∀ w : World, D.store w.store → D.place w.store env →
      D.Keeps w condition D.Admits)
    (hbody : ∀ w : World, D.store w.store → D.place w.store env → D.Keeps w body D.Completes)
    (n : Nat) {w : World} (hw : D.store w.store) (he : D.place w.store env) :
    D.Keeps w (repeatWhile condition body n) D.Completes := by
  induction n generalizing w with
  | zero => exact of_error rfl hw trivial
  | succ n ih =>
    refine bind (hcondition w hw he) fun v w' hw' _ => ?_
    have he' := D.place_mono hw'.size he
    split
    · refine bind (hbody w' hw'.store he') fun c w'' hw'' hc => ?_
      cases c with
      | normal => exact ih hw''.store (D.place_mono hw''.size he')
      | returned v => exact pure hw''.store hc
    · exact pure hw'.store trivial

mutual

theorem execStmt {call : CallRule} (hcall : D.Rules call) (passes : Nat) (s : ResolvedStmt)
    {env : Environment} {w : World} (hr : ∀ r ∈ s.references, D.reference r)
    (hw : D.store w.store) (he : D.place w.store env) :
    D.Keeps w (execStmt call passes env s) D.Completes := by
  unfold Lox.execStmt
  refine inside _ hw ?_
  cases s with
  | expression span e =>
    exact bind (evalExpr hcall e hr hw he) fun _ w' hw' _ => pure hw'.store trivial
  | print span e =>
    refine bind (evalExpr hcall e hr hw he) fun v w' hw' _ => ?_
    exact bind (print hw'.store) fun _ w'' hw'' _ => pure hw''.store trivial
  | varDecl span name e =>
    have hr' : ∀ e', e = some e' → ∀ r ∈ e'.references, D.reference r := by
      rintro e' rfl
      exact hr
    refine bind (evalOptional hcall e hr' hw he) fun v w' hw' hv => ?_
    refine bind (define name hw'.store (D.place_mono hw'.size he) hv) fun _ w'' hw'' _ => ?_
    exact pure hw''.store trivial
  | block span body =>
    refine bind (enter "block" hw he) fun inner w' hw' hinner => ?_
    exact execStmts hcall passes body hr hw'.store hinner
  | conditional span c t e =>
    cases e with
    | none =>
      obtain ⟨hc, ht⟩ := List.forall_mem_append.mp hr
      refine bind (evalExpr hcall c hc hw he) fun v w' hw' _ => ?_
      split
      · exact execStmt hcall passes t ht hw'.store (D.place_mono hw'.size he)
      · exact pure hw'.store trivial
    | some e =>
      obtain ⟨hct, hre⟩ := List.forall_mem_append.mp hr
      obtain ⟨hc, ht⟩ := List.forall_mem_append.mp hct
      refine bind (evalExpr hcall c hc hw he) fun v w' hw' _ => ?_
      split
      · exact execStmt hcall passes t ht hw'.store (D.place_mono hw'.size he)
      · exact execStmt hcall passes e hre hw'.store (D.place_mono hw'.size he)
  | loop span c b =>
    obtain ⟨hc, hb⟩ := List.forall_mem_append.mp hr
    exact repeatWhile (fun w hw he => evalExpr hcall c hc hw he)
      (fun w hw he => execStmt hcall passes b hb hw he) passes hw he
  | funDecl span name params body =>
    refine bind (newFunction hw he hr) fun f w' hw' hf => ?_
    refine bind (define name hw'.store (D.place_mono hw'.size he) hf) fun _ w'' hw'' _ => ?_
    exact pure hw''.store trivial
  | ret span e =>
    have hr' : ∀ e', e = some e' → ∀ r ∈ e'.references, D.reference r := by
      rintro e' rfl
      exact hr
    exact bind (evalOptional hcall e hr' hw he) fun v w' hw' hv => pure hw'.store hv

theorem execStmts {call : CallRule} (hcall : D.Rules call) (passes : Nat) (ss : List ResolvedStmt)
    {env : Environment} {w : World} (hr : ∀ r ∈ Stmt.referencesAll ss, D.reference r)
    (hw : D.store w.store) (he : D.place w.store env) :
    D.Keeps w (execStmts call passes env ss) D.Completes := by
  cases ss with
  | nil => exact pure hw trivial
  | cons s ss =>
    obtain ⟨hs, hss⟩ := List.forall_mem_append.mp hr
    refine bind (execStmt hcall passes s hs hw he) fun c w' hw' hc => ?_
    cases c with
    | normal => exact execStmts hcall passes ss hss hw'.store (D.place_mono hw'.size he)
    | returned v => exact pure hw'.store hc

end

/-! ### Calls and programs -/

theorem callNative {host : Host} (hn : host.natives.ReturnsGiven) {name : String}
    {args : List Value} {span : Span} {w : World} (hw : D.store w.store)
    (hargs : D.AdmitsAll args w) : D.Keeps w (callNative host name args span) D.Admits := by
  cases hanswer : host.natives.answer name (host.clock w.nativeCalls) args with
  | ok v =>
    refine of_store_eq (run_callNative_ok hanswer) hw rfl ?_
    cases v with
    | function id f => exact hargs _ (hn.mem_of_answer hanswer)
    | _ => trivial
  | error message =>
    intro room
    rw [run_callNative_error hanswer]
    rcases Run.fail_cases (α := Value) (.nativeFailure name message) span room
      { w with nativeCalls := w.nativeCalls + 1 } with h | h <;> rw [h] <;>
        exact ⟨⟨Nat.le_refl _, hw⟩, trivial⟩

theorem bindParams {env : Environment} (params : List Parameter) {args : List Value} {w : World}
    (hw : D.store w.store) (he : D.place w.store env) (hargs : D.AdmitsAll args w) :
    D.Keeps w (bindParams env params args) fun _ _ => True := by
  induction params generalizing args w with
  | nil => exact pure hw trivial
  | cons p ps ih =>
    cases args with
    | nil => exact pure hw trivial
    | cons v vs =>
      obtain ⟨hv, hvs⟩ := List.forall_mem_cons.mp hargs
      refine bind (define p.name hw he hv) fun _ w' hw' _ => ?_
      exact ih hw'.store (D.place_mono hw'.size he) (AdmitsAll.mono hvs hw'.size)

theorem callClosure {host : Host} {call : CallRule} (hcall : D.Rules call) {c : Closure}
    {args : List Value} {w : World} (hw : D.store w.store) (he : D.place w.store c.env)
    (hr : ∀ r ∈ Stmt.referencesAll c.body, D.reference r) (hargs : D.AdmitsAll args w) :
    D.Keeps w (callClosure host call c args) D.Admits := by
  unfold Lox.callClosure
  refine bind (enter c.name hw he) fun env w' hw' hinner => ?_
  refine bind (bindParams c.params hw'.store hinner (hargs.mono hw'.size)) fun _ w'' hw'' _ => ?_
  refine bind (execStmts hcall host.maxPasses c.body hr hw''.store
    (D.place_mono hw''.size hinner)) fun r w₃ hw₃ hc => ?_
  cases r with
  | normal => exact pure hw₃.store trivial
  | returned v => exact pure hw₃.store hc

theorem callWithin {host : Host} (hn : host.natives.ReturnsGiven) (calls : Nat) :
    D.Rules (callWithin host calls) := by
  induction calls with
  | zero => exact fun id span hw _ _ => fail span hw trivial
  | succ calls ih =>
    intro w f args id span hw hf hargs
    refine calling span ?_
    cases f with
    | native name arity => exact inside _ hw (callNative hn hw hargs)
    | closure c => exact inside _ hw (callClosure ih hw hf.1 hf.2 hargs)

theorem execTopLevel {host : Host} (hn : host.natives.ReturnsGiven) {globals : Environment}
    (s : ResolvedStmt) {w : World} (hr : ∀ r ∈ s.references, D.reference r) (hw : D.store w.store)
    (he : D.place w.store globals) :
    D.Keeps w (execTopLevel host globals s) fun _ _ => True := by
  refine bind (execStmt (callWithin hn host.maxCallDepth) host.maxPasses s hr hw he)
    fun c w' hw' _ => ?_
  cases c with
  | normal => exact pure hw'.store trivial
  | returned v => exact of_error rfl hw'.store trivial

theorem execProgram {host : Host} (hn : host.natives.ReturnsGiven) {globals : Environment}
    (ss : List ResolvedStmt) {w : World} (hr : ∀ r ∈ Stmt.referencesAll ss, D.reference r)
    (hw : D.store w.store) (he : D.place w.store globals) :
    D.Keeps w (execProgram host globals ss) fun _ _ => True := by
  induction ss generalizing w with
  | nil => exact pure hw trivial
  | cons s ss ih =>
    obtain ⟨hs, hss⟩ := List.forall_mem_append.mp hr
    refine bind (blaming _ (execTopLevel hn s hs hw he)) fun _ w' hw' _ => ?_
    exact ih hss hw'.store (D.place_mono hw'.size he)

end Keeps

end Discipline

end Lox
