import Lox.Proofs.Scope.Bindings
import Lox.Proofs.Scope.Points

/-!
# The findings of a walk

The walk finds what the rules say of the points of the program, in their order, and nothing else. Its
state says what the points behind it say: the open scopes hold what has been declared in them, the
names warned about are those that were unbound. One lemma for each kind of point, then one induction
over the tree. How many errors are reported does not touch what is found.
-/

namespace Lox.Resolution

variable {ι : Type} {rules : Rules} {past : List Point} {around : List Nat} {functions : Nat}
  {p q : Progress ι}

/-! ### State and points -/

def placesOf (scope : Scope) : List (String × Span) := scope.map fun e => (e.1, e.2.span)

theorem lookup_placesOf (scope : Scope) (name : String) :
    (placesOf scope).lookup name = (scope.lookup name).map Binding.span := by
  induction scope with
  | nil => rfl
  | cons e scope ih =>
    rw [placesOf, List.map_cons, List.lookup_cons, List.lookup_cons]
    cases name == e.1 with
    | true => rfl
    | false => exact ih

/-- The state of the walk behind the points `past`, at a place with the scopes `around` inside of
`functions` functions. The scopes around are open and different, and one that is still to come holds
nothing. -/
structure Follows (rules : Rules) (past : List Point) (around : List Nat) (functions : Nat)
    (p : Progress ι) : Prop where
  opened : ∀ n ∈ around, n < past.length
  nodup : around.Nodup
  unopened : ∀ n, past.length ≤ n → Point.held past n = []
  scopes : p.scopes.map placesOf = around.map (Point.held past)
  functionDepth : p.functionDepth = functions
  warned : rules.warnUndefined = true → ∀ name, rules.isGlobal name = false →
    (name ∈ p.warned ↔ name ∈ Point.collect Point.unbound [] past)
  findings : p.findings.reverse = Point.collect (Point.findings rules) [] past

theorem follows_nothing (rules : Rules) : Follows rules [] [] 0 ({} : Progress ι) where
  opened _ h := absurd h List.not_mem_nil
  nodup := List.nodup_nil
  unopened _ _ := rfl
  scopes := rfl
  functionDepth := rfl
  warned _ _ _ := Iff.rfl
  findings := rfl

namespace Follows

theorem length_eq (h : Follows rules past around functions p) : p.scopes.length = around.length := by
  rw [← List.length_map placesOf, h.scopes, List.length_map]

theorem previous?_eq (h : Follows rules past around functions p) (kind : PointKind) (span : Span)
    (name : String) :
    Point.previous? past ⟨kind, span, around⟩ name = (p.binding? name).map Binding.span := by
  have hs := congrArg List.head? h.scopes
  rw [List.head?_map, List.head?_map] at hs
  rw [Point.previous?, Progress.binding?]
  cases hp : p.scopes.head? with
  | none =>
    rw [hp, Option.map_none, eq_comm, Option.map_eq_none_iff] at hs
    rw [hs]
    rfl
  | some scope =>
    rw [hp, Option.map_some, eq_comm, Option.map_eq_some_iff] at hs
    obtain ⟨n, hn, hheld⟩ := hs
    rw [hn, Option.bind_some, Option.bind_some, hheld, lookup_placesOf]

theorem isBound_eq (h : Follows rules past around functions p) (kind : PointKind) (span : Span)
    (name : String) :
    Point.isBound past ⟨kind, span, around⟩ name = (hopsIn name p.names).isSome := by
  have hs := congrArg (List.any · fun places => (places.lookup name).isSome) h.scopes
  simp only [List.any_map, Function.comp_def, lookup_placesOf, Option.isSome_map,
    lookup_isSome_eq] at hs
  rw [Point.isBound, ← hs, hopsIn, List.findIdx?_isSome, Progress.names, List.any_map]
  rfl

/-! ### One point -/

theorem push (h : Follows rules past around functions p) {kind : PointKind} {span : Span}
    (hnot : ∀ scope, Point.declares? scope ⟨kind, span, around⟩ = none) (hscopes : q.scopes = p.scopes)
    (hdepth : q.functionDepth = p.functionDepth)
    (hwarned : rules.warnUndefined = true → ∀ name, rules.isGlobal name = false →
      (name ∈ q.warned ↔ name ∈ p.warned ∨ name ∈ Point.unbound past ⟨kind, span, around⟩))
    (hfindings : q.findings.reverse = p.findings.reverse ++
      Point.findings rules past ⟨kind, span, around⟩) :
    Follows rules (past ++ [⟨kind, span, around⟩]) around functions q := by
  have hheld (n : Nat) : Point.held (past ++ [⟨kind, span, around⟩]) n = Point.held past n := by
    rw [Point.held_concat, hnot]
    rfl
  refine ⟨fun n hn => ?_, h.nodup, fun n hn => ?_, ?_, hdepth.trans h.functionDepth, ?_, ?_⟩
  · rw [List.length_append]
    exact Nat.lt_add_right _ (h.opened n hn)
  · rw [List.length_append] at hn
    rw [hheld]
    exact h.unopened n (by omega)
  · rw [hscopes, h.scopes]
    exact List.map_congr_left fun n _ => (hheld n).symm
  · intro hw name hg
    rw [hwarned hw name hg, h.warned hw name hg, Point.collect_concat, List.mem_append]
  · rw [hfindings, h.findings, Point.collect_concat]

theorem pushName (h : Follows rules past around functions p) {kind : PointKind} {span : Span}
    {name : String} {ready : Bool}
    (hkind : kind = .declaration name ∨ kind = .parameter name) (hscopes : q.scopes = p.scopes)
    (hdepth : q.functionDepth = p.functionDepth) (hwarned : q.warned = p.warned)
    (hfindings : q.findings.reverse = p.findings.reverse ++
      Point.findings rules past ⟨kind, span, around⟩) :
    Follows rules (past ++ [⟨kind, span, around⟩]) around functions
      (after (enter name ⟨span, ready⟩) q) := by
  have hdeclares (scope : Nat) : Point.declares? scope ⟨kind, span, around⟩ =
      if around.head? = some scope then some (name, span) else none := by
    rcases hkind with rfl | rfl <;> rfl
  have hunbound : Point.unbound past ⟨kind, span, around⟩ = [] := by
    rcases hkind with rfl | rfl <;> rfl
  refine ⟨fun n hn => ?_, h.nodup, fun n hn => ?_, ?_, hdepth.trans h.functionDepth, ?_, ?_⟩
  · rw [List.length_append]
    exact Nat.lt_add_right _ (h.opened n hn)
  · rw [List.length_append] at hn
    rw [Point.held_concat, hdeclares, if_neg, h.unopened n (by omega)]
    · rfl
    · intro hh
      have hlt := h.opened n (List.mem_of_mem_head? hh)
      omega
  · have hs := h.scopes
    have hnd := h.nodup
    change List.map placesOf (q.scopes.modifyHead ((name, ⟨span, ready⟩) :: ·)) = _
    rw [hscopes]
    -- only the innermost scope gets the name, since the scopes around have other numbers
    cases hp : p.scopes with
    | nil =>
      rw [hp, List.map_nil, eq_comm, List.map_eq_nil_iff] at hs
      rw [hs]
      rfl
    | cons scope scopes =>
      rw [hp, List.map_cons, eq_comm, List.map_eq_cons_iff] at hs
      obtain ⟨n, outer, rfl, hn, houter⟩ := hs
      rw [List.modifyHead_cons, List.map_cons, List.map_cons, Point.held_concat, hdeclares, hn,
        if_pos List.head?_cons, ← houter]
      refine congrArg (List.cons _) (List.map_congr_left fun m hm => ?_)
      rw [Point.held_concat, hdeclares, if_neg]
      · rfl
      · intro he
        obtain rfl := Option.some.inj he
        exact (List.nodup_cons.1 hnd).1 hm
  · intro hw x hg
    change x ∈ q.warned ↔ _
    rw [hwarned, h.warned hw x hg, Point.collect_concat, hunbound, List.append_nil]
  · change q.findings.reverse = _
    rw [hfindings, h.findings, Point.collect_concat]

theorem pushScope (h : Follows rules past around functions p) (span : Span) :
    Follows rules (past ++ [⟨.scope, span, around⟩]) (past.length :: around) functions
      (after openScope p) := by
  have hheld (n : Nat) : Point.held (past ++ [⟨.scope, span, around⟩]) n = Point.held past n :=
    Point.held_concat past _ n
  refine ⟨?_, ?_, fun n hn => ?_, ?_, h.functionDepth, fun hw name hg => ?_, ?_⟩
  · rw [List.length_append, List.forall_mem_cons]
    exact ⟨Nat.lt_succ_self _, fun n hn => Nat.lt_succ_of_lt (h.opened n hn)⟩
  · exact List.nodup_cons.2 ⟨fun hm => Nat.lt_irrefl _ (h.opened _ hm), h.nodup⟩
  · rw [List.length_append] at hn
    rw [hheld]
    exact h.unopened n (by omega)
  · change [] :: p.scopes.map placesOf = _
    rw [h.scopes, List.map_cons, hheld, h.unopened _ (Nat.le_refl _)]
    exact congrArg _ (List.map_congr_left fun n _ => (hheld n).symm)
  · rw [Point.collect_concat]
    exact (h.warned hw name hg).trans (by rw [Point.unbound, List.append_nil])
  · rw [Point.collect_concat]
    exact h.findings.trans (List.append_nil _).symm

theorem leave {scope : Nat} (h : Follows rules past (scope :: around) functions p) :
    Follows rules past around functions (after closeScope p) where
  opened n hn := h.opened n (List.mem_cons_of_mem _ hn)
  nodup := (List.nodup_cons.1 h.nodup).2
  unopened := h.unopened
  scopes := by
    change p.scopes.tail.map placesOf = _
    rw [List.map_tail, h.scopes]
    rfl
  functionDepth := h.functionDepth
  warned := h.warned
  findings := h.findings

theorem pushDeclaration (h : Follows rules past around functions p) (name : String) (span : Span)
    (ready : Bool) :
    Follows rules (past ++ [⟨.declaration name, span, around⟩]) around functions
      (after (declare rules name span ready) p) := by
  have hprevious := h.previous?_eq (.declaration name) span name
  rw [after_declare]
  cases hb : p.binding? name with
  | none =>
    refine h.pushName (Or.inl rfl) rfl rfl rfl ?_
    simp [Point.findings, hprevious, hb]
  | some b =>
    cases hr : rules.allowRedeclaration with
    | true =>
      refine h.pushName (Or.inl rfl) rfl rfl rfl ?_
      simp [Point.findings, hr]
    | false =>
      refine h.pushName (Or.inl rfl) rfl rfl rfl ?_
      simp [Point.findings, hprevious, hb, hr, after_note]

theorem pushParams (h : Follows rules past around functions p) (params : List Parameter) :
    Follows rules (past ++ paramPoints around params) around functions
      (after (declareParams params) p) := by
  induction params generalizing past p with
  | nil =>
    rw [paramPoints, List.map_nil, List.append_nil]
    exact h
  | cons x xs ih =>
    have hprevious := h.previous?_eq (.parameter x.name) x.span x.name
    rw [after_declareParams_cons, paramPoints, List.map_cons, List.append_cons]
    refine ih ?_
    cases hb : p.binding? x.name with
    | none =>
      refine h.pushName (Or.inr rfl) rfl rfl rfl ?_
      simp [Point.findings, hprevious, hb]
    | some b =>
      refine h.pushName (Or.inr rfl) rfl rfl rfl ?_
      simp [Point.findings, hprevious, hb, after_note]

theorem pushReturn (h : Follows rules past around functions p) (span : Span) :
    Follows rules (past ++ [⟨.ret functions, span, around⟩]) around functions
      (after (checkReturn span) p) := by
  have hunbound : Point.unbound past ⟨.ret functions, span, around⟩ = [] := rfl
  rw [after_checkReturn, h.functionDepth]
  split
  · refine h.push (fun _ => rfl) rfl rfl ?_ ?_
    · simp [hunbound, after_note]
    · simp [Point.findings, after_note, *]
  · refine h.push (fun _ => rfl) rfl rfl ?_ ?_
    · simp [hunbound]
    · simp [Point.findings, *]

theorem isNew_eq (h : Follows rules past around functions p) (name : String) :
    (rules.warnUndefined && !rules.isGlobal name && !p.warned.contains name) =
      (rules.warnUndefined && !rules.isGlobal name &&
        !(Point.collect Point.unbound [] past).contains name) := by
  cases hw : rules.warnUndefined with
  | false => rfl
  | true =>
    cases hg : rules.isGlobal name with
    | true => rfl
    | false =>
      have hseen := h.warned hw name hg
      rw [← List.contains_iff_mem, ← List.contains_iff_mem, ← Bool.eq_iff_iff] at hseen
      rw [hseen]

/-- A reference, where `noted` is what else has been found wrong with it. -/
theorem pushReference (h : Follows rules past around functions p) {kind : PointKind} {span : Span}
    {name : String} (node : ι) (noted : List Finding)
    (hnot : ∀ scope, Point.declares? scope ⟨kind, span, around⟩ = none)
    (hunbound : Point.unbound past ⟨kind, span, around⟩ =
      if Point.isBound past ⟨kind, span, around⟩ name then [] else [name])
    (hfindings : Point.findings rules past ⟨kind, span, around⟩ =
      noted.reverse ++ Point.warnings rules past ⟨kind, span, around⟩) :
    Follows rules (past ++ [⟨kind, span, around⟩]) around functions
      (after (locate rules node name span) { p with findings := noted ++ p.findings }) := by
  have hbound := h.isBound_eq kind span name
  have hnames : Progress.names { p with findings := noted ++ p.findings } = p.names := rfl
  rw [after_locate, hnames]
  cases hn : hopsIn name p.names with
  | some n =>
    rw [hn, Option.isSome_some] at hbound
    rw [if_pos hbound] at hunbound
    refine h.push hnot rfl rfl ?_ ?_
    · simp [hunbound]
    · simp [hfindings, Point.warnings, hunbound]
  | none =>
    rw [hn, Option.isSome_none] at hbound
    rw [hbound, if_neg Bool.false_ne_true] at hunbound
    have hnew := h.isNew_eq name
    dsimp only
    split
    · rename_i hwarn
      rw [hwarn] at hnew
      refine h.push hnot rfl rfl ?_ ?_
      · simp [hunbound, after_note, or_comm]
      · have hone : Point.warnings rules past ⟨kind, span, around⟩ = [⟨.undefinedGlobal name, span⟩] := by
          rw [Point.warnings, hunbound, List.filter_singleton, ← hnew]
          rfl
        simp [hfindings, hone, after_note]
    · rename_i hold
      rw [Bool.not_eq_true] at hold
      rw [hold] at hnew
      refine h.push hnot rfl rfl ?_ ?_
      · intro hw x hg
        have hseen : x = name → x ∈ p.warned := by
          rintro rfl
          simpa [hw, hg] using hold
        simpa [hunbound] using hseen
      · have hnone : Point.warnings rules past ⟨kind, span, around⟩ = [] := by
          rw [Point.warnings, hunbound, List.filter_singleton, ← hnew]
          rfl
        simp [hfindings, hnone]

theorem pushAssignment (h : Follows rules past around functions p) (name : String) (span : Span)
    (node : ι) :
    Follows rules (past ++ [⟨.assignment name, span, around⟩]) around functions
      (after (locate rules node name span) p) :=
  h.pushReference node [] (fun _ => rfl) rfl rfl

/-! ### Functions -/

theorem beginFunction (h : Follows rules past around functions p) (span : Span)
    (params : List Parameter) :
    Follows rules (past ++ [⟨.scope, span, around⟩] ++ paramPoints (past.length :: around) params)
      (past.length :: around) (functions + 1) (after (beginFunction params) p) := by
  have hdeep : Follows rules past around (functions + 1)
      { p with functionDepth := p.functionDepth + 1 } :=
    { h with functionDepth := congrArg (· + 1) h.functionDepth }
  exact (hdeep.pushScope span).pushParams params

theorem endFunction {scope : Nat} (h : Follows rules past (scope :: around) (functions + 1) p) :
    Follows rules past around functions (after endFunction p) :=
  { h.leave with functionDepth := congrArg (· - 1) h.functionDepth }

end Follows

/-! ### Expressions -/

/-- Only the name that is being initialized may not be read. -/
def Initializing (name : Option String) (p : Progress ι) : Prop :=
  ∀ x, p.MayRead x ↔ ¬ (name = some x ∧ p.scopes ≠ [])

theorem Progress.AllReady.initializing (h : p.AllReady) : Initializing none p := fun x =>
  iff_of_true (h.mayRead x) fun hyp => nomatch hyp.1

theorem Initializing.passed {name : Option String} (h : Initializing name p)
    {marks : List (ι × Option Nat)} {ok : Prop} (hq : Passed marks ok p q) : Initializing name q := by
  intro x
  rw [hq.mayRead_iff, hq.scopes]
  exact h x

theorem Follows.pushReading (h : Follows rules past around functions p) {initializing : Option String}
    (hi : Initializing initializing p) (name : String) (span : Span) (node : ι) :
    Follows rules (past ++ [⟨.reading name initializing, span, around⟩]) around functions
      (after (checkReady name span >>= fun _ => locate rules node name span) p) := by
  have hlocal : p.scopes ≠ [] ↔ around ≠ [] := by
    rw [← List.length_pos_iff, ← List.length_pos_iff, h.length_eq]
  have hself := hi name
  rw [hlocal] at hself
  have hready (hyp : p.MayRead name) :
      Follows rules (past ++ [⟨.reading name initializing, span, around⟩]) around functions
        (after (locate rules node name span) p) :=
    h.pushReference node [] (fun _ => rfl) rfl
      (congrArg (· ++ Point.warnings rules past _) (if_neg (hself.1 hyp)))
  rw [after_bind, after_checkReady]
  cases hb : p.binding? name with
  | none => exact hready fun b hb' => nomatch hb.symm.trans hb'
  | some b =>
    cases hr : b.ready with
    | true =>
      simp only [hr, if_true]
      exact hready fun b' hb' => Option.some.inj (hb.symm.trans hb') ▸ hr
    | false =>
      simp only [hr, Bool.false_eq_true, if_false]
      have hnot : ¬ p.MayRead name := fun hyp => Bool.false_ne_true (hr.symm.trans (hyp b hb))
      have hyp := not_not.1 (mt hself.2 hnot)
      exact h.pushReference node [⟨.selfReference name, span⟩] (fun _ => rfl) rfl
        (congrArg (· ++ Point.warnings rules past _) (if_pos hyp))

mutual

theorem Follows.expr {past : List Point} {p : Progress ι}
    (h : Follows rules past around functions p) {initializing : Option String}
    (hi : Initializing initializing p) (e : Expr ι) :
    Follows rules (past ++ e.points around initializing) around functions
      (after (walkExpr rules e) p) := by
  cases e with
  | literal span v =>
    rw [Expr.points, List.append_nil]
    exact h
  | varRef span name node => exact h.pushReading hi name span node
  | assign span name node value =>
    rw [walkExpr, after_bind, Expr.points, ← List.append_assoc]
    exact (h.expr hi value).pushAssignment name span node
  | unary span op operand => exact h.expr hi operand
  | binary span op left right | logical span op left right =>
    rw [walkExpr, after_bind, Expr.points, ← List.append_assoc]
    exact (h.expr hi left).expr (hi.passed (passed_expr rules left p)) right
  | call span callee arguments =>
    rw [walkExpr, after_bind, Expr.points, ← List.append_assoc]
    exact (h.expr hi callee).exprs (hi.passed (passed_expr rules callee p)) arguments
  | group span inner => exact h.expr hi inner

theorem Follows.exprs {past : List Point} {p : Progress ι}
    (h : Follows rules past around functions p) {initializing : Option String}
    (hi : Initializing initializing p) (es : List (Expr ι)) :
    Follows rules (past ++ Expr.pointsAll around initializing es) around functions
      (after (walkExprs rules es) p) := by
  cases es with
  | nil =>
    rw [Expr.pointsAll, List.append_nil]
    exact h
  | cons e es =>
    rw [walkExprs, after_bind, Expr.pointsAll, ← List.append_assoc]
    exact (h.expr hi e).exprs (hi.passed (passed_expr rules e p)) es

end

theorem Follows.optional (h : Follows rules past around functions p) {initializing : Option String}
    (hi : Initializing initializing p) (e : Option (Expr ι)) :
    Follows rules (past ++ Expr.optionalPoints around initializing e) around functions
      (after (walkOptional rules e) p) := by
  cases e with
  | none =>
    rw [Expr.optionalPoints, Option.elim_none, List.append_nil]
    exact h
  | some e => exact h.expr hi e

/-! ### Statements -/

theorem Follows.define (h : Follows rules past around functions p) (name : String) :
    Follows rules past around functions (after (define name) p) := by
  have hready (scope : Scope) : placesOf (scope.map (readyEntry name)) = placesOf scope := by
    rw [placesOf, List.map_map]
    refine List.map_congr_left fun e _ => ?_
    rw [Function.comp_apply, readyEntry]
    split <;> rfl
  refine { h with scopes := ?_ }
  rw [scopes_define, ← h.scopes]
  cases p.scopes with
  | nil => rfl
  | cons scope scopes => exact congrArg (· :: _) (hready scope)

theorem Declared.initializing {name : String} {span : Span} {ok : Prop} (hp : p.AllReady)
    (h : Declared name ⟨span, false⟩ ok p q) : Initializing (some name) q := by
  intro x
  have hscopes : p.names ≠ [] ↔ q.scopes ≠ [] := by
    rw [h.scopes, Progress.names]
    cases p.scopes <;> simp
  rw [h.mayRead_iff hp, hscopes, Option.some.injEq, and_comm, not_and]
  exact forall_congr' fun _ => ne_comm

mutual

theorem Follows.stmt {past : List Point} {around : List Nat} {functions : Nat} {p : Progress ι}
    (h : Follows rules past around functions p) (hp : p.AllReady) (s : Stmt ι) :
    Follows rules (past ++ s.points around functions past.length) around functions
      (after (walkStmt rules s) p) := by
  cases s with
  | expression span e | print span e => exact h.expr hp.initializing e
  | varDecl span name e =>
    have hi := Declared.initializing hp (declared_declare rules name span false p)
    rw [walkStmt, after_bind, after_bind, Stmt.points, List.append_cons]
    exact ((h.pushDeclaration name span false).optional hi e).define name
  | block span body =>
    have hopen := h.pushScope span
    have hbody := hopen.stmts (hp.opened p.functionDepth) body
    rw [List.length_append] at hbody
    rw [walkStmt, after_bind, after_bind, Stmt.points, List.append_cons]
    exact hbody.leave
  | conditional span c t e =>
    have hc := h.expr hp.initializing c
    have hcp := ((passed_expr rules c p).walked hp).ready
    have ht := hc.stmt hcp t
    rw [List.length_append] at ht
    cases e with
    | none =>
      rw [walkStmt, after_bind, Stmt.points, ← List.append_assoc]
      exact ht
    | some e =>
      have he := ht.stmt (walked_stmt rules t hcp).ready e
      rw [List.append_assoc past, List.length_append] at he
      rw [walkStmt, after_bind, after_bind, Stmt.points, ← List.append_assoc]
      exact he
  | loop span c b =>
    have hb := (h.expr hp.initializing c).stmt ((passed_expr rules c p).walked hp).ready b
    rw [List.length_append] at hb
    rw [walkStmt, after_bind, Stmt.points, ← List.append_assoc]
    exact hb
  | funDecl span name params body =>
    have hd := h.pushDeclaration name span true
    have hready := ((declared_declare rules name span true p).walked hp).ready
    have hb := (hd.beginFunction span params).stmts (walked_beginFunction params hready).ready body
    have hscope : (past ++ [(⟨.declaration name, span, around⟩ : Point)]).length = past.length + 1 :=
      List.length_append
    rw [hscope, List.append_assoc (past ++ _), List.append_assoc past, List.length_append] at hb
    rw [walkStmt, after_bind, after_bind, after_bind, Stmt.points, ← List.append_assoc]
    exact hb.endFunction
  | ret span e =>
    rw [walkStmt, after_bind, Stmt.points, List.append_cons]
    exact (h.pushReturn span).optional
      (hp.initializing.passed (passed_checkReturn span p)) e

theorem Follows.stmts {past : List Point} {around : List Nat} {functions : Nat} {p : Progress ι}
    (h : Follows rules past around functions p) (hp : p.AllReady) (ss : List (Stmt ι)) :
    Follows rules (past ++ Stmt.pointsAll around functions past.length ss) around functions
      (after (walkStmts rules ss) p) := by
  cases ss with
  | nil =>
    rw [Stmt.pointsAll, List.append_nil]
    exact h
  | cons s ss =>
    have hss := (h.stmt hp s).stmts (walked_stmt rules s hp).ready ss
    rw [List.length_append] at hss
    rw [walkStmts, after_bind, Stmt.pointsAll, ← List.append_assoc]
    exact hss

end

/-! ### Programs -/

theorem findings_ofProgram (config : Config) (natives : List String) (p : Program Unit) :
    (ofProgram config natives p).findings = p.pointFindings (rulesFor config natives p) := by
  let rules := rulesFor config natives p
  have hready : ({} : Progress Nat).AllReady := fun _ h => absurd h List.not_mem_nil
  have hwalk := (follows_nothing rules).stmts hready p.numbered.statements
  rw [List.nil_append] at hwalk
  have hwalked : walkedFrom rules {} p = after (walkStmts rules p.numbered.statements) {} := by
    rw [walkedFrom, walkProgram_eq]
    rfl
  rw [ofProgram_eq, hwalked, Program.pointFindings, ← p.points_numbered]
  exact hwalk.findings

/-! ### Limits -/

theorem limitErrors_sublist (limit : Nat) (fs : List Finding) :
    (Finding.limitErrors limit fs).Sublist fs := by
  induction fs generalizing limit with
  | nil => exact List.Sublist.slnil
  | cons f fs ih =>
    by_cases h : f.isError = true
    · cases limit with
      | zero => simpa [Finding.limitErrors, h] using (ih 0).cons f
      | succ limit => simpa [Finding.limitErrors, h] using ih limit
    · simpa [Finding.limitErrors, h] using ih limit

theorem limitErrors_of_le {limit : Nat} {fs : List Finding}
    (h : (fs.filter Finding.isError).length ≤ limit) : Finding.limitErrors limit fs = fs := by
  induction fs generalizing limit with
  | nil => rfl
  | cons f fs ih =>
    by_cases he : f.isError = true
    · rw [List.filter_cons_of_pos he, List.length_cons] at h
      cases limit with
      | zero => exact absurd h (Nat.not_succ_le_zero _)
      | succ limit => simpa [Finding.limitErrors, he] using ih (Nat.le_of_succ_le_succ h)
    · rw [List.filter_cons_of_neg he] at h
      simpa [Finding.limitErrors, he] using ih h

theorem any_isError_limitErrors (limit : Limit) (fs : List Finding) :
    (Finding.limitErrors limit.val fs).any Finding.isError = fs.any Finding.isError := by
  have hpos := limit.property
  have hempty : (Finding.limitErrors limit.val fs).filter Finding.isError = [] ↔
      fs.filter Finding.isError = [] := by
    rw [Finding.filter_isError_limitErrors, List.take_eq_nil_iff]
    exact or_iff_right (Nat.ne_of_gt hpos)
  rw [Bool.eq_iff_iff, ← not_iff_not, List.any_eq_true, List.any_eq_true]
  simpa [List.filter_eq_nil_iff] using hempty

/-- What is wrong with a program is what the rules say of its points, in their order. Under every limit
on errors the diagnostics are some of these: all warnings, and the errors up to the limit. Whether there
are errors does not depend on the limit. -/
theorem diagnostics_ofProgram (config : Config) (natives : List String) (p : Program Unit) :
    let full := (p.pointFindings (rulesFor config natives p)).map Finding.diagnostic
    ∀ limit : Limit,
      let limited := { config with maxErrors := limit }
      let resolution := ofProgram limited natives p
      let shown := resolution.diagnostics limited
      shown.Sublist full ∧
        shown.filter Diagnostic.isError = (full.filter Diagnostic.isError).take limit.val ∧
        (shown.filter fun d => !d.isError) = (full.filter fun d => !d.isError) ∧
        ((full.filter Diagnostic.isError).length ≤ limit.val → shown = full) ∧
        resolution.hasErrors = full.any Diagnostic.isError ∧
        resolution.hasErrors = shown.any Diagnostic.isError := by
  intro full limit limited resolution shown
  let found := p.pointFindings (rulesFor config natives p)
  have hfound : resolution.findings = found := findings_ofProgram limited natives p
  have hshown : shown = (Finding.limitErrors limit.val found).map Finding.diagnostic := by
    rw [← hfound]
    rfl
  have herrors (fs : List Finding) : (fs.map Finding.diagnostic).filter Diagnostic.isError =
      (fs.filter Finding.isError).map Finding.diagnostic := List.filter_map
  have hwarnings (fs : List Finding) : ((fs.map Finding.diagnostic).filter fun d => !d.isError) =
      (fs.filter fun f => !f.isError).map Finding.diagnostic := List.filter_map
  have hany (fs : List Finding) :
      (fs.map Finding.diagnostic).any Diagnostic.isError = fs.any Finding.isError := List.any_map
  refine ⟨?_, ?_, ?_, fun hle => ?_, ?_, ?_⟩
  · rw [hshown]
    exact (limitErrors_sublist limit.val found).map _
  · rw [hshown, herrors, herrors, Finding.filter_isError_limitErrors, List.map_take]
  · rw [hshown, hwarnings, hwarnings, Finding.filter_not_isError_limitErrors]
  · rw [herrors, List.length_map] at hle
    rw [hshown, limitErrors_of_le hle]
  · rw [hany, hasErrors, hfound]
  · rw [hshown, hany, any_isError_limitErrors, hasErrors, hfound]

end Lox.Resolution
