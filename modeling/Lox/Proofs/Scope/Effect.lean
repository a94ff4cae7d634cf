import Lox.Proofs.Scope.Accepted
import Lox.Proofs.Scope.Labels
import Lox.Proofs.Scope.Recursion

/-!
# What the walk does

The walk over a tree changes its state as the rule of lexical scopes says: the open scopes hold what the
tree declares, each reference of the tree is bound by its hops, and no error is noted exactly if the
tree is accepted. One lemma for each step of the walk, and from these one induction over the tree.
-/

namespace Lox.Resolution

variable {ι : Type}

/-! ### Views of the state -/

def Progress.names (p : Progress ι) : List (List String) := p.scopes.map fun s => s.map Prod.fst

def Progress.Clean (p : Progress ι) : Prop := ∀ f ∈ p.findings, f.isError = false

def Progress.AllReady (p : Progress ι) : Prop := ∀ s ∈ p.scopes, ∀ e ∈ s, e.2.ready = true

def Progress.binding? (p : Progress ι) (name : String) : Option Binding :=
  p.scopes.head?.bind fun scope => scope.lookup name

def Progress.MayRead (p : Progress ι) (name : String) : Prop :=
  ∀ b, p.binding? name = some b → b.ready = true

def Progress.inFunction (p : Progress ι) : Bool := p.functionDepth != 0

def after (m : Walk ι Unit) (p : Progress ι) : Progress ι := (m.run p).2

theorem after_bind (m n : Walk ι Unit) (p : Progress ι) :
    after (m >>= fun _ => n) p = after n (after m p) := rfl

theorem lookup_isSome_eq (name : String) (scope : Scope) :
    (scope.lookup name).isSome = (scope.map Prod.fst).contains name := by
  rw [Bool.eq_iff_iff, List.lookup_isSome_iff, List.contains_iff_mem, List.mem_map]
  constructor
  · intro h
    obtain ⟨e, he, hn⟩ := h
    exact ⟨e, he, (beq_iff_eq.1 hn).symm⟩
  · intro h
    obtain ⟨e, he, rfl⟩ := h
    exact ⟨e, he, beq_self_eq_true _⟩

theorem hops?_eq (name : String) (p : Progress ι) : hops? name p.scopes = hopsIn name p.names := by
  simp only [hops?, hopsIn, Progress.names, List.findIdx?_map, Function.comp_def, lookup_isSome_eq]

theorem Progress.AllReady.mayRead {p : Progress ι} (h : p.AllReady) (name : String) :
    p.MayRead name := by
  intro b hb
  obtain ⟨scope, hs, hl⟩ := Option.bind_eq_some_iff.1 hb
  obtain ⟨l₁, l₂, rfl, -⟩ := List.lookup_eq_some_iff.1 hl
  exact h _ (List.mem_of_mem_head? hs) (name, b) (by simp)

/-! ### Expressions -/

/-- A part of the walk that leaves the scopes as they are: it has bound what `marks` says, and noted no
error if `ok`. -/
structure Passed (marks : List (ι × Option Nat)) (ok : Prop) (p q : Progress ι) : Prop where
  scopes : q.scopes = p.scopes
  functionDepth : q.functionDepth = p.functionDepth
  bindings : ∀ i k, (i, k) ∈ q.bindings ↔ (i, some k) ∈ marks ∨ (i, k) ∈ p.bindings
  clean : q.Clean ↔ p.Clean ∧ ok

theorem Passed.refl (p : Progress ι) : Passed [] True p p where
  scopes := rfl
  functionDepth := rfl
  bindings := fun i k => by simp
  clean := by simp

theorem Passed.trans {marks marks' : List (ι × Option Nat)} {ok ok' : Prop} {p q r : Progress ι}
    (h : Passed marks ok p q) (h' : Passed marks' ok' q r) :
    Passed (marks ++ marks') (ok ∧ ok') p r where
  scopes := h'.scopes.trans h.scopes
  functionDepth := h'.functionDepth.trans h.functionDepth
  bindings := fun i k => by
    rw [h'.bindings, h.bindings, List.mem_append]
    exact ⟨fun hm => by rcases hm with hm | hm | hm <;> simp [hm],
      fun hm => by rcases hm with (hm | hm) | hm <;> simp [hm]⟩
  clean := by rw [h'.clean, h.clean, and_assoc]

theorem Passed.congr {marks marks' : List (ι × Option Nat)} {ok ok' : Prop} {p q : Progress ι}
    (h : Passed marks ok p q) (hm : ∀ m, m ∈ marks ↔ m ∈ marks') (ho : ok ↔ ok') :
    Passed marks' ok' p q where
  scopes := h.scopes
  functionDepth := h.functionDepth
  bindings := fun i k => by rw [h.bindings, hm]
  clean := by rw [h.clean, ho]

theorem Passed.names {marks : List (ι × Option Nat)} {ok : Prop} {p q : Progress ι}
    (h : Passed marks ok p q) : q.names = p.names := by
  rw [Progress.names, h.scopes, Progress.names]

theorem Passed.mayRead_iff {marks : List (ι × Option Nat)} {ok : Prop} {p q : Progress ι}
    (h : Passed marks ok p q) (name : String) : q.MayRead name ↔ p.MayRead name := by
  simp only [Progress.MayRead, Progress.binding?, h.scopes]

theorem after_note (issue : ScopeIssue) (span : Span) (p : Progress ι) :
    after (note issue span) p = { p with findings := ⟨issue, span⟩ :: p.findings } := rfl

theorem passed_note (issue : ScopeIssue) (span : Span) {ok : Prop}
    (h : (⟨issue, span⟩ : Finding).isError = false ↔ ok) (p : Progress ι) :
    Passed [] ok p (after (note issue span) p) where
  scopes := rfl
  functionDepth := rfl
  bindings := fun i k => by simp [after_note]
  clean := by
    rw [after_note, Progress.Clean, List.forall_mem_cons, h, and_comm]
    rfl

theorem after_checkReady (name : String) (span : Span) (p : Progress ι) :
    after (checkReady name span) p =
      match p.binding? name with
      | none => p
      | some b => if b.ready then p else after (note (.selfReference name) span) p := by
  obtain ⟨scopes, _, _, _, _⟩ := p
  cases scopes with
  | nil => rfl
  | cons scope scopes =>
    simp only [Progress.binding?, List.head?_cons, Option.bind_some]
    cases hb : scope.lookup name with
    | none =>
      simp only [after, checkReady, innermost?, StateT.run_bind, StateT.run_get, pure_bind,
        List.head?_cons, StateT.run_pure, hb]
      rfl
    | some b =>
      cases hr : b.ready with
      | true =>
        simp only [after, checkReady, innermost?, StateT.run_bind, StateT.run_get, pure_bind,
          List.head?_cons, StateT.run_pure, hb, hr]
        rfl
      | false =>
        simp only [after, checkReady, innermost?, StateT.run_bind, StateT.run_get, pure_bind,
          List.head?_cons, StateT.run_pure, hb, hr]
        rfl

theorem passed_checkReady (name : String) (span : Span) (p : Progress ι) :
    Passed [] (p.MayRead name) p (after (checkReady name span) p) := by
  rw [after_checkReady]
  cases hb : p.binding? name with
  | none =>
    have hm : p.MayRead name := fun b h => by
      rw [hb] at h
      cases h
    exact (Passed.refl p).congr (fun _ => Iff.rfl) (iff_of_true trivial hm)
  | some b =>
    cases hr : b.ready with
    | true =>
      have hm : p.MayRead name := fun b' h => by
        rw [hb] at h
        cases h
        exact hr
      simp only [hr, if_true]
      exact (Passed.refl p).congr (fun _ => Iff.rfl) (iff_of_true trivial hm)
    | false =>
      have hm : ¬ p.MayRead name := fun h => by
        have h' := h b hb
        rw [hr] at h'
        cases h'
      simp only [hr, Bool.false_eq_true, if_false]
      exact passed_note _ _ (iff_of_false (fun h => by cases h) hm) p

theorem after_locate (rules : Rules) (node : ι) (name : String) (span : Span) (p : Progress ι) :
    after (locate rules node name span) p =
      match hopsIn name p.names with
      | some n => { p with bindings := (node, n) :: p.bindings }
      | none =>
        if rules.warnUndefined && !rules.isGlobal name && !p.warned.contains name then
          after (note (.undefinedGlobal name) span) { p with warned := name :: p.warned }
        else p := by
  rw [← hops?_eq]
  cases hn : hops? name p.scopes with
  | some n =>
    simp only [after, locate, StateT.run_bind, StateT.run_get, pure_bind, hn]
    rfl
  | none =>
    simp only [after, locate, StateT.run_bind, StateT.run_get, pure_bind, hn]
    split <;> rfl

theorem passed_locate (rules : Rules) (node : ι) (name : String) (span : Span) (p : Progress ι) :
    Passed [(node, hopsIn name p.names)] True p (after (locate rules node name span) p) := by
  rw [after_locate]
  cases hn : hopsIn name p.names with
  | some n =>
    exact
      { scopes := rfl
        functionDepth := rfl
        bindings := fun i k => by simp
        clean := (and_iff_left trivial).symm }
  | none =>
    have unbound {ok : Prop} {q : Progress ι} (h : Passed [] ok p q) :
        Passed [(node, none)] ok p q := by
      refine { h with bindings := fun i k => ?_ }
      rw [h.bindings]
      simp
    dsimp only
    split
    · have h := passed_note (.undefinedGlobal name) span (iff_of_true rfl trivial)
        { p with warned := name :: p.warned }
      exact unbound ⟨h.scopes, h.functionDepth, h.bindings, h.clean⟩
    · exact unbound (Passed.refl p)

theorem Passed.both {marks marks' : List (ι × Option Nat)} {xs ys : List String}
    {p q r : Progress ι} (h : Passed marks (∀ x ∈ xs, p.MayRead x) p q)
    (h' : Passed marks' (∀ y ∈ ys, q.MayRead y) q r) :
    Passed (marks ++ marks') (∀ x ∈ xs ++ ys, p.MayRead x) p r := by
  refine (h.trans h').congr (fun _ => Iff.rfl) ?_
  simp only [List.mem_append, or_imp, forall_and, h.mayRead_iff]

mutual

theorem passed_expr (rules : Rules) (e : Expr ι) (p : Progress ι) :
    Passed (exprMarks p.names e) (∀ x ∈ e.reads, p.MayRead x) p (after (walkExpr rules e) p) := by
  cases e with
  | literal span v =>
    exact (Passed.refl p).congr (fun _ => Iff.rfl)
      (iff_of_true trivial fun x hx => absurd hx List.not_mem_nil)
  | varRef span name node =>
    rw [walkExpr, after_bind]
    have h := passed_checkReady name span p
    have h' := passed_locate rules node name span (after (checkReady name span) p)
    rw [h.names] at h'
    refine (h.trans h').congr (fun _ => Iff.rfl) ?_
    simp [Expr.reads, Expr.references, Reference.namesOf]
  | assign span name node value =>
    rw [walkExpr, after_bind]
    have h := passed_expr rules value p
    have h' := passed_locate rules node name span (after (walkExpr rules value) p)
    rw [h.names] at h'
    refine (h.trans h').congr (fun m => ?_) ?_
    · simp [exprMarks, Expr.annotate, Expr.references, or_comm]
    · simp [Expr.reads, Expr.references, Reference.namesOf]
  | unary span op operand => exact passed_expr rules operand p
  | binary span op left right =>
    rw [walkExpr, after_bind]
    have h := passed_expr rules left p
    have h' := passed_expr rules right (after (walkExpr rules left) p)
    rw [h.names] at h'
    refine (h.both h').congr (fun m => ?_) ?_
    · simp only [exprMarks, Expr.annotate, Expr.references, List.map_append]
    · simp only [Expr.reads, Expr.references, Reference.namesOf_append]
  | logical span op left right =>
    rw [walkExpr, after_bind]
    have h := passed_expr rules left p
    have h' := passed_expr rules right (after (walkExpr rules left) p)
    rw [h.names] at h'
    refine (h.both h').congr (fun m => ?_) ?_
    · simp only [exprMarks, Expr.annotate, Expr.references, List.map_append]
    · simp only [Expr.reads, Expr.references, Reference.namesOf_append]
  | call span callee arguments =>
    rw [walkExpr, after_bind]
    have h := passed_expr rules callee p
    have h' := passed_exprs rules arguments (after (walkExpr rules callee) p)
    rw [h.names] at h'
    refine (h.both h').congr (fun m => ?_) ?_
    · simp only [exprMarks, exprsMarks, Expr.annotate, Expr.references, List.map_append]
    · simp only [Expr.reads, Expr.readsAll, Expr.references, Reference.namesOf_append]
  | group span inner => exact passed_expr rules inner p

theorem passed_exprs (rules : Rules) (es : List (Expr ι)) (p : Progress ι) :
    Passed (exprsMarks p.names es) (∀ x ∈ Expr.readsAll es, p.MayRead x) p
      (after (walkExprs rules es) p) := by
  cases es with
  | nil =>
    exact (Passed.refl p).congr (fun _ => Iff.rfl)
      (iff_of_true trivial fun x hx => absurd hx List.not_mem_nil)
  | cons e es =>
    rw [walkExprs, after_bind]
    have h := passed_expr rules e p
    have h' := passed_exprs rules es (after (walkExpr rules e) p)
    rw [h.names] at h'
    refine (h.both h').congr (fun m => ?_) ?_
    · simp only [exprMarks, exprsMarks, Expr.annotateAll, Expr.referencesAll, List.map_append]
    · simp only [Expr.reads, Expr.readsAll, Expr.referencesAll, Reference.namesOf_append]

end

theorem passed_optional (rules : Rules) (e : Option (Expr ι)) (p : Progress ι) :
    Passed (optionalMarks p.names e) (∀ e', e = some e' → ∀ x ∈ e'.reads, p.MayRead x) p
      (after (walkOptional rules e) p) := by
  cases e with
  | none => exact (Passed.refl p).congr (fun _ => Iff.rfl) (iff_of_true trivial fun e' h => nomatch h)
  | some e =>
    exact (passed_expr rules e p).congr (fun _ => Iff.rfl)
      ⟨fun h e' he => Option.some.inj he ▸ h, fun h => h e rfl⟩

/-! ### Declarations -/

/-- A part of the walk between two statements: where all names may be read, `names` is what the open
scopes hold behind it. -/
structure Walked (names : List (List String)) (marks : List (ι × Option Nat)) (ok : Prop)
    (p q : Progress ι) : Prop where
  names : q.names = names
  ready : q.AllReady
  functionDepth : q.functionDepth = p.functionDepth
  bindings : ∀ i k, (i, k) ∈ q.bindings ↔ (i, some k) ∈ marks ∨ (i, k) ∈ p.bindings
  clean : q.Clean ↔ p.Clean ∧ ok

theorem Passed.walked {marks : List (ι × Option Nat)} {ok : Prop} {p q : Progress ι}
    (h : Passed marks ok p q) (hp : p.AllReady) : Walked p.names marks ok p q where
  names := h.names
  ready := by
    rw [Progress.AllReady, h.scopes]
    exact hp
  functionDepth := h.functionDepth
  bindings := h.bindings
  clean := h.clean

theorem Walked.trans {names names' : List (List String)} {marks marks' : List (ι × Option Nat)}
    {ok ok' : Prop} {p q r : Progress ι} (h : Walked names marks ok p q)
    (h' : Walked names' marks' ok' q r) : Walked names' (marks ++ marks') (ok ∧ ok') p r where
  names := h'.names
  ready := h'.ready
  functionDepth := h'.functionDepth.trans h.functionDepth
  bindings := fun i k => by
    rw [h'.bindings, h.bindings, List.mem_append]
    exact ⟨fun hm => by rcases hm with hm | hm | hm <;> simp [hm],
      fun hm => by rcases hm with (hm | hm) | hm <;> simp [hm]⟩
  clean := by rw [h'.clean, h.clean, and_assoc]

theorem Walked.congr {names names' : List (List String)} {marks marks' : List (ι × Option Nat)}
    {ok ok' : Prop} {p q : Progress ι} (h : Walked names marks ok p q) (hn : names = names')
    (hm : marks = marks') (ho : ok ↔ ok') : Walked names' marks' ok' p q where
  names := h.names.trans hn
  ready := h.ready
  functionDepth := h.functionDepth
  bindings := hm ▸ h.bindings
  clean := by rw [h.clean, ho]

/-- A part of the walk that has entered a name in the innermost scope. -/
structure Declared (name : String) (binding : Binding) (ok : Prop) (p q : Progress ι) : Prop where
  scopes : q.scopes = p.scopes.modifyHead ((name, binding) :: ·)
  functionDepth : q.functionDepth = p.functionDepth
  bindings : q.bindings = p.bindings
  clean : q.Clean ↔ p.Clean ∧ ok

theorem Declared.names {name : String} {b : Binding} {ok : Prop} {p q : Progress ι}
    (h : Declared name b ok p q) : q.names = extendScope [name] p.names := by
  rw [Progress.names, h.scopes, Progress.names]
  cases p.scopes <;> rfl

theorem freeIn_names_iff {p : Progress ι} {name : String} :
    FreeIn name p.names ↔ p.binding? name = none := by
  obtain ⟨scopes, _, _, _, _⟩ := p
  cases scopes with
  | nil => exact iff_of_true (freeIn_nil name) rfl
  | cons scope scopes =>
    simp only [Progress.names, Progress.binding?, List.map_cons, freeIn_cons_iff, List.head?_cons,
      Option.bind_some]
    rw [← Option.not_isSome_iff_eq_none, lookup_isSome_eq, List.contains_iff_mem]

theorem after_declare (rules : Rules) (name : String) (span : Span) (ready : Bool)
    (p : Progress ι) :
    after (declare rules name span ready) p =
      after (enter name ⟨span, ready⟩)
        (match p.binding? name with
          | none => p
          | some b =>
            if rules.allowRedeclaration then p
            else after (note (.duplicateDeclaration name b.span) span) p) := by
  obtain ⟨scopes, _, _, _, _⟩ := p
  cases scopes with
  | nil => rfl
  | cons scope scopes =>
    simp only [Progress.binding?, List.head?_cons, Option.bind_some]
    cases hb : scope.lookup name with
    | none =>
      simp only [after, declare, innermost?, StateT.run_bind, StateT.run_get, pure_bind,
        List.head?_cons, StateT.run_pure, hb]
    | some b =>
      cases hr : rules.allowRedeclaration <;>
        simp only [after, declare, innermost?, StateT.run_bind, StateT.run_get, pure_bind,
          List.head?_cons, StateT.run_pure, hb, hr] <;> rfl

theorem declared_declare (rules : Rules) (name : String) (span : Span) (ready : Bool)
    (p : Progress ι) :
    Declared name ⟨span, ready⟩ (MayDeclare rules.allowRedeclaration name p.names) p
      (after (declare rules name span ready) p) := by
  have allowed (h : MayDeclare rules.allowRedeclaration name p.names) :
      Declared name ⟨span, ready⟩ (MayDeclare rules.allowRedeclaration name p.names) p
        (after (enter name ⟨span, ready⟩) p) :=
    ⟨rfl, rfl, rfl, (and_iff_left h).symm⟩
  rw [after_declare]
  cases hb : p.binding? name with
  | none => exact allowed (Or.inr (freeIn_names_iff.2 hb))
  | some b =>
    cases hr : rules.allowRedeclaration with
    | true =>
      rw [hr] at allowed
      exact allowed (Or.inl rfl)
    | false =>
      have hn : ¬ MayDeclare false name p.names := by
        intro hyp
        rcases hyp with h | h
        · cases h
        · rw [freeIn_names_iff, hb] at h
          cases h
      have hc := (passed_note (.duplicateDeclaration name b.span) span
        (iff_of_false (fun h => by cases h) hn) p).clean
      exact ⟨rfl, rfl, rfl, hc⟩

theorem Declared.ready {p q : Progress ι} {name : String} {span : Span} {ok : Prop}
    (h : Declared name ⟨span, true⟩ ok p q) (hp : p.AllReady) : q.AllReady := by
  rw [Progress.AllReady, h.scopes]
  rw [Progress.AllReady] at hp
  cases hs : p.scopes with
  | nil => simp
  | cons scope scopes =>
    rw [hs, List.forall_mem_cons] at hp
    rw [List.modifyHead_cons, List.forall_mem_cons, List.forall_mem_cons]
    exact ⟨⟨rfl, hp.1⟩, hp.2⟩

theorem Declared.walked {p q : Progress ι} {name : String} {span : Span} {ok : Prop}
    (h : Declared name ⟨span, true⟩ ok p q) (hp : p.AllReady) :
    Walked (extendScope [name] p.names) [] ok p q where
  names := h.names
  ready := h.ready hp
  functionDepth := h.functionDepth
  bindings := fun i k => by simp [h.bindings]
  clean := h.clean

theorem Declared.mayRead_iff {p q : Progress ι} {name : String} {span : Span} {ok : Prop}
    (h : Declared name ⟨span, false⟩ ok p q) (hp : p.AllReady) (x : String) :
    q.MayRead x ↔ (p.names ≠ [] → x ≠ name) := by
  have hx := hp.mayRead x
  rw [Progress.MayRead, Progress.binding?, h.scopes, Progress.names]
  rw [Progress.MayRead, Progress.binding?] at hx
  cases hs : p.scopes with
  | nil => simp
  | cons scope scopes =>
    rw [hs] at hx
    simp only [List.head?_cons, Option.bind_some] at hx
    simp only [List.modifyHead_cons, List.head?_cons, Option.bind_some, List.map_cons, ne_eq,
      reduceCtorEq, not_false_eq_true, forall_const, List.lookup_cons]
    by_cases hn : x = name
    · subst hn
      simp
    · have hbeq : (x == name) = false := beq_false_of_ne hn
      simp only [hbeq]
      exact iff_of_true hx hn

def readyEntry (name : String) (e : String × Binding) : String × Binding :=
  if e.1 = name then (e.1, { e.2 with ready := true }) else e

theorem readyEntry_fst (name : String) (e : String × Binding) : (readyEntry name e).1 = e.1 := by
  unfold readyEntry
  split <;> rfl

theorem readyEntry_ready {name : String} {e : String × Binding}
    (h : e.1 = name ∨ e.2.ready = true) : (readyEntry name e).2.ready = true := by
  unfold readyEntry
  split
  · rfl
  · exact h.resolve_left ‹_›

theorem scopes_define (name : String) (p : Progress ι) :
    (after (define name) p).scopes = p.scopes.modifyHead (List.map (readyEntry name)) := rfl

theorem walked_define {p q r : Progress ι} {name : String} {span : Span} {ok ok' : Prop}
    {marks : List (ι × Option Nat)} (h : Declared name ⟨span, false⟩ ok p q) (hp : p.AllReady)
    (hr : Passed marks ok' q r) :
    Walked (extendScope [name] p.names) marks (ok ∧ ok') p (after (define name) r) where
  names := by
    rw [← h.names, ← hr.names, Progress.names, scopes_define, Progress.names]
    cases r.scopes with
    | nil => rfl
    | cons scope scopes =>
      simp only [List.modifyHead_cons, List.map_cons, List.map_map, Function.comp_def,
        readyEntry_fst]
  ready := by
    rw [Progress.AllReady, scopes_define, hr.scopes, h.scopes]
    rw [Progress.AllReady] at hp
    cases hs : p.scopes with
    | nil => simp
    | cons scope scopes =>
      rw [hs, List.forall_mem_cons] at hp
      rw [List.modifyHead_cons, List.modifyHead_cons, List.forall_mem_cons, List.forall_mem_map,
        List.forall_mem_cons]
      exact ⟨⟨readyEntry_ready (Or.inl rfl), fun e he => readyEntry_ready (Or.inr (hp.1 e he))⟩,
        hp.2⟩
  functionDepth := hr.functionDepth.trans h.functionDepth
  bindings := fun i k => (hr.bindings i k).trans (by rw [h.bindings])
  clean := hr.clean.trans (by rw [h.clean, and_assoc])

theorem walked_varDecl (rules : Rules) (name : String) (span : Span) (e : Option (Expr ι))
    {p : Progress ι} (hp : p.AllReady) :
    Walked (extendScope [name] p.names) (optionalMarks (extendScope [name] p.names) e)
      (MayDeclare rules.allowRedeclaration name p.names ∧
        ∀ e', e = some e' → p.names ≠ [] → name ∉ e'.reads) p
      (after (walkStmt rules (.varDecl span name e)) p) := by
  have h := declared_declare rules name span false p
  have h' := passed_optional rules e (after (declare rules name span false) p)
  rw [walkStmt, after_bind, after_bind]
  refine (walked_define h hp h').congr rfl (by rw [h.names]) (and_congr_right fun _ => ?_)
  simp only [h.mayRead_iff hp]
  constructor
  · intro hx e' he hne hmem
    exact hx e' he name hmem hne rfl
  · intro hx e' he x hmem hne heq
    obtain rfl := heq
    exact hx e' he hne hmem

theorem after_declareParams_cons (q : Parameter) (qs : List Parameter) (p : Progress ι) :
    after (declareParams (q :: qs)) p =
      after (declareParams qs)
        (after (enter q.name ⟨q.span, true⟩)
          (match p.binding? q.name with
            | none => p
            | some _ => after (note (.duplicateParameter q.name) q.span) p)) := by
  obtain ⟨scopes, _, _, _, _⟩ := p
  cases scopes with
  | nil => rfl
  | cons scope scopes =>
    simp only [Progress.binding?, List.head?_cons, Option.bind_some]
    cases hb : scope.lookup q.name <;>
      simp only [after, declareParams, innermost?, StateT.run_bind, StateT.run_get, pure_bind,
        List.head?_cons, StateT.run_pure, hb] <;> rfl

theorem declared_param (q : Parameter) (p : Progress ι) :
    Declared q.name ⟨q.span, true⟩ (FreeIn q.name p.names) p
      (after (enter q.name ⟨q.span, true⟩)
        (match p.binding? q.name with
          | none => p
          | some _ => after (note (.duplicateParameter q.name) q.span) p)) := by
  cases hb : p.binding? q.name with
  | none => exact ⟨rfl, rfl, rfl, (and_iff_left (freeIn_names_iff.2 hb)).symm⟩
  | some b =>
    have hn : ¬ FreeIn q.name p.names := fun h => by
      rw [freeIn_names_iff, hb] at h
      cases h
    have hc := (passed_note (.duplicateParameter q.name) q.span
      (iff_of_false (fun h => by cases h) hn) p).clean
    exact ⟨rfl, rfl, rfl, hc⟩

theorem walked_declareParams (params : List Parameter) {p : Progress ι} (hp : p.AllReady)
    (hne : p.names ≠ []) :
    Walked (extendScope (paramNames params) p.names) []
      ((paramNames params).Nodup ∧ ∀ x ∈ paramNames params, FreeIn x p.names) p
      (after (declareParams params) p) := by
  induction params generalizing p with
  | nil =>
    exact ((Passed.refl p).walked hp).congr (extendScope_nothing _).symm rfl
      (iff_of_true trivial ⟨List.nodup_nil, fun x hx => absurd hx List.not_mem_nil⟩)
  | cons q qs ih =>
    rw [after_declareParams_cons]
    have h := declared_param q p
    have hne' : extendScope [q.name] p.names ≠ [] := fun hnil => hne (extendScope_eq_nil_iff.1 hnil)
    have h' := ih (h.ready hp) (h.names ▸ hne')
    rw [h.names] at h'
    refine ((h.walked hp).trans h').congr ?_ rfl ?_
    · rw [paramNames_cons, extendScope_append]
    · simp only [freeIn_extendScope_iff hne, paramNames_cons, List.nodup_append, List.mem_append,
        List.mem_singleton, List.nodup_cons, List.not_mem_nil, not_false_eq_true, List.nodup_nil,
        true_and, or_imp, forall_and, forall_eq]
      constructor
      · intro hyp
        obtain ⟨hf, hnd, hq, hfs⟩ := hyp
        exact ⟨⟨hnd, hq⟩, hfs, hf⟩
      · intro hyp
        obtain ⟨⟨hnd, hq⟩, hfs, hf⟩ := hyp
        exact ⟨hf, hnd, hq, hfs⟩

/-! ### Statements -/

theorem Progress.AllReady.opened {p : Progress ι} (hp : p.AllReady) (depth : Nat) :
    ({ p with scopes := [] :: p.scopes, functionDepth := depth } : Progress ι).AllReady :=
  List.forall_mem_cons.2 ⟨fun _ he => absurd he List.not_mem_nil, hp⟩

theorem Walked.closed {held : List String} {names : List (List String)}
    {marks : List (ι × Option Nat)} {ok : Prop} {p q : Progress ι} {depth : Nat} (depth' : Nat)
    (h : Walked (held :: names) marks ok
      { p with scopes := [] :: p.scopes, functionDepth := depth } q)
    (hd : q.functionDepth = depth → depth' = p.functionDepth) :
    Walked names marks ok p { q with scopes := q.scopes.tail, functionDepth := depth' } where
  names := by
    have hn := h.names
    rw [Progress.names] at hn ⊢
    rw [List.map_tail, hn, List.tail_cons]
  ready := fun s hs => h.ready s (List.mem_of_mem_tail hs)
  functionDepth := hd h.functionDepth
  bindings := h.bindings
  clean := h.clean

theorem walked_beginFunction (params : List Parameter) {p : Progress ι} (hp : p.AllReady) :
    Walked (paramNames params :: p.names) [] (paramNames params).Nodup
      { p with scopes := [] :: p.scopes, functionDepth := p.functionDepth + 1 }
      (after (beginFunction params) p) := by
  refine (walked_declareParams params (hp.opened _) (List.cons_ne_nil _ _)).congr ?_ rfl ?_
  · simp [Progress.names]
  · refine and_iff_left fun x _ => ?_
    exact freeIn_cons_iff.2 List.not_mem_nil

theorem Walked.inFunction {names : List (List String)} {marks : List (ι × Option Nat)} {ok : Prop}
    {p q : Progress ι} (h : Walked names marks ok p q) : q.inFunction = p.inFunction := by
  rw [Progress.inFunction, h.functionDepth, Progress.inFunction]

theorem after_checkReturn (span : Span) (p : Progress ι) :
    after (checkReturn span) p =
      if p.functionDepth = 0 then after (note .returnOutsideFunction span) p else p := by
  simp only [after, checkReturn, StateT.run_bind, StateT.run_get, pure_bind]
  split <;> rfl

theorem passed_checkReturn (span : Span) (p : Progress ι) :
    Passed [] (p.inFunction = true) p (after (checkReturn span) p) := by
  rw [after_checkReturn, Progress.inFunction]
  split
  · exact passed_note _ _ (iff_of_false (fun h => by cases h) (by simp [*])) p
  · exact (Passed.refl p).congr (fun _ => Iff.rfl) (iff_of_true trivial (by simp [*]))

mutual

/-- The walk over a statement binds its references by the rule of lexical scopes, leaves the scopes
with what the statement declares, and notes no error exactly if the statement is accepted. -/
theorem walked_stmt (rules : Rules) (s : Stmt ι) {p : Progress ι} (hp : p.AllReady) :
    Walked (extendScope s.declares p.names) (stmtMarks p.names s)
      (s.Accepted rules.allowRedeclaration p.names p.inFunction) p
      (after (walkStmt rules s) p) := by
  have mayRead (e : Expr ι) : (∀ x ∈ e.reads, p.MayRead x) ↔ True :=
    iff_of_true (fun x _ => hp.mayRead x) trivial
  cases s with
  | expression span e =>
    rw [walkStmt]
    exact ((passed_expr rules e p).walked hp).congr (extendScope_nothing _).symm rfl (mayRead e)
  | print span e =>
    rw [walkStmt]
    exact ((passed_expr rules e p).walked hp).congr (extendScope_nothing _).symm rfl (mayRead e)
  | varDecl span name e =>
    exact (walked_varDecl rules name span e hp).congr rfl (stmtMarks_varDecl _ _ _ _).symm Iff.rfl
  | block span body =>
    have h := walked_stmts rules body (hp.opened p.functionDepth)
    rw [walkStmt, after_bind, after_bind]
    refine (h.closed _ (fun hd => hd)).congr (extendScope_nothing _).symm rfl ?_
    rw [Stmt.Accepted]
    rfl
  | conditional span c t e =>
    have hc := (passed_expr rules c p).walked hp
    have ht := walked_stmt rules t hc.ready
    rw [hc.inFunction, hc.names] at ht
    cases e with
    | none =>
      rw [walkStmt, after_bind]
      refine (hc.trans ht).congr rfl (stmtMarks_if _ _ _ _).symm ?_
      rw [mayRead c, true_and, Stmt.Accepted]
    | some e =>
      -- the second branch is walked in the scopes that the first one leaves
      have he := walked_stmt rules e ht.ready
      rw [ht.inFunction, hc.inFunction, ht.names] at he
      rw [walkStmt, after_bind, after_bind]
      refine ((hc.trans ht).trans he).congr ?_ (stmtMarks_ifElse _ _ _ _ _).symm ?_
      · rw [Stmt.declares, extendScope_append]
      · rw [mayRead c, true_and, Stmt.Accepted]
  | loop span c b =>
    have hc := (passed_expr rules c p).walked hp
    have hb := walked_stmt rules b hc.ready
    rw [hc.inFunction, hc.names] at hb
    rw [walkStmt, after_bind]
    refine (hc.trans hb).congr rfl (stmtMarks_loop _ _ _ _).symm ?_
    rw [mayRead c, true_and, Stmt.Accepted]
  | funDecl span name params body =>
    have hn := (declared_declare rules name span true p).walked hp
    have hb := walked_beginFunction params hn.ready
    have hs := walked_stmts rules body hb.ready
    have hin : (after (beginFunction params) (after (declare rules name span true) p)).inFunction =
        true := by
      rw [hb.inFunction]
      rfl
    rw [hb.names, hin, hn.names] at hs
    rw [walkStmt, after_bind, after_bind, after_bind]
    have hd : (after (declare rules name span true) p).functionDepth + 1 - 1 =
        (after (declare rules name span true) p).functionDepth := Nat.add_sub_cancel _ 1
    have hf := (hb.trans hs).closed (_ - 1) fun hd' => (congrArg (· - 1) hd').trans hd
    refine (hn.trans hf).congr rfl (stmtMarks_funDecl _ _ _ _ _).symm ?_
    rw [Stmt.Accepted]
  | ret span e =>
    rw [walkStmt, after_bind]
    have h := (passed_checkReturn span p).walked hp
    have h' := (passed_optional rules e (after (checkReturn span) p)).walked h.ready
    rw [h.names] at h'
    refine (h.trans h').congr (extendScope_nothing _).symm (stmtMarks_ret _ _ _).symm ?_
    rw [Stmt.Accepted]
    exact and_iff_left fun e' _ x _ => h.ready.mayRead x

theorem walked_stmts (rules : Rules) (ss : List (Stmt ι)) {p : Progress ι} (hp : p.AllReady) :
    Walked (extendScope (Stmt.declaresAll ss) p.names) (stmtsMarks p.names ss)
      (Stmt.AcceptedAll rules.allowRedeclaration p.names p.inFunction ss) p
      (after (walkStmts rules ss) p) := by
  cases ss with
  | nil => exact ((Passed.refl p).walked hp).congr (extendScope_nothing _).symm rfl Iff.rfl
  | cons s ss =>
    have h := walked_stmt rules s hp
    have h' := walked_stmts rules ss h.ready
    rw [h.names, h.inFunction] at h'
    rw [walkStmts, after_bind]
    refine (h.trans h').congr ?_ (stmtsMarks_cons _ _ _).symm Iff.rfl
    rw [Stmt.declaresAll, extendScope_append]

end

end Lox.Resolution
