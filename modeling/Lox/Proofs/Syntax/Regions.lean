import Lox.Proofs.Syntax.Steps
import Lox.Proofs.Syntax.TreePlaces
import Lox.Syntax.Parser.Program

/-!
# Regions

A parse makes places out of those of its tokens, by joining two of them. So if the tokens lie in a region,
all places in the tree lie there, and those of the faults as well, also where a declaration is left out or
the parse is cut off.
-/

namespace Lox

/-- A set of places that has, with two of them, the stretch from the one to the other. -/
structure Region where
  contains : Span → Prop
  join : ∀ {s t : Span}, contains s → contains t → contains (s.join t)

namespace Region

open Lox.Parser (Rule State Failure RawExpr RawStmt)

variable {R : Region} {α β : Type} {limit : Nat}

def Covers (R : Region) (places : List Span) : Prop := ∀ s ∈ places, R.contains s

theorem Covers.nil : R.Covers [] := fun _ h => absurd h List.not_mem_nil

theorem covers_cons {s : Span} {ps : List Span} :
    R.Covers (s :: ps) ↔ R.contains s ∧ R.Covers ps := List.forall_mem_cons

theorem covers_append {ps qs : List Span} : R.Covers (ps ++ qs) ↔ R.Covers ps ∧ R.Covers qs :=
  List.forall_mem_append

theorem covers_singleton {s : Span} : R.Covers [s] ↔ R.contains s := List.forall_mem_singleton

abbrev HasExpr (R : Region) (e : RawExpr) : Prop := R.Covers e.places

abbrev HasStmt (R : Region) (s : RawStmt) : Prop := R.Covers s.places

theorem HasExpr.span {e : RawExpr} (h : R.HasExpr e) : R.contains e.span := h _ e.span_mem_places

theorem covers_placesAll_expr {es : List RawExpr} (h : ∀ e ∈ es, R.HasExpr e) :
    R.Covers (Expr.placesAll es) := by
  induction es with
  | nil => exact .nil
  | cons e es ih =>
    obtain ⟨he, hes⟩ := List.forall_mem_cons.mp h
    exact covers_append.mpr ⟨he, ih hes⟩

theorem covers_placesAll_stmt {ss : List RawStmt} (h : ∀ s ∈ ss, R.HasStmt s) :
    R.Covers (Stmt.placesAll ss) := by
  induction ss with
  | nil => exact .nil
  | cons s ss ih =>
    obtain ⟨hs, hss⟩ := List.forall_mem_cons.mp h
    exact covers_append.mpr ⟨hs, ih hss⟩

/-! ### Statements of a kind of expressions -/

/-- A statement made of the given expressions, with all its other places in the region. -/
inductive MadeOf (R : Region) (E : RawExpr → Prop) : RawStmt → Prop where
  | expression {span : Span} {e : RawExpr} : R.contains span → E e → MadeOf R E (.expression span e)
  | print {span : Span} {e : RawExpr} : R.contains span → E e → MadeOf R E (.print span e)
  | varDecl {span : Span} {name : String} {initializer : Option RawExpr} :
    R.contains span → (∀ e ∈ initializer, E e) → MadeOf R E (.varDecl span name initializer)
  | block {span : Span} {body : List RawStmt} :
    R.contains span → (∀ s ∈ body, MadeOf R E s) → MadeOf R E (.block span body)
  | conditional {span : Span} {c : RawExpr} {t : RawStmt} {e : Option RawStmt} :
    R.contains span → E c → MadeOf R E t → (∀ s ∈ e, MadeOf R E s) →
      MadeOf R E (.conditional span c t e)
  | loop {span : Span} {c : RawExpr} {b : RawStmt} :
    R.contains span → E c → MadeOf R E b → MadeOf R E (.loop span c b)
  | funDecl {span : Span} {name : String} {params : List Parameter} {body : List RawStmt} :
    R.contains span → (∀ p ∈ params, R.contains p.span) → (∀ s ∈ body, MadeOf R E s) →
      MadeOf R E (.funDecl span name params body)
  | ret {span : Span} {value : Option RawExpr} :
    R.contains span → (∀ e ∈ value, E e) → MadeOf R E (.ret span value)

/-- What a head of a `for` loop asks of expressions: the condition that is put in is one of them, and their
places are in the region. -/
structure Suits (R : Region) (E : RawExpr → Prop) : Prop where
  span : ∀ e, E e → R.contains e.span
  supplied : ∀ s, R.contains s → E (.literal s (.boolean true))

theorem suits_hasExpr : R.Suits R.HasExpr where
  span _ h := h.span
  supplied _ h := covers_singleton.mpr h

/-- All that is new in the loop that a `for` means has the place of the keyword or of the whole. -/
theorem MadeOf.forLoop {E : RawExpr → Prop} (hE : R.Suits E) {keyword span : Span}
    {i : Option RawStmt} {c n : Option RawExpr} {b : RawStmt} (hk : R.contains keyword)
    (hs : R.contains span) (hi : ∀ s ∈ i, R.MadeOf E s) (hc : ∀ e ∈ c, E e) (hn : ∀ e ∈ n, E e)
    (hb : R.MadeOf E b) : R.MadeOf E (Parser.forLoop keyword span i c n b) := by
  have hcondition : E (c.getD (.literal keyword (.boolean true))) := by
    cases c with
    | none => exact hE.supplied keyword hk
    | some e => exact hc e rfl
  have hpair {first second : RawStmt} (h : R.MadeOf E first) (h' : R.MadeOf E second) :
      R.MadeOf E (.block span [first, second]) :=
    .block hs (List.forall_mem_cons.mpr ⟨h, List.forall_mem_singleton.mpr h'⟩)
  have hloop {step : RawStmt} (h : R.MadeOf E step) :
      R.MadeOf E (.loop span (c.getD (.literal keyword (.boolean true))) step) := .loop hs hcondition h
  cases n with
  | none =>
    cases i with
    | none => exact hloop hb
    | some s => exact hpair (hi s rfl) (hloop hb)
  | some e =>
    have hstep := hpair hb (.expression (hE.span e (hn e rfl)) (hn e rfl))
    cases i with
    | none => exact hloop hstep
    | some s => exact hpair (hi s rfl) (hloop hstep)

theorem MadeOf.covers {s : RawStmt} (h : R.MadeOf R.HasExpr s) : R.HasStmt s := by
  induction h with
  | expression hs he | print hs he => exact covers_cons.mpr ⟨hs, he⟩
  | @varDecl span name e hs he | @ret span e hs he =>
    cases e with
    | none => exact covers_singleton.mpr hs
    | some e => exact covers_cons.mpr ⟨hs, he e rfl⟩
  | block hs _ ih => exact covers_cons.mpr ⟨hs, covers_placesAll_stmt ih⟩
  | @conditional span c t e hs hc _ _ iht ihe =>
    cases e with
    | none => exact covers_cons.mpr ⟨hs, covers_append.mpr ⟨hc, iht⟩⟩
    | some e =>
      exact covers_cons.mpr ⟨hs, covers_append.mpr ⟨hc, covers_append.mpr ⟨iht, ihe e rfl⟩⟩⟩
  | loop hs hc _ ih => exact covers_cons.mpr ⟨hs, covers_append.mpr ⟨hc, ih⟩⟩
  | funDecl hs hparams _ ih =>
    exact covers_cons.mpr
      ⟨hs, covers_append.mpr ⟨List.forall_mem_map.mpr hparams, covers_placesAll_stmt ih⟩⟩

/-! ### States and rules -/

/-- The tokens of a state and the faults noted so far lie in the region. -/
structure Fits (R : Region) (s : State) : Prop where
  previous : R.contains s.previous.span
  tokens : ∀ t ∈ s.tokens, R.contains t.span
  faults : ∀ f ∈ s.faults, R.contains f.span

theorem Fits.current {s : State} (h : R.Fits s) : R.contains s.current.span :=
  h.tokens _ List.mem_cons_self

theorem Fits.fault {s : State} (h : R.Fits s) (error : SyntaxError) {span : Span}
    (hspan : R.contains span) : R.Fits { s with faults := ⟨error, span⟩ :: s.faults } :=
  { h with faults := List.forall_mem_cons.mpr ⟨hspan, h.faults⟩ }

theorem Fits.step {s : State} (h : R.Fits s) : R.Fits s.step where
  previous := by
    unfold State.step
    split
    · exact h.previous
    · cases s.ahead <;> exact h.current
  tokens t ht := h.tokens t ((Parser.onward_step s).tokens.subset ht)
  faults f hf := h.faults f (s.faults_step ▸ hf)

def Admits (R : Region) : Failure → Prop
  | .rejected fault => R.contains fault.span
  | .tooDeep => True

/-- From a state in the region a rule leads to one, with a result as said or a fault in the region. -/
def Keeps (R : Region) (rule : Rule α) (Q : α → Prop) : Prop :=
  ∀ s, R.Fits s →
    match rule s with
    | .ok a s' => R.Fits s' ∧ Q a
    | .error e s' => R.Fits s' ∧ R.Admits e

namespace Keeps

theorem pure {Q : α → Prop} {a : α} (hq : Q a) : R.Keeps (pure a) Q := fun _ hs => ⟨hs, hq⟩

theorem tooDeep {Q : α → Prop} : R.Keeps (throw .tooDeep) Q := fun _ hs => ⟨hs, trivial⟩

theorem bind {rule : Rule α} {next : α → Rule β} {Q : α → Prop} {S : β → Prop} (h : R.Keeps rule Q)
    (hn : ∀ a, Q a → R.Keeps (next a) S) : R.Keeps (rule >>= next) S := by
  intro s hs
  have hfirst := h s hs
  show match EStateM.bind rule next s with
    | .ok b s' => R.Fits s' ∧ S b
    | .error e s' => R.Fits s' ∧ R.Admits e
  unfold EStateM.bind
  cases hr : rule s with
  | ok a m =>
    rw [hr] at hfirst
    exact hn a hfirst.2 m hfirst.1
  | error e m =>
    rw [hr] at hfirst
    exact hfirst

theorem map {rule : Rule α} {Q : α → Prop} {S : β → Prop} {f : α → β} (h : R.Keeps rule Q)
    (hf : ∀ a, Q a → S (f a)) : R.Keeps (f <$> rule) S := by
  rw [map_eq_pure_bind f rule]
  exact bind h fun a ha => pure (hf a ha)

theorem weaken {rule : Rule α} {Q S : α → Prop} (h : R.Keeps rule Q) (hqs : ∀ a, Q a → S a) :
    R.Keeps rule S := by
  rw [← id_map rule]
  exact map h hqs

theorem ite {c : Prop} [Decidable c] {rule rule' : Rule α} {Q : α → Prop} (h : R.Keeps rule Q)
    (h' : R.Keeps rule' Q) : R.Keeps (if c then rule else rule') Q := by
  split
  · exact h
  · exact h'

/-! ### Steps -/

theorem current : R.Keeps Parser.current fun t => R.contains t.span := fun _ hs => ⟨hs, hs.current⟩

theorem peek : R.Keeps Parser.peek fun _ => True := fun _ hs => ⟨hs, trivial⟩

theorem remaining : R.Keeps Parser.remaining fun _ => True := fun _ hs => ⟨hs, trivial⟩

theorem spanFrom {start : Token} (h : R.contains start.span) :
    R.Keeps (Parser.spanFrom start) R.contains := fun _ hs => ⟨hs, R.join h hs.previous⟩

theorem advance : R.Keeps Parser.advance fun t => R.contains t.span :=
  fun _ hs => ⟨hs.step, hs.current⟩

theorem accept (kind : TokenKind) : R.Keeps (Parser.accept kind) fun _ => True := by
  intro s hs
  unfold Parser.accept
  split <;> rename_i hb <;> split at hb <;> cases hb
  · exact ⟨hs.step, trivial⟩
  · exact ⟨hs, trivial⟩

theorem report (error : SyntaxError) {span : Span} (h : R.contains span) :
    R.Keeps (Parser.report error span) fun _ => True := fun _ hs => ⟨hs.fault error h, trivial⟩

theorem reject {Q : α → Prop} (error : SyntaxError) {span : Span} (h : R.contains span) :
    R.Keeps (Parser.reject error span) Q := fun _ hs => ⟨hs, h⟩

theorem unexpected {Q : α → Prop} (expected : String) : R.Keeps (Parser.unexpected expected) Q :=
  fun _ hs => ⟨hs, hs.current⟩

theorem expect (kind : TokenKind) (expected : String) :
    R.Keeps (Parser.expect kind expected) fun t => R.contains t.span := by
  intro s hs
  unfold Parser.expect
  by_cases hk : s.current.kind = kind
  · rw [if_pos hk]
    exact advance s hs
  · rw [if_neg hk]
    exact ⟨hs, hs.current⟩

theorem skipToBoundary (n : Nat) : R.Keeps (Parser.skipToBoundary n) fun _ => True := by
  induction n with
  | zero => exact pure trivial
  | succ n ih =>
    intro s hs
    rw [Parser.skipToBoundary]
    dsimp only
    by_cases hstop : (s.current.isEnd || s.previous.kind == .semicolon ||
      s.current.kind.beginsStatement) = true
    · rw [if_pos hstop]
      exact ⟨hs, trivial⟩
    · rw [if_neg hstop]
      exact ih s.step hs.step

theorem synchronize : R.Keeps Parser.synchronize fun _ => True :=
  fun s hs => skipToBoundary s.remaining s.step hs.step

theorem recovering {rule : Rule α} {Q : α → Prop} (h : R.Keeps rule Q) :
    R.Keeps (Parser.recovering rule) fun o => ∀ a ∈ o, Q a := by
  intro s hs
  have hrule := h s hs
  unfold Parser.recovering
  cases hr : rule s with
  | ok a m =>
    rw [hr] at hrule
    exact ⟨hrule.1, fun b hb => Option.mem_some.mp hb ▸ hrule.2⟩
  | error e m =>
    rw [hr] at hrule
    obtain ⟨hm, he⟩ := hrule
    cases e with
    | tooDeep => exact ⟨hm, trivial⟩
    | rejected fault =>
      have hsync := synchronize _ (hm.fault fault.error he)
      dsimp only
      cases hskip : Parser.synchronize { m with faults := fault :: m.faults } with
      | ok u n =>
        rw [hskip] at hsync
        exact ⟨hsync.1, nofun⟩
      | error e n =>
        rw [hskip] at hsync
        exact hsync

/-! ### Expressions -/

variable {operand nested : Rule RawExpr}

theorem chainFrom {op? : TokenKind → Option α} {build : Span → α → RawExpr → RawExpr → RawExpr}
    (hbuild : ∀ span op l r, (build span op l r).places = span :: (l.places ++ r.places))
    (ho : R.Keeps operand R.HasExpr) (n : Nat) {left : RawExpr} (hl : R.HasExpr left) :
    R.Keeps (Parser.chainFrom op? build operand n left) R.HasExpr := by
  induction n generalizing left with
  | zero => exact pure hl
  | succ n ih =>
    refine bind peek fun kind _ => ?_
    cases op? kind with
    | none => exact pure hl
    | some op =>
      refine bind advance fun _ _ => bind ho fun right hr => ih ?_
      rw [HasExpr, hbuild, covers_cons, covers_append]
      exact ⟨R.join hl.span hr.span, hl, hr⟩

theorem chain {op? : TokenKind → Option α} {build : Span → α → RawExpr → RawExpr → RawExpr}
    (hbuild : ∀ span op l r, (build span op l r).places = span :: (l.places ++ r.places))
    (ho : R.Keeps operand R.HasExpr) : R.Keeps (Parser.chain op? build operand) R.HasExpr :=
  bind ho fun _ hfirst => bind remaining fun n _ => chainFrom hbuild ho n hfirst

theorem disjunction (hu : R.Keeps operand R.HasExpr) :
    R.Keeps (Parser.disjunction operand) R.HasExpr := by
  have hlogical (span : Span) (op : LogicalOp) (l r : RawExpr) :
      (Expr.logical span op l r).places = span :: (l.places ++ r.places) := rfl
  have hbinary (span : Span) (op : BinaryOp) (l r : RawExpr) :
      (Expr.binary span op l r).places = span :: (l.places ++ r.places) := rfl
  exact chain hlogical <| chain hlogical <| chain hbinary <| chain hbinary <| chain hbinary <|
    chain hbinary hu

theorem primary (hn : R.Keeps nested R.HasExpr) : R.Keeps (Parser.primary nested) R.HasExpr := by
  refine bind current fun t ht => ?_
  have hlit (v : Literal) : R.Keeps (Parser.advance >>= fun _ => Pure.pure (.literal t.span v))
      R.HasExpr := bind advance fun _ _ => pure (covers_singleton.mpr ht)
  split
  case h_6 => exact bind advance fun _ _ => pure (covers_singleton.mpr ht)
  case h_7 =>
    refine bind advance fun _ _ => bind hn fun inner hi => bind (expect _ _) fun _ _ => ?_
    exact bind (spanFrom ht) fun span hspan => pure (covers_cons.mpr ⟨hspan, hi⟩)
  case h_8 => exact ite (reject _ ht) (unexpected _)
  all_goals exact hlit _

theorem checkCount (count : Nat) (what : String) :
    R.Keeps (Parser.checkCount count what) fun _ => True :=
  ite (bind current fun _ ht => report _ ht) (pure trivial)

theorem separated {item : Rule α} {Q : α → Prop} (hi : R.Keeps item Q) (what : String) (n taken : Nat) :
    R.Keeps (Parser.separated what item n taken) fun as => ∀ a ∈ as, Q a := by
  induction n generalizing taken with
  | zero => exact pure fun _ h => absurd h List.not_mem_nil
  | succ n ih =>
    refine bind (checkCount taken what) fun _ _ => bind hi fun first hfirst => ?_
    refine bind (accept .comma) fun b _ => ite (bind (ih (taken + 1)) fun rest hrest => ?_) ?_
    · exact pure (List.forall_mem_cons.mpr ⟨hfirst, hrest⟩)
    · exact pure (List.forall_mem_singleton.mpr hfirst)

theorem listed {item : Rule α} {Q : α → Prop} (hi : R.Keeps item Q) (what : String) :
    R.Keeps (Parser.listed what item) fun as => ∀ a ∈ as, Q a := by
  refine bind peek fun kind _ => ite (pure fun _ h => absurd h List.not_mem_nil) ?_
  exact bind remaining fun n _ => separated hi what n 0

theorem callsFrom (hn : R.Keeps nested R.HasExpr) (n : Nat) {callee : RawExpr}
    (hc : R.HasExpr callee) : R.Keeps (Parser.callsFrom nested n callee) R.HasExpr := by
  -- The callee grows with every pair of parentheses that is read.
  induction n generalizing callee with
  | zero => exact pure hc
  | succ n ih =>
    refine bind (accept .leftParen) fun b _ => ite ?_ (pure hc)
    refine bind (listed hn "arguments") fun arguments hargs => ?_
    refine bind (expect _ _) fun paren hparen => ih ?_
    rw [HasExpr, Expr.places, covers_cons, covers_append]
    exact ⟨R.join hc.span hparen, hc, covers_placesAll_expr hargs⟩

theorem call (hn : R.Keeps nested R.HasExpr) : R.Keeps (Parser.call nested) R.HasExpr :=
  bind (primary hn) fun _ hc => bind remaining fun n _ => callsFrom hn n hc

theorem assignTo {target value : RawExpr} {equals : Token} (ht : R.HasExpr target)
    (he : R.contains equals.span) (hv : R.HasExpr value) :
    R.Keeps (Parser.assignTo target equals value) R.HasExpr := by
  unfold Parser.assignTo
  split
  · exact pure (covers_cons.mpr ⟨R.join ht.span hv.span, hv⟩)
  · exact bind (report _ he) fun _ _ => pure ht

theorem unary_expression (depth : Nat) :
    R.Keeps (Parser.unary depth) R.HasExpr ∧ R.Keeps (Parser.expression depth) R.HasExpr := by
  induction depth with
  | zero => exact ⟨tooDeep, tooDeep⟩
  | succ depth ih =>
    obtain ⟨hu, he⟩ := ih
    constructor
    · refine bind current fun t ht => ?_
      split
      · refine bind advance fun _ _ => bind hu fun operand ho => ?_
        exact bind (spanFrom ht) fun span hspan => pure (covers_cons.mpr ⟨hspan, ho⟩)
      · exact call he
    · refine bind (disjunction hu) fun target ht => bind current fun equals hequals => ?_
      refine bind (accept .assign) fun b _ => ite (bind he fun value hv => ?_) (pure ht)
      exact assignTo ht hequals hv

theorem expression (depth : Nat) : R.Keeps (Parser.expression depth) R.HasExpr :=
  (unary_expression depth).2

/-! ### Statements -/

variable {E : RawExpr → Prop} {expr : Rule RawExpr} {statement : Rule RawStmt}
  {item : Rule (Option RawStmt)} {start : Token}

theorem optionally {rule : Rule α} {Q : α → Prop} (h : R.Keeps rule Q) (kind : TokenKind) :
    R.Keeps (Parser.optionally kind rule) fun o => ∀ a ∈ o, Q a :=
  bind (accept kind) fun _ _ =>
    ite (map h fun _ ha _ hb => Option.mem_some.mp hb ▸ ha) (pure nofun)

theorem unlessAt {rule : Rule α} {Q : α → Prop} (h : R.Keeps rule Q) (kind : TokenKind) :
    R.Keeps (Parser.unlessAt kind rule) fun o => ∀ a ∈ o, Q a :=
  bind peek fun _ _ => ite (pure nofun) (map h fun _ ha _ hb => Option.mem_some.mp hb ▸ ha)

theorem varDeclaration (he : R.Keeps expr E) (hs : R.contains start.span) :
    R.Keeps (Parser.varDeclaration expr start) (R.MadeOf E) := by
  refine bind (expect _ _) fun name _ => bind (optionally he _) fun initializer hi => ?_
  exact bind (expect _ _) fun _ _ => bind (spanFrom hs) fun span hspan => pure (.varDecl hspan hi)

theorem printStatement (he : R.Keeps expr E) (hs : R.contains start.span) :
    R.Keeps (Parser.printStatement expr start) (R.MadeOf E) := by
  refine bind he fun e he => bind (expect _ _) fun _ _ => ?_
  exact bind (spanFrom hs) fun span hspan => pure (.print hspan he)

theorem returnStatement (he : R.Keeps expr E) (hs : R.contains start.span) :
    R.Keeps (Parser.returnStatement expr start) (R.MadeOf E) := by
  refine bind (unlessAt he _) fun value hv => bind (expect _ _) fun _ _ => ?_
  exact bind (spanFrom hs) fun span hspan => pure (.ret hspan hv)

theorem expressionStatement (he : R.Keeps expr E) (hs : R.contains start.span) (expected : String) :
    R.Keeps (Parser.expressionStatement expr start expected) (R.MadeOf E) := by
  refine bind he fun e he => bind (expect _ _) fun _ _ => ?_
  exact bind (spanFrom hs) fun span hspan => pure (.expression hspan he)

theorem blockItems (hi : R.Keeps item fun o => ∀ s ∈ o, R.MadeOf E s) (n : Nat) :
    R.Keeps (Parser.blockItems item n) fun ss => ∀ s ∈ ss, R.MadeOf E s := by
  induction n with
  | zero => exact pure fun _ h => absurd h List.not_mem_nil
  | succ n ih =>
    refine bind peek fun kind _ => ite (pure fun _ h => absurd h List.not_mem_nil) ?_
    refine bind hi fun first hfirst => bind ih fun rest hrest => pure ?_
    exact List.forall_mem_append.mpr ⟨fun s hs => hfirst s (Option.mem_toList.mp hs), hrest⟩

theorem blockBody (hi : R.Keeps item fun o => ∀ s ∈ o, R.MadeOf E s) :
    R.Keeps (Parser.blockBody item) fun ss => ∀ s ∈ ss, R.MadeOf E s :=
  bind remaining fun n _ => bind (blockItems hi n) fun _ hitems =>
    bind (expect _ _) fun _ _ => pure hitems

theorem ifStatement (he : R.Keeps expr E) (ht : R.Keeps statement (R.MadeOf E))
    (hs : R.contains start.span) :
    R.Keeps (Parser.ifStatement expr statement start) (R.MadeOf E) := by
  refine bind (expect _ _) fun _ _ => bind he fun c hc => bind (expect _ _) fun _ _ => ?_
  refine bind ht fun t ht' => bind (optionally ht _) fun e he => ?_
  exact bind (spanFrom hs) fun span hspan => pure (.conditional hspan hc ht' he)

theorem whileStatement (he : R.Keeps expr E) (ht : R.Keeps statement (R.MadeOf E))
    (hs : R.contains start.span) :
    R.Keeps (Parser.whileStatement expr statement start) (R.MadeOf E) := by
  refine bind (expect _ _) fun _ _ => bind he fun c hc => bind (expect _ _) fun _ _ => ?_
  exact bind ht fun b hb => bind (spanFrom hs) fun span hspan => pure (.loop hspan hc hb)

theorem forInitializer (he : R.Keeps expr E) :
    R.Keeps (Parser.forInitializer expr) fun o => ∀ s ∈ o, R.MadeOf E s := by
  have hsome (s : RawStmt) (hs : R.MadeOf E s) : ∀ t ∈ some s, R.MadeOf E t :=
    fun t ht => Option.mem_some.mp ht ▸ hs
  refine bind current fun start hs => bind (accept .semicolon) fun _ _ => ite (pure nofun) ?_
  refine bind (accept .kwVar) fun _ _ => ite ?_ ?_
  · exact map (varDeclaration he hs) hsome
  · exact map (expressionStatement he hs _) hsome

theorem forStatement (hE : R.Suits E) (he : R.Keeps expr E) (ht : R.Keeps statement (R.MadeOf E))
    (hs : R.contains start.span) :
    R.Keeps (Parser.forStatement expr statement start) (R.MadeOf E) := by
  refine bind (expect _ _) fun _ _ => bind (forInitializer he) fun i hi => ?_
  refine bind (unlessAt he _) fun c hc => bind (expect _ _) fun _ _ => ?_
  refine bind (unlessAt he _) fun n hn => bind (expect _ _) fun _ _ => ?_
  refine bind ht fun b hb => bind (spanFrom hs) fun span hspan => pure ?_
  exact .forLoop hE hs hspan hi hc hn hb

theorem parameter : R.Keeps Parser.parameter fun p => R.contains p.span :=
  bind (expect _ _) fun _ ht => pure ht

theorem funDeclaration (hi : R.Keeps item fun o => ∀ s ∈ o, R.MadeOf E s)
    (hs : R.contains start.span) : R.Keeps (Parser.funDeclaration item start) (R.MadeOf E) := by
  refine bind (expect _ _) fun name _ => bind (expect _ _) fun _ _ => ?_
  refine bind (listed parameter _) fun params hparams => bind (expect _ _) fun _ _ => ?_
  refine bind (expect _ _) fun _ _ => bind (blockBody hi) fun body hbody => ?_
  exact bind (spanFrom hs) fun span hspan => pure (.funDecl hspan hparams hbody)

/-- What holds of the expressions that are read two levels below the limit holds all over statements. -/
theorem statement_declaration (hE : R.Suits E)
    (hexpr : ∀ depth, depth + 2 ≤ limit → R.Keeps (Parser.expression depth) E) (depth : Nat) :
    (depth + 1 ≤ limit → R.Keeps (Parser.statement depth) (R.MadeOf E)) ∧
      (depth ≤ limit → R.Keeps (Parser.declaration depth) fun o => ∀ s ∈ o, R.MadeOf E s) := by
  -- Both at once: a block reads declarations, and a declaration may be a statement of one level less.
  induction depth with
  | zero => exact ⟨fun _ => tooDeep, fun _ => tooDeep⟩
  | succ depth ih =>
    obtain ⟨ht, hd⟩ := ih
    constructor
    · intro hdepth
      have ht := ht (Nat.le_of_succ_le hdepth)
      have he := hexpr depth hdepth
      refine bind current fun start hs => ?_
      split
      case h_1 => exact bind advance fun _ _ => printStatement he hs
      case h_2 => exact bind advance fun _ _ => returnStatement he hs
      case h_3 => exact bind advance fun _ _ => ifStatement he ht hs
      case h_4 => exact bind advance fun _ _ => whileStatement he ht hs
      case h_5 => exact bind advance fun _ _ => forStatement hE he ht hs
      case h_6 =>
        have hd := hd (Nat.le_of_succ_le (Nat.le_of_succ_le hdepth))
        refine bind advance fun _ _ => bind (blockBody hd) fun body hbody => ?_
        exact bind (spanFrom hs) fun span hspan => pure (.block hspan hbody)
      case h_7 => exact ite (reject _ hs) (expressionStatement he hs _)
    · intro hdepth
      refine recovering (bind current fun start hs => ?_)
      split
      case h_1 => exact bind advance fun _ _ => funDeclaration (hd (Nat.le_of_succ_le hdepth)) hs
      case h_2 =>
        have he : R.Keeps (Parser.expression (depth - 1)) E := by
          cases depth with
          | zero => exact tooDeep
          | succ depth => exact hexpr depth hdepth
        exact bind advance fun _ _ => varDeclaration he hs
      case h_3 => exact ht hdepth

end Keeps

/-! ### Programs -/

section

variable {E : RawExpr → Prop} (hE : R.Suits E)
  (hexpr : ∀ depth, depth + 2 ≤ limit → R.Keeps (Parser.expression depth) E)

include hE hexpr

theorem madeOf_declarations (n : Nat) {s : State} (hs : R.Fits s) :
    (∀ t ∈ (Parser.declarations limit n s).1, R.MadeOf E t) ∧ R.Fits (Parser.declarations limit n s).2 := by
  induction n generalizing s with
  | zero => exact ⟨fun _ h => absurd h List.not_mem_nil, hs⟩
  | succ n ih =>
    have hdeclaration :=
      (Keeps.statement_declaration hE hexpr limit).2 (Nat.le_refl _) s hs
    rw [Parser.declarations]
    split
    · exact ⟨fun _ h => absurd h List.not_mem_nil, hs⟩
    · cases hr : Parser.declaration limit s with
      | error e m =>
        rw [hr] at hdeclaration
        exact ⟨fun _ h => absurd h List.not_mem_nil, hdeclaration.1.fault _ hdeclaration.1.current⟩
      | ok accepted m =>
        rw [hr] at hdeclaration
        obtain ⟨hm, haccepted⟩ := hdeclaration
        have hfirst : ∀ t ∈ accepted.toList, R.MadeOf E t :=
          fun t ht => haccepted t (Option.mem_toList.mp ht)
        dsimp only
        split
        · exact ⟨hfirst, hm⟩
        · exact ⟨List.forall_mem_append.mpr ⟨hfirst, (ih hm).1⟩, (ih hm).2⟩

theorem madeOf_parseProgram {tokens : List Token} (h : ∀ t ∈ tokens, R.contains t.span) :
    (∀ s ∈ (Parser.parseProgram limit tokens).program.statements, R.MadeOf E s) ∧
      ∀ f ∈ (Parser.parseProgram limit tokens).faults, R.contains f.span := by
  cases tokens with
  | nil => exact ⟨fun _ hs => absurd hs List.not_mem_nil, fun _ hf => absurd hf List.not_mem_nil⟩
  | cons t ts =>
    let start : State := ⟨t, t, ts, []⟩
    have hstart : R.Fits start := ⟨h t List.mem_cons_self, h, fun _ hf => absurd hf List.not_mem_nil⟩
    obtain ⟨hstatements, hlast⟩ := madeOf_declarations hE hexpr start.remaining hstart
    exact ⟨hstatements, fun f hf => hlast.faults f (List.mem_reverse.mp hf)⟩

end

theorem covers_parseProgram {tokens : List Token} (h : ∀ t ∈ tokens, R.contains t.span) :
    R.Covers (Parser.parseProgram limit tokens).program.places ∧
      ∀ f ∈ (Parser.parseProgram limit tokens).faults, R.contains f.span := by
  obtain ⟨hstatements, hfaults⟩ :=
    madeOf_parseProgram suits_hasExpr (fun depth _ => Keeps.expression depth) h
  exact ⟨covers_placesAll_stmt fun s hs => (hstatements s hs).covers, hfaults⟩

end Region

end Lox
