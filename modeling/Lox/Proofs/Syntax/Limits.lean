import Lox.Proofs.Syntax.Recognition

/-!
# Limits on nesting

How far a parse can get down is up to the stack of the host, which need not be the same at every parse. A
rule that may get further down does the same, unless the one that may not is cut off by its depth. So all
limits that a source stays within lead to the same tree or to the same faults.
-/

namespace Lox.Parser

variable {α β γ : Type}

/-! ### Rules that get further down -/

/-- The second rule does what the first one does, unless that is cut off by its depth. -/
def Deepens (rule rule' : Rule α) : Prop := ∀ s, (∃ m, rule s = .error .tooDeep m) ∨ rule' s = rule s

namespace Deepens

theorem refl (rule : Rule α) : Deepens rule rule := fun _ => Or.inr rfl

theorem tooDeep (rule : Rule α) : Deepens (throw .tooDeep) rule := fun s => Or.inl ⟨s, rfl⟩

theorem bind {rule rule' : Rule α} {next next' : α → Rule β} (h : Deepens rule rule')
    (hn : ∀ a, Deepens (next a) (next' a)) : Deepens (rule >>= next) (rule' >>= next') := by
  intro s
  rcases h s with ⟨m, hcut⟩ | hsame
  · exact Or.inl ⟨m, bind_of_error hcut⟩
  · cases hr : rule s with
    | ok a m =>
      rw [bind_of_ok hr, bind_of_ok (hsame.trans hr)]
      exact hn a m
    | error e m => exact Or.inr ((bind_of_error (hsame.trans hr)).trans (bind_of_error hr).symm)

/-- A rule behind what is done in the same way. -/
theorem after (rule : Rule α) {next next' : α → Rule β} (hn : ∀ a, Deepens (next a) (next' a)) :
    Deepens (rule >>= next) (rule >>= next') := (refl rule).bind hn

/-- A rule in front of what is done in the same way. -/
theorem before {rule rule' : Rule α} (h : Deepens rule rule') (next : α → Rule β) :
    Deepens (rule >>= next) (rule' >>= next) := h.bind fun a => refl (next a)

theorem map {rule rule' : Rule α} (f : α → β) (h : Deepens rule rule') :
    Deepens (f <$> rule) (f <$> rule') := by
  rw [map_eq_pure_bind f rule, map_eq_pure_bind f rule']
  exact h.before _

theorem ite {c : Prop} [Decidable c] {rule₁ rule₁' rule₂ rule₂' : Rule α} (h₁ : Deepens rule₁ rule₁')
    (h₂ : Deepens rule₂ rule₂') : Deepens (if c then rule₁ else rule₂) (if c then rule₁' else rule₂') := by
  split
  · exact h₁
  · exact h₂

theorem recovering {rule rule' : Rule α} (h : Deepens rule rule') :
    Deepens (Parser.recovering rule) (Parser.recovering rule') := by
  intro s
  rcases h s with ⟨m, hcut⟩ | hsame
  · exact Or.inl ⟨m, by rw [Parser.recovering, hcut]⟩
  · exact Or.inr (by rw [Parser.recovering, Parser.recovering, hsame])

/-! ### Expressions -/

section

variable {operand operand' nested nested' : Rule RawExpr}

theorem chainFrom {op? : TokenKind → Option γ} {build : Span → γ → RawExpr → RawExpr → RawExpr}
    (ho : Deepens operand operand') (n : Nat) (left : RawExpr) :
    Deepens (Parser.chainFrom op? build operand n left) (Parser.chainFrom op? build operand' n left) := by
  induction n generalizing left with
  | zero => exact refl _
  | succ n ih =>
    refine after _ fun kind => ?_
    cases op? kind with
    | none => exact refl _
    | some op => exact after _ fun _ => ho.bind fun right => ih _

theorem chain {op? : TokenKind → Option γ} {build : Span → γ → RawExpr → RawExpr → RawExpr}
    (ho : Deepens operand operand') :
    Deepens (Parser.chain op? build operand) (Parser.chain op? build operand') :=
  ho.bind fun first => after _ fun n => chainFrom ho n first

theorem disjunction (h : Deepens operand operand') :
    Deepens (Parser.disjunction operand) (Parser.disjunction operand') :=
  chain (chain (chain (chain (chain (chain h)))))

theorem primary (h : Deepens nested nested') : Deepens (Parser.primary nested) (Parser.primary nested') := by
  refine after _ fun token => ?_
  split
  case h_7 => exact after _ fun _ => h.before _
  all_goals exact refl _

theorem separated {what : String} {item item' : Rule α} (h : Deepens item item') (n taken : Nat) :
    Deepens (Parser.separated what item n taken) (Parser.separated what item' n taken) := by
  induction n generalizing taken with
  | zero => exact refl _
  | succ n ih =>
    refine after _ fun _ => h.bind fun first => after _ fun more => ite ?_ (refl _)
    exact (ih _).before _

theorem listed {what : String} {item item' : Rule α} (h : Deepens item item') :
    Deepens (Parser.listed what item) (Parser.listed what item') :=
  after _ fun _ => ite (refl _) (after _ fun n => separated h n 0)

theorem callsFrom (h : Deepens nested nested') (n : Nat) (callee : RawExpr) :
    Deepens (Parser.callsFrom nested n callee) (Parser.callsFrom nested' n callee) := by
  induction n generalizing callee with
  | zero => exact refl _
  | succ n ih =>
    refine after _ fun open? => ite ?_ (refl _)
    exact (listed h).bind fun arguments => after _ fun paren => ih _

theorem call (h : Deepens nested nested') : Deepens (Parser.call nested) (Parser.call nested') :=
  (primary h).bind fun callee => after _ fun n => callsFrom h n callee

end

theorem unary_expression {depth depth' : Nat} (hle : depth ≤ depth') :
    Deepens (unary depth) (unary depth') ∧ Deepens (expression depth) (expression depth') := by
  induction depth generalizing depth' with
  | zero => exact ⟨tooDeep _, tooDeep _⟩
  | succ depth ih =>
    obtain ⟨depth', rfl⟩ := Nat.exists_eq_succ_of_ne_zero (Nat.ne_of_gt (Nat.zero_lt_of_lt hle))
    obtain ⟨hu, he⟩ := ih (Nat.le_of_succ_le_succ hle)
    constructor
    · refine after _ fun token => ?_
      cases unaryOp? token.kind with
      | none => exact call he
      | some op => exact after _ fun _ => hu.before _
    · refine (disjunction hu).bind fun target => after _ fun equals => after _ fun assigned => ?_
      exact ite (he.before _) (refl _)

/-! ### Statements -/

section

variable {expr expr' : Rule RawExpr} {stmt stmt' : Rule RawStmt} {item item' : Rule (Option RawStmt)}

theorem optionally {kind : TokenKind} {rule rule' : Rule α} (h : Deepens rule rule') :
    Deepens (Parser.optionally kind rule) (Parser.optionally kind rule') :=
  after _ fun _ => ite (h.map some) (refl _)

theorem unlessAt {kind : TokenKind} {rule rule' : Rule α} (h : Deepens rule rule') :
    Deepens (Parser.unlessAt kind rule) (Parser.unlessAt kind rule') :=
  after _ fun _ => ite (refl _) (h.map some)

theorem varDeclaration (h : Deepens expr expr') (start : Token) :
    Deepens (Parser.varDeclaration expr start) (Parser.varDeclaration expr' start) :=
  after _ fun _ => (optionally h).before _

theorem expressionStatement (h : Deepens expr expr') (start : Token) (expected : String) :
    Deepens (Parser.expressionStatement expr start expected)
      (Parser.expressionStatement expr' start expected) :=
  h.before _

theorem blockBody (h : Deepens item item') : Deepens (Parser.blockBody item) (Parser.blockBody item') := by
  have hitems (n : Nat) : Deepens (blockItems item n) (blockItems item' n) := by
    induction n with
    | zero => exact refl _
    | succ n ih => exact after _ fun kind => ite (refl _) (h.bind fun first => ih.before _)
  exact after _ fun n => (hitems n).before _

theorem ifStatement (he : Deepens expr expr') (hs : Deepens stmt stmt') (start : Token) :
    Deepens (Parser.ifStatement expr stmt start) (Parser.ifStatement expr' stmt' start) := by
  refine after _ fun _ => he.bind fun condition => after _ fun _ => hs.bind fun thenBranch => ?_
  exact (optionally hs).before _

theorem whileStatement (he : Deepens expr expr') (hs : Deepens stmt stmt') (start : Token) :
    Deepens (Parser.whileStatement expr stmt start) (Parser.whileStatement expr' stmt' start) :=
  after _ fun _ => he.bind fun _ => after _ fun _ => hs.before _

theorem forInitializer (h : Deepens expr expr') :
    Deepens (Parser.forInitializer expr) (Parser.forInitializer expr') := by
  refine after _ fun start => after _ fun empty? => ite (refl _) (after _ fun declared? => ?_)
  exact ite ((varDeclaration h start).map some) ((expressionStatement h start _).map some)

theorem forStatement (he : Deepens expr expr') (hs : Deepens stmt stmt') (start : Token) :
    Deepens (Parser.forStatement expr stmt start) (Parser.forStatement expr' stmt' start) := by
  refine after _ fun _ => (forInitializer he).bind fun initializer => (unlessAt he).bind fun condition => ?_
  exact after _ fun _ => (unlessAt he).bind fun increment => after _ fun _ => hs.before _

theorem funDeclaration (h : Deepens item item') (start : Token) :
    Deepens (Parser.funDeclaration item start) (Parser.funDeclaration item' start) := by
  refine after _ fun name => after _ fun _ => after _ fun params => after _ fun _ => after _ fun _ => ?_
  exact (blockBody h).before _

end

theorem statement_declaration {depth depth' : Nat} (hle : depth ≤ depth') :
    Deepens (statement depth) (statement depth') ∧ Deepens (declaration depth) (declaration depth') := by
  induction depth generalizing depth' with
  | zero => exact ⟨tooDeep _, tooDeep _⟩
  | succ depth ih =>
    obtain ⟨depth', rfl⟩ := Nat.exists_eq_succ_of_ne_zero (Nat.ne_of_gt (Nat.zero_lt_of_lt hle))
    have hle : depth ≤ depth' := Nat.le_of_succ_le_succ hle
    obtain ⟨hs, hd⟩ := ih hle
    have he : Deepens (expression depth) (expression depth') := (unary_expression hle).2
    constructor
    · refine after _ fun start => ?_
      split
      · exact after _ fun _ => he.before _
      · exact after _ fun _ => (unlessAt he).before _
      · exact after _ fun _ => ifStatement he hs start
      · exact after _ fun _ => whileStatement he hs start
      · exact after _ fun _ => forStatement he hs start
      · exact after _ fun _ => (blockBody hd).before _
      · exact ite (refl _) (expressionStatement he start _)
    · refine recovering (after _ fun start => ?_)
      split
      · exact after _ fun _ => funDeclaration hd start
      · have hinitializer := (unary_expression (Nat.sub_le_sub_right hle 1)).2
        exact after _ fun _ => varDeclaration hinitializer start
      · exact hs

end Deepens

/-! ### Programs -/

variable {limit limit' : Nat} {tokens : List Token}

theorem declarations_of_le (hle : limit ≤ limit') {n : Nat} {s : State}
    (h : ¬ CutOff (declarations limit n s).2.faults) : declarations limit' n s = declarations limit n s := by
  induction n generalizing s with
  | zero => rfl
  | succ n ih =>
    rw [declarations] at h ⊢
    rw [declarations]
    split
    · rfl
    · rename_i hend
      rw [if_neg hend] at h
      cases hr : declaration limit s with
      | error e m =>
        rw [hr] at h
        exact absurd ⟨_, List.mem_cons_self, rfl⟩ h
      | ok accepted m =>
        have hsame : declaration limit' s = .ok accepted m := by
          rcases (Deepens.statement_declaration hle).2 s with ⟨m', hcut⟩ | hsame
          · rw [hr] at hcut
            cases hcut
          · rw [hsame, hr]
        rw [hr] at h
        rw [hsame]
        dsimp only at h ⊢
        split
        · rfl
        · rename_i hfull
          rw [if_neg hfull] at h
          rw [ih h]

/-- A parse that is not cut off does the same with more levels to get down to. -/
theorem parseProgram_of_le (hle : limit ≤ limit') (h : ¬ CutOff (parseProgram limit tokens).faults) :
    parseProgram limit' tokens = parseProgram limit tokens := by
  cases tokens with
  | nil => rfl
  | cons t ts =>
    let start : State := ⟨t, t, ts, []⟩
    have hfaults : (parseProgram limit (t :: ts)).faults =
        (declarations limit start.remaining start).2.faults.reverse := rfl
    have hlast : ¬ CutOff (declarations limit start.remaining start).2.faults := by
      rintro ⟨f, hf, he⟩
      rw [hfaults] at h
      exact h ⟨f, List.mem_reverse.mpr hf, he⟩
    rw [parseProgram, declarations_of_le hle hlast]
    rfl

theorem parse_eq_of_not_cutOff (h : ¬ CutOff (parseProgram limit tokens).faults)
    (h' : ¬ CutOff (parseProgram limit' tokens).faults) : parse limit tokens = parse limit' tokens := by
  have hsame : parseProgram limit tokens = parseProgram limit' tokens := by
    rcases Nat.le_total limit limit' with hle | hle
    · exact (parseProgram_of_le hle h).symm
    · exact parseProgram_of_le hle h'
  rw [parse, parse, hsame]

end Lox.Parser
