import Lox.Proofs.Syntax.Roaming

/-!
# Expressions in front of a semicolon

No rule for expressions looks behind a semicolon. So where two states have the same tokens up to one, a
rule that succeeds from the one state succeeds from the other as well, whatever stands behind, whatever
has been noted before, and with any depth that is no less. Both runs stop at the same token.
-/

namespace Lox.Parser

open Grammar

variable {α β γ δ : Type} {us vs : List Token} {semicolon : Token} {s s' : State}

/-! ### States with the same tokens up to a semicolon -/

structure Shares (us : List Token) (semicolon : Token) (s s' : State) : Prop where
  left : us ++ [semicolon] <+: s.tokens
  right : us ++ [semicolon] <+: s'.tokens

theorem current_eq_of_starts {t : Token} (h : t :: us <+: s.tokens) : s.current = t := by
  obtain ⟨rest, h⟩ := h
  exact (List.cons.inj h).1.symm

theorem Shares.current_eq (h : Shares us semicolon s s') : s'.current = s.current := by
  obtain ⟨hl, hr⟩ := h
  cases us with
  | nil => rw [current_eq_of_starts hl, current_eq_of_starts hr]
  | cons u us => rw [current_eq_of_starts hl, current_eq_of_starts hr]

theorem Shares.lt_remaining (h : Shares us semicolon s s') :
    us.length < s.remaining ∧ us.length < s'.remaining := by
  have hl := h.left.length_le
  have hr := h.right.length_le
  rw [List.length_append, List.length_singleton] at hl hr
  exact ⟨hl, hr⟩

theorem starts_step (hk : s.current.isEnd = false) {t : Token} (hne : us ≠ [])
    (h : t :: us <+: s.tokens) : us <+: s.step.tokens := by
  obtain ⟨p, c, a, fs⟩ := s
  obtain ⟨rest, h⟩ := h
  obtain ⟨-, rfl⟩ := List.cons.inj h
  obtain ⟨u, us, rfl⟩ := List.exists_cons_of_ne_nil hne
  exact ⟨rest, by simp only [State.step, hk]; rfl⟩

theorem inExpression_ne_end {k : TokenKind} (h : k.inExpression = true) : k ≠ .endOfInput := by
  rintro rfl
  cases h

theorem Shares.step (hsemi : semicolon.kind = .semicolon) (h : Shares us semicolon s s')
    (hk : s.current.kind.inExpression = true) :
    ∃ vs, us = s.current :: vs ∧ Shares vs semicolon s.step s'.step := by
  have hcurrent := h.current_eq
  have hend : s.current.isEnd = false := isEnd_eq_false rfl (inExpression_ne_end hk)
  obtain ⟨hl, hr⟩ := h
  cases us with
  | nil =>
    rw [current_eq_of_starts hl, hsemi] at hk
    cases hk
  | cons u us =>
    have hne : us ++ [semicolon] ≠ [] := List.append_ne_nil_of_right_ne_nil us (List.cons_ne_nil _ [])
    refine ⟨us, by rw [current_eq_of_starts hl], starts_step hend hne hl, ?_⟩
    exact starts_step (hcurrent ▸ hend) hne hr

/-! ### Runs that go along with each other -/

/-- If the one run succeeds, the other one does with a value as said, and both have come to the same
token in front of the semicolon. -/
def Mimics (semicolon : Token) (us : List Token) (Q : α → β → Prop) (rule : Rule α) (s : State)
    (rule' : Rule β) (s' : State) : Prop :=
  ∀ a m, rule s = .ok a m → ∃ b m' vs, rule' s' = .ok b m' ∧ Q a b ∧ Shares vs semicolon m m' ∧
    vs.length ≤ us.length

namespace Mimics

variable {Q : α → β → Prop} {R : γ → δ → Prop}

theorem pure (h : Shares us semicolon s s') {a : α} {b : β} (hq : Q a b) :
    Mimics semicolon us Q (Pure.pure a) s (Pure.pure b) s' := by
  intro a' m hr
  injection hr with ha hm
  subst ha hm
  exact ⟨b, s', us, rfl, hq, h, Nat.le_refl _⟩

theorem never {rule : Rule α} {rule' : Rule β} (h : ∀ a m, rule s ≠ .ok a m) :
    Mimics semicolon us Q rule s rule' s' := fun a m hr => absurd hr (h a m)

theorem bind {rule : Rule α} {rule' : Rule β} {next : α → Rule γ} {next' : β → Rule δ}
    (h : Mimics semicolon us Q rule s rule' s')
    (hn : ∀ {a b m m' vs}, Q a b → Shares vs semicolon m m' → vs.length ≤ us.length →
      Mimics semicolon vs R (next a) m (next' b) m') :
    Mimics semicolon us R (rule >>= next) s (rule' >>= next') s' := by
  intro c m hr
  cases hrule : rule s with
  | error e n =>
    rw [bind_of_error hrule] at hr
    cases hr
  | ok a n =>
    rw [bind_of_ok hrule] at hr
    obtain ⟨b, n', vs, hrule', hq, hshares, hle⟩ := h a n hrule
    obtain ⟨d, m', ws, hnext', hresult, hshares', hle'⟩ := hn hq hshares hle c m hr
    refine ⟨d, m', ws, ?_, hresult, hshares', Nat.le_trans hle' hle⟩
    rw [bind_of_ok hrule']
    exact hnext'

theorem mono {rule : Rule α} {rule' : Rule β} (h : Mimics semicolon vs Q rule s rule' s')
    (hle : vs.length ≤ us.length) : Mimics semicolon us Q rule s rule' s' := fun a m hr =>
  have ⟨b, m', ws, hr', hq, hshares, hle'⟩ := h a m hr
  ⟨b, m', ws, hr', hq, hshares, Nat.le_trans hle' hle⟩

theorem ite {c : Prop} [Decidable c] {rule₁ rule₂ : Rule α} {rule₁' rule₂' : Rule β}
    (h₁ : c → Mimics semicolon us Q rule₁ s rule₁' s') (h₂ : ¬ c → Mimics semicolon us Q rule₂ s rule₂' s') :
    Mimics semicolon us Q (if c then rule₁ else rule₂) s (if c then rule₁' else rule₂') s' := by
  split
  · exact h₁ ‹_›
  · exact h₂ ‹_›

/-! ### Looking and moving -/

theorem current (h : Shares us semicolon s s') {next : Token → Rule γ} {next' : Token → Rule δ}
    (hn : Mimics semicolon us R (next s.current) s (next' s.current) s') :
    Mimics semicolon us R (Parser.current >>= next) s (Parser.current >>= next') s' := by
  intro c m hr
  have heq : (Parser.current >>= next') s' = next' s.current s' := congrArg (next' · s') h.current_eq
  rw [heq]
  exact hn c m hr

theorem peek (h : Shares us semicolon s s') {next : TokenKind → Rule γ} {next' : TokenKind → Rule δ}
    (hn : Mimics semicolon us R (next s.current.kind) s (next' s.current.kind) s') :
    Mimics semicolon us R (Parser.peek >>= next) s (Parser.peek >>= next') s' := by
  intro c m hr
  have heq : (Parser.peek >>= next') s' = next' s.current.kind s' :=
    congrArg (fun t => next' (Token.kind t) s') h.current_eq
  rw [heq]
  exact hn c m hr

theorem advance (hsemi : semicolon.kind = .semicolon) (h : Shares us semicolon s s')
    (hk : s.current.kind.inExpression = true) {next : Token → Rule γ} {next' : Token → Rule δ}
    (hn : ∀ {vs}, Shares vs semicolon s.step s'.step → vs.length < us.length →
      Mimics semicolon vs R (next s.current) s.step (next' s.current) s'.step) :
    Mimics semicolon us R (Parser.advance >>= next) s (Parser.advance >>= next') s' := by
  obtain ⟨vs, rfl, hshares⟩ := h.step hsemi hk
  intro c m hr
  have heq : (Parser.advance >>= next') s' = next' s.current s'.step :=
    congrArg (next' · s'.step) h.current_eq
  rw [heq]
  exact mono (hn hshares (Nat.lt_succ_self _)) (Nat.le_succ _) c m hr

theorem expect (hsemi : semicolon.kind = .semicolon) (h : Shares us semicolon s s') {kind : TokenKind}
    (hk : kind.inExpression = true) (expected expected' : String) :
    Mimics semicolon us Eq (Parser.expect kind expected) s (Parser.expect kind expected') s' := by
  intro t m hr
  rw [Parser.expect] at hr
  split at hr
  · rename_i hkind
    injection hr with ht hm
    subst ht hm
    obtain ⟨vs, rfl, hshares⟩ := h.step hsemi (hkind ▸ hk)
    refine ⟨s.current, s'.step, vs, ?_, rfl, hshares, Nat.le_succ _⟩
    rw [Parser.expect, h.current_eq, if_pos hkind, Parser.advance, h.current_eq]
  · cases hr

theorem accept (hsemi : semicolon.kind = .semicolon) (h : Shares us semicolon s s') {kind : TokenKind}
    (hk : kind.inExpression = true) {next : Bool → Rule γ} {next' : Bool → Rule δ}
    (ht : ∀ {vs}, s.current.kind = kind → Shares vs semicolon s.step s'.step → vs.length < us.length →
      Mimics semicolon vs R (next true) s.step (next' true) s'.step)
    (hf : Mimics semicolon us R (next false) s (next' false) s') :
    Mimics semicolon us R (Parser.accept kind >>= next) s (Parser.accept kind >>= next') s' := by
  intro c m hr
  by_cases hkind : s.current.kind = kind
  · rw [accept_bind_of_eq hkind] at hr
    rw [accept_bind_of_eq (h.current_eq ▸ hkind)]
    obtain ⟨vs, rfl, hshares⟩ := h.step hsemi (hkind ▸ hk)
    exact mono (ht hkind hshares (Nat.lt_succ_self _)) (Nat.le_succ _) c m hr
  · rw [accept_bind_of_ne hkind] at hr
    rw [accept_bind_of_ne (h.current_eq ▸ hkind)]
    exact hf c m hr

theorem spanFrom (h : Shares us semicolon s s') (start start' : Token) :
    Mimics semicolon us (fun _ _ => True) (Parser.spanFrom start) s (Parser.spanFrom start') s' := by
  intro a m hr
  injection hr with ha hm
  subst ha hm
  exact ⟨_, s', us, rfl, trivial, h, Nat.le_refl _⟩

/-! ### Expressions -/

/-- All that the rules ask of an expression that they have read. -/
def isTarget : RawExpr → Bool
  | .varRef _ _ _ => true
  | _ => false

def SameTarget (e e' : RawExpr) : Prop := isTarget e = isTarget e'

theorem assignTo_eq (target : RawExpr) (equals : Token) (value : RawExpr) :
    (isTarget target = true ∧ ∃ e, isTarget e = false ∧
        Parser.assignTo target equals value = Pure.pure e) ∨
      (isTarget target = false ∧
        Parser.assignTo target equals value =
          (do report .invalidAssignmentTarget equals.span; return target)) := by
  cases target with
  | varRef span name ref => exact Or.inl ⟨rfl, _, rfl, rfl⟩
  | _ => exact Or.inr ⟨rfl, rfl⟩

/-- Two rules for expressions that go along with each other wherever the tokens are the same. -/
def OfExpr (semicolon : Token) (rule rule' : Rule RawExpr) : Prop :=
  ∀ {us s s'}, Shares us semicolon s s' → Mimics semicolon us SameTarget rule s rule' s'

theorem isTarget_build {op? : TokenKind → Option α} {build : Span → α → RawExpr → RawExpr → RawExpr}
    {operator : α → Operator} {level inner : Level} (h : ChainOf op? build operator level inner)
    (span : Span) (op : α) (l r : RawExpr) : isTarget (build span op l r) = false := by
  rw [h.build]
  cases operator op <;> rfl

section

variable (hsemi : semicolon.kind = .semicolon) {operand operand' nested nested' : Rule RawExpr}
include hsemi

theorem chainFrom {op? : TokenKind → Option α} {build : Span → α → RawExpr → RawExpr → RawExpr}
    {operator : α → Operator} {level inner : Level} (hc : ChainOf op? build operator level inner)
    (ho : OfExpr semicolon operand operand') {n n' : Nat} (hn : us.length < n) (hn' : us.length < n')
    (h : Shares us semicolon s s') {l l' : RawExpr} (hl : SameTarget l l') :
    Mimics semicolon us SameTarget (Parser.chainFrom op? build operand n l) s
      (Parser.chainFrom op? build operand' n' l') s' := by
  induction n generalizing n' us l l' s s' with
  | zero => exact absurd hn (Nat.not_lt_zero _)
  | succ n ih =>
    obtain ⟨n', rfl⟩ := Nat.exists_eq_succ_of_ne_zero (Nat.ne_zero_of_lt hn')
    refine peek h ?_
    cases hk : op? s.current.kind with
    | none => exact pure h hl
    | some op =>
      refine advance hsemi h (hc.inExpression hk) fun hstep hlt => bind (ho hstep) fun _ hm hle => ?_
      exact ih (by omega) (by omega) hm ((isTarget_build hc ..).trans (isTarget_build hc ..).symm)

theorem chain {op? : TokenKind → Option α} {build : Span → α → RawExpr → RawExpr → RawExpr}
    {operator : α → Operator} {level inner : Level} (hc : ChainOf op? build operator level inner)
    (ho : OfExpr semicolon operand operand') :
    OfExpr semicolon (Parser.chain op? build operand) (Parser.chain op? build operand') := fun h =>
  bind (ho h) fun hl hm _ =>
    have hlt := hm.lt_remaining
    chainFrom hsemi hc ho hlt.1 hlt.2 hm hl

theorem disjunction (ho : OfExpr semicolon operand operand') :
    OfExpr semicolon (Parser.disjunction operand) (Parser.disjunction operand') :=
  chain hsemi chainOf_or <| chain hsemi chainOf_and <| chain hsemi chainOf_equality <|
    chain hsemi chainOf_comparison <| chain hsemi chainOf_term <| chain hsemi chainOf_factor ho

theorem primary (hn : OfExpr semicolon nested nested') :
    OfExpr semicolon (Parser.primary nested) (Parser.primary nested') := by
  intro us s s' h
  refine current h ?_
  split
  case h_7 hk =>
    refine advance hsemi h (by rw [hk]; rfl) fun hstep _ => bind (hn hstep) fun _ hm _ => ?_
    refine bind (expect hsemi hm rfl _ _) fun _ hm _ => bind (spanFrom hm _ _) fun _ hm _ => ?_
    exact pure hm rfl
  case h_8 =>
    refine never fun a m hr => ?_
    split at hr <;> cases hr
  all_goals
    rename_i hk
    exact advance hsemi h (by rw [hk]; rfl) fun hstep _ => pure hstep rfl

omit hsemi in
theorem checkCount (h : Shares us semicolon s s') (count : Nat) (what : String) :
    Mimics semicolon us (fun _ _ => True) (Parser.checkCount count what) s
      (Parser.checkCount count what) s' := by
  refine ite (fun _ => current h ?_) fun _ => pure h trivial
  intro a m hr
  injection hr with ha hm
  subst ha hm
  exact ⟨(), _, us, rfl, trivial, ⟨h.left, h.right⟩, Nat.le_refl _⟩

theorem separated (what : String) (hi : OfExpr semicolon nested nested') {n n' : Nat} (taken : Nat)
    (hn : us.length < n) (hn' : us.length < n') (h : Shares us semicolon s s') :
    Mimics semicolon us (fun _ _ => True) (Parser.separated what nested n taken) s
      (Parser.separated what nested' n' taken) s' := by
  induction n generalizing n' us s s' taken with
  | zero => exact absurd hn (Nat.not_lt_zero _)
  | succ n ih =>
    obtain ⟨n', rfl⟩ := Nat.exists_eq_succ_of_ne_zero (Nat.ne_zero_of_lt hn')
    refine bind (checkCount h taken what) fun _ hm hle => bind (hi hm) fun _ hm hle' => ?_
    refine accept hsemi hm rfl (fun _ hstep hlt => ?_) (pure hm trivial)
    exact bind (ih (taken + 1) (by omega) (by omega) hstep) fun _ hm _ => pure hm trivial

theorem listed (what : String) (hi : OfExpr semicolon nested nested') (h : Shares us semicolon s s') :
    Mimics semicolon us (fun _ _ => True) (Parser.listed what nested) s
      (Parser.listed what nested') s' :=
  peek h (ite (fun _ => pure h trivial) fun _ =>
    separated hsemi what hi 0 h.lt_remaining.1 h.lt_remaining.2 h)

theorem callsFrom (hn : OfExpr semicolon nested nested') {n n' : Nat} (hlt : us.length < n)
    (hlt' : us.length < n') (h : Shares us semicolon s s') {f f' : RawExpr} (hf : SameTarget f f') :
    Mimics semicolon us SameTarget (Parser.callsFrom nested n f) s (Parser.callsFrom nested' n' f') s' := by
  induction n generalizing n' us f f' s s' with
  | zero => exact absurd hlt (Nat.not_lt_zero _)
  | succ n ih =>
    obtain ⟨n', rfl⟩ := Nat.exists_eq_succ_of_ne_zero (Nat.ne_zero_of_lt hlt')
    refine accept hsemi h rfl (fun _ hstep _ => ?_) (pure h hf)
    refine bind (listed hsemi _ hn hstep) fun _ hm _ => bind (expect hsemi hm rfl _ _) fun _ hm _ => ?_
    exact ih (by omega) (by omega) hm rfl

theorem call (hn : OfExpr semicolon nested nested') :
    OfExpr semicolon (Parser.call nested) (Parser.call nested') := fun h =>
  bind (primary hsemi hn h) fun hf hm _ =>
    callsFrom hsemi hn hm.lt_remaining.1 hm.lt_remaining.2 hm hf

omit hsemi in
theorem assignTo (h : Shares us semicolon s s') {target target' value value' : RawExpr}
    (ht : SameTarget target target') (equals : Token) :
    Mimics semicolon us SameTarget (Parser.assignTo target equals value) s
      (Parser.assignTo target' equals value') s' := by
  rcases assignTo_eq target equals value with ⟨hk, e, he, heq⟩ | ⟨hk, heq⟩
  · rcases assignTo_eq target' equals value' with ⟨hk', e', he', heq'⟩ | ⟨hk', heq'⟩
    · rw [heq, heq']
      exact pure h (he.trans he'.symm)
    · cases (hk.symm.trans ht).trans hk'
  · rcases assignTo_eq target' equals value' with ⟨hk', e', he', heq'⟩ | ⟨hk', heq'⟩
    · cases (hk.symm.trans ht).trans hk'
    · intro a m hr
      rw [heq] at hr
      injection hr with ha hm
      subst ha hm
      rw [heq']
      exact ⟨target', _, us, rfl, ht, ⟨h.left, h.right⟩, Nat.le_refl _⟩

theorem unary_expression {depth depth' : Nat} (hle : depth ≤ depth') :
    OfExpr semicolon (Parser.unary depth) (Parser.unary depth') ∧
      OfExpr semicolon (Parser.expression depth) (Parser.expression depth') := by
  induction depth generalizing depth' with
  | zero =>
    have hnever {s : State} (a : RawExpr) (m : State) :
        (throw .tooDeep : Rule RawExpr) s ≠ .ok a m := nofun
    rw [Parser.unary, Parser.expression]
    exact ⟨fun _ => never hnever, fun _ => never hnever⟩
  | succ depth ih =>
    obtain ⟨depth', rfl⟩ := Nat.exists_eq_add_of_le' hle
    obtain ⟨hu, he⟩ := ih (Nat.le_of_succ_le_succ hle)
    constructor
    · intro us s s' h
      refine current h ?_
      cases hk : unaryOp? s.current.kind with
      | none => exact call hsemi he h
      | some op =>
        refine advance hsemi h (inExpression_of_unaryOp? hk) fun hstep _ => bind (hu hstep) fun _ hm _ => ?_
        exact bind (spanFrom hm _ _) fun _ hm _ => pure hm rfl
    · intro us s s' h
      refine bind (disjunction hsemi hu h) fun ht hm _ => current hm ?_
      refine accept hsemi hm rfl (fun _ hstep _ => ?_) (pure hm ht)
      exact bind (he hstep) fun _ hm _ => assignTo hm ht _

end

end Mimics

end Lox.Parser
