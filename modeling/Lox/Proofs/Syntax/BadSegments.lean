import Lox.Proofs.Syntax.Locality
import Lox.Proofs.Syntax.Recognition

/-!
# Segments at fault

A segment that ends in its only semicolon, has no brace and no keyword that begins a statement, and is
rejected as a declaration. Where it stands in a program makes no difference: it is rejected there as well,
at one of its own tokens, and the parse goes on right behind its semicolon.
-/

namespace Lox

/-- The kinds of tokens at which no statement ends and none begins. -/
def TokenKind.isPlain (k : TokenKind) : Bool :=
  match k with
  | .semicolon | .leftBrace | .rightBrace | .endOfInput => false
  | k => !k.beginsStatement

namespace Parser

open Grammar

variable {α : Type} {limit : Nat} {us vs : List Token} {semicolon : Token} {s m s' : State}

/-- The state in front of tokens with nothing but the end behind them. -/
def stateBefore : List Token → Token → State
  | [], last => initialState last []
  | t :: ts, last => initialState t (ts ++ [last])

theorem tokens_stateBefore (ts : List Token) (last : Token) :
    (stateBefore ts last).tokens = ts ++ [last] := by
  cases ts <;> rfl

inductive IsBad (limit : Nat) : List Token → Prop where
  | intro {ts : List Token} {semicolon last : Token} {s : State} :
    (∀ t ∈ ts, t.kind.isPlain = true) → semicolon.kind = .semicolon →
      BeginsWith (· ≠ .kwElse) (ts ++ [semicolon]) → last.kind = .endOfInput →
      declaration limit (stateBefore (ts ++ [semicolon]) last) = .ok none s →
      IsBad limit (ts ++ [semicolon])

/-! ### Behind the semicolon -/

theorem isEnd_of_isPlain {t : Token} (h : t.kind.isPlain = true) : t.isEnd = false := by
  refine isEnd_eq_false rfl fun hk => ?_
  rw [hk] at h
  cases h

theorem skipToBoundary_semicolon (n : Nat) (h : s.previous.kind = .semicolon) :
    skipToBoundary n s = .ok () s := by
  cases n with
  | zero => rfl
  | succ n => simp [skipToBoundary, h]

theorem skipToBoundary_step {n : Nat} (hend : s.current.isEnd = false)
    (hp : s.previous.kind ≠ .semicolon) (hb : s.current.kind.beginsStatement = false) :
    skipToBoundary (n + 1) s = skipToBoundary n s.step := by
  simp [skipToBoundary, hend, hp, hb]

theorem beginsStatement_of_isPlain {k : TokenKind} (h : k.isPlain = true) :
    k.beginsStatement = false := by
  cases k <;> first | rfl | cases h

theorem skipToBoundary_segment (hplain : ∀ t ∈ us, t.kind.isPlain = true)
    (hsemi : semicolon.kind = .semicolon) {n : Nat} (hn : us.length < n)
    (hp : s.previous.kind ≠ .semicolon) (h : Moves s (us ++ [semicolon]) s') :
    skipToBoundary n s = .ok () s' := by
  obtain ⟨n, rfl⟩ := Nat.exists_eq_add_of_le' (Nat.one_le_of_lt hn)
  induction us generalizing n s with
  | nil =>
    have hend := isEnd_eq_false hsemi (by decide)
    have hb : s.current.kind.beginsStatement = false := by
      rw [h.current_eq, hsemi]
      rfl
    rw [skipToBoundary_step (h.current_eq ▸ hend) hp hb, h.step_eq hend]
    refine skipToBoundary_semicolon n ?_
    rw [h.previous]
    exact hsemi
  | cons u us ih =>
    rw [List.forall_mem_cons] at hplain
    obtain ⟨hu, hplain⟩ := hplain
    obtain ⟨m, hm, hrest⟩ := moves_cons_iff.1 h
    have hend := isEnd_of_isPlain hu
    have hb : s.current.kind.beginsStatement = false :=
      hm.current_eq ▸ beginsStatement_of_isPlain hu
    rw [skipToBoundary_step (hm.current_eq ▸ hend) hp hb, hm.step_eq hend]
    rw [List.length_cons] at hn
    obtain ⟨n, rfl⟩ := Nat.exists_eq_add_of_le' (Nat.one_le_of_lt (Nat.lt_of_succ_lt_succ hn))
    refine ih hplain ?_ hrest n (by omega)
    rw [hm.previous]
    show u.kind ≠ .semicolon
    intro hk
    rw [hk] at hu
    cases hu

/-- Wherever in the segment a run is rejected, the parse goes on behind its semicolon. -/
theorem synchronize_segment (hplain : ∀ t ∈ us, t.kind.isPlain = true)
    (hsemi : semicolon.kind = .semicolon) (h : Moves s (us ++ [semicolon]) s') :
    synchronize s = .ok () s' := by
  cases us with
  | nil =>
    rw [synchronize, h.step_eq (isEnd_eq_false hsemi (by decide))]
    refine skipToBoundary_semicolon _ ?_
    rw [h.previous]
    exact hsemi
  | cons u us =>
    rw [List.forall_mem_cons] at hplain
    obtain ⟨m, hm, hrest⟩ := moves_cons_iff.1 h
    have hlen := h.remaining
    rw [List.length_append, List.length_cons] at hlen
    rw [synchronize, hm.step_eq (isEnd_of_isPlain hplain.1)]
    refine skipToBoundary_segment hplain.2 hsemi (by omega) ?_ hrest
    rw [hm.previous]
    show u.kind ≠ .semicolon
    intro hk
    rw [hk] at hplain
    cases hplain.1

/-! ### Rejected runs -/

theorem Passage.within {ts : List Token} {fs : List SyntaxFault} (hsemi : semicolon.kind = .semicolon)
    (hpass : Passage s ts fs m) (h : Moves s (us ++ [semicolon]) s') :
    ∃ vs, us = ts ++ vs ∧ m.tokens = vs ++ semicolon :: s'.tokens := by
  have heq : ts ++ m.tokens = us ++ semicolon :: s'.tokens := by
    rw [← hpass.tokens, h.tokens, List.append_assoc]
    rfl
  rcases List.append_eq_append_iff.mp heq with ⟨vs, hus, hm⟩ | ⟨vs, hts, hrest⟩
  · exact ⟨vs, hus, hm⟩
  · cases vs with
    | nil => exact ⟨[], by simpa using hts.symm, hrest.symm⟩
    | cons v vs =>
      obtain ⟨rfl, -⟩ := List.cons.inj hrest
      have hin := hpass.kinds semicolon (hts ▸ List.mem_append_right us List.mem_cons_self)
      rw [hsemi] at hin
      cases hin

theorem current_mem_of_eq {t : Token} {rest : List Token} (h : s.tokens = us ++ t :: rest) :
    s.current ∈ us ++ [t] := by
  cases us with
  | nil => exact List.mem_singleton.mpr (List.cons.inj h).1
  | cons u us => exact List.mem_append_left _ ((List.cons.inj h).1 ▸ List.mem_cons_self)

theorem recovering_segment {rule : Rule α} {ts : List Token} {fs : List SyntaxFault} {f : SyntaxFault}
    (hplain : ∀ t ∈ us, t.kind.isPlain = true) (hsemi : semicolon.kind = .semicolon)
    (h : Moves s (us ++ [semicolon]) s') (hpass : Passage s ts fs m)
    (hr : rule s = .error (.rejected f) m) (hf : f.span = m.current.span) :
    recovering rule s = .ok none (s'.plus (f :: fs)) ∧
      Accuses (f :: fs).reverse (us ++ [semicolon]) := by
  obtain ⟨vs, rfl, hm⟩ := hpass.within hsemi h
  have hmoves : Moves (m.noting f) (vs ++ [semicolon]) (s'.plus (f :: fs)) := by
    refine ⟨by rw [List.append_assoc]; exact hm, ?_, ?_⟩
    · show s'.previous = _
      rw [h.previous, List.getLastD_concat, List.getLastD_concat]
    · show f :: (fs ++ s'.faults) = f :: m.faults
      rw [h.faults, hpass.faults]
  have hsync := synchronize_segment (fun t ht => hplain t (List.mem_append_right ts ht)) hsemi hmoves
  have hcurrent := current_mem_of_eq hm
  have hinside : ts ++ [m.current] ⊆ ts ++ vs ++ [semicolon] := by
    rw [List.append_assoc]
    exact List.append_subset.mpr ⟨List.subset_append_left _ _,
      List.cons_subset.mpr ⟨List.mem_append_right ts hcurrent, List.nil_subset _⟩⟩
  constructor
  · rw [recovering, hr]
    dsimp only
    rw [show synchronize { m with faults := f :: m.faults } = _ from hsync]
  · refine ⟨by simp, fun g hg => ?_⟩
    rcases List.mem_cons.mp (List.mem_reverse.mp hg) with rfl | hg
    · exact ⟨m.current, hinside (List.mem_append_right ts (List.mem_singleton_self _)), hf⟩
    · obtain ⟨-, t, ht, hspan⟩ := hpass.noted g hg
      exact ⟨t, hinside ht, hspan⟩

/-! ### Declarations that are rejected -/

/-- The expression statement that begins with `start`. -/
abbrev expressionAt (depth : Nat) (start : Token) : Rule RawStmt :=
  expressionStatement (expression depth) start "';' after expression"

theorem expect_of_ne {kind : TokenKind} (h : s.current.kind ≠ kind) (expected : String) :
    ∃ error, expect kind expected s = .error (.rejected ⟨error, s.current.span⟩) s := by
  rw [expect, if_neg h]
  exact ⟨_, rfl⟩

/-- A run of an expression statement is cut off, or it is rejected on a way through an expression, or it
has come to its semicolon. -/
theorem expressionAt_cases (depth : Nat) (start : Token) (s : State) :
    (∃ s', expressionAt depth start s = .error .tooDeep s') ∨
      (∃ f m ts fs, expressionAt depth start s = .error (.rejected f) m ∧ f.span = m.current.span ∧
        Passage s ts fs m) ∨
      ∃ e m, expression depth s = .ok e m ∧ m.current.kind = .semicolon := by
  have harrives := arrives_expression depth s
  have hfinal := harrives.final
  cases hr : expression depth s with
  | error e m =>
    have hfail : expressionAt depth start s = .error e m := bind_of_error hr
    cases e with
    | tooDeep => exact Or.inl ⟨m, hfail⟩
    | rejected f =>
      rw [hr] at hfinal
      obtain ⟨ts, fs, hpass⟩ := hfinal.passage
      exact Or.inr (Or.inl ⟨f, m, ts, fs, hfail, harrives.place hr, hpass⟩)
  | ok e m =>
    by_cases hk : m.current.kind = .semicolon
    · exact Or.inr (Or.inr ⟨e, m, rfl, hk⟩)
    · rw [hr] at hfinal
      obtain ⟨ts, fs, hpass⟩ := hfinal.passage
      obtain ⟨error, hno⟩ := expect_of_ne hk "';' after expression"
      refine Or.inr (Or.inl ⟨⟨error, m.current.span⟩, m, ts, fs, ?_, rfl, hpass⟩)
      rw [expressionAt, expressionStatement, bind_of_ok hr, bind_of_error hno]

theorem expressionAt_of_ok {depth : Nat} {e : RawExpr} (start : Token)
    (hr : expression depth s = .ok e m) (hk : m.current.kind = .semicolon) :
    ∃ stmt s', expressionAt depth start s = .ok stmt s' := by
  have hsemi : expect .semicolon "';' after expression" m = .ok m.current m.step := by
    rw [expect, if_pos hk]
    rfl
  refine ⟨.expression (start.span.join m.step.previous.span) e, m.step, ?_⟩
  rw [expressionAt, expressionStatement, bind_of_ok hr, bind_of_ok hsemi]
  rfl

/-- What a declaration is that begins with no keyword and no brace. -/
def plainDeclaration : Nat → Token → Rule RawStmt
  | 0, _ => throw .tooDeep
  | depth + 1, start =>
    if start.kind.isReserved then reject (.reservedKeyword start.lexeme) start.span
    else expressionAt depth start

theorem recovering_congr {rule rule' : Rule α} (h : rule s = rule' s) :
    recovering rule s = recovering rule' s := by
  rw [recovering, recovering, h]

theorem declaration_of_plain (hb : s.current.kind.beginsStatement = false)
    (hl : s.current.kind ≠ .leftBrace) (depth : Nat) :
    declaration (depth + 1) s = recovering (plainDeclaration depth s.current) s := by
  rw [declaration]
  refine recovering_congr ?_
  obtain ⟨previous, ⟨kind, lexeme, span⟩, ahead, faults⟩ := s
  cases depth with
  | zero =>
    rw [statement]
    cases kind <;> first | rfl | cases hb
  | succ depth =>
    rw [statement]
    cases kind <;> first | rfl | exact absurd rfl hl | cases hb

theorem plainDeclaration_of_reserved {start : Token} (h : start.kind.isReserved = true) (depth : Nat) :
    plainDeclaration (depth + 1) start = reject (.reservedKeyword start.lexeme) start.span := by
  rw [plainDeclaration, if_pos h]

theorem plainDeclaration_of_not_reserved {start : Token} (h : ¬ start.kind.isReserved = true)
    (depth : Nat) : plainDeclaration (depth + 1) start = expressionAt depth start := by
  rw [plainDeclaration, if_neg h]

theorem shares_of_moves {last : Token} (h : Moves s (us ++ [semicolon]) s') :
    Shares us semicolon s (stateBefore (us ++ [semicolon]) last) where
  left := ⟨s'.tokens, h.tokens.symm⟩
  right := ⟨[last], (tokens_stateBefore _ last).symm⟩

theorem not_accepted_of_isBad {last : Token} {t : State} (hsemi : semicolon.kind = .semicolon)
    (hrejected : declaration limit (stateBefore (us ++ [semicolon]) last) = .ok none t)
    (hb : s.current.kind.beginsStatement = false) (hl : s.current.kind ≠ .leftBrace)
    (hreserved : ¬ s.current.kind.isReserved = true) {depth : Nat} (hd : depth + 2 ≤ limit)
    (h : Moves s (us ++ [semicolon]) s') {e : RawExpr} (hr : expression depth s = .ok e m) :
    m.current.kind ≠ .semicolon := by
  intro hk
  have hshares : Shares us semicolon s (stateBefore (us ++ [semicolon]) last) := shares_of_moves h
  have hcurrent := hshares.current_eq
  obtain ⟨k, rfl⟩ := Nat.exists_eq_add_of_le' hd
  have hle : depth ≤ k + depth := Nat.le_add_left depth k
  obtain ⟨e', m', vs, hr', -, hshares', -⟩ :=
    (Mimics.unary_expression hsemi hle).2 hshares e m hr
  have hk' : m'.current.kind = .semicolon := hshares'.current_eq ▸ hk
  obtain ⟨stmt, t', hok⟩ :=
    expressionAt_of_ok (stateBefore (us ++ [semicolon]) last).current hr' hk'
  have heq : declaration (k + (depth + 2)) (stateBefore (us ++ [semicolon]) last) = .ok (some stmt) t' := by
    rw [← Nat.add_assoc, declaration_of_plain (hcurrent ▸ hb) (hcurrent ▸ hl),
      plainDeclaration_of_not_reserved (hcurrent ▸ hreserved), recovering, hok]
  rw [heq] at hrejected
  cases hrejected

theorem begins_segment (hplain : ∀ t ∈ us, t.kind.isPlain = true) (hsemi : semicolon.kind = .semicolon)
    (h : Moves s (us ++ [semicolon]) s') :
    s.current.kind.beginsStatement = false ∧ s.current.kind ≠ .leftBrace := by
  have htokens : s.tokens = us ++ semicolon :: s'.tokens := by
    rw [h.tokens, List.append_assoc]
    rfl
  rcases List.mem_append.mp (current_mem_of_eq htokens) with hmem | hmem
  · have hp := hplain _ hmem
    refine ⟨beginsStatement_of_isPlain hp, fun hk => ?_⟩
    rw [hk] at hp
    cases hp
  · rw [List.mem_singleton.mp hmem, hsemi]
    exact ⟨rfl, by decide⟩

/-- A segment at fault is left out wherever it stands, and the faults noted are at its own tokens. -/
theorem mended_of_isBad {ts : List Token} (h : IsBad limit ts) : Mended limit .item ⟨ts, none, [ts]⟩ := by
  obtain ⟨hplain, hsemi, -, -, hrejected⟩ := h
  rename_i us semicolon last t
  intro depth hd s s' hm _
  obtain ⟨hb, hl⟩ := begins_segment hplain hsemi hm
  have htooDeep {rule : Rule RawStmt} {m : State} (hr : rule s = .error .tooDeep m) :
      Notes [us ++ [semicolon]] (recovering rule) s none s' :=
    Or.inr ⟨m, by rw [recovering, hr]⟩
  have hleft {rule : Rule RawStmt} {f : SyntaxFault} {m : State} {ts : List Token}
      {fs : List SyntaxFault} (hr : rule s = .error (.rejected f) m) (hf : f.span = m.current.span)
      (hpass : Passage s ts fs m) : Notes [us ++ [semicolon]] (recovering rule) s none s' := by
    obtain ⟨hnone, haccuses⟩ := recovering_segment hplain hsemi hm hpass hr hf
    refine Or.inl ⟨f :: fs, ?_, hnone⟩
    rw [← List.append_nil (f :: fs).reverse]
    exact .cons haccuses .nil
  cases depth with
  | zero => exact notes_tooDeep s s' none
  | succ depth =>
    rw [Notes, declaration_of_plain hb hl]
    cases depth with
    | zero => exact htooDeep (m := s) rfl
    | succ depth =>
      by_cases hreserved : s.current.kind.isReserved = true
      · rw [plainDeclaration_of_reserved hreserved]
        exact hleft (m := s) rfl rfl (.refl s)
      · rw [plainDeclaration_of_not_reserved hreserved]
        rcases expressionAt_cases depth s.current s with
          ⟨m, hr⟩ | ⟨f, m, ts, fs, hr, hf, hpass⟩ | ⟨e, m, hr, hk⟩
        · exact htooDeep hr
        · exact hleft hr hf hpass
        · exact absurd hk (not_accepted_of_isBad hsemi hrejected hb hl hreserved hd hm hr)

end Parser

end Lox
