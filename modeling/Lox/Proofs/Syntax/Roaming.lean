import Lox.Proofs.Syntax.ExpressionSoundness

/-!
# Ways through expressions

Whatever the rules for expressions do, they take tokens that stand in expressions, note at the current
token that there are too many arguments, or note at an `=` behind them that it has no target. A run is
a way of such steps, also if it fails or notes faults, and a rejected run ends at the token that it is
rejected at. So what is kept by each step is kept by all runs.
-/

namespace Lox

/-- The kinds of the tokens that expressions are made of. -/
def TokenKind.inExpression : TokenKind → Bool
  | .number | .string | .identifier | .kwAnd | .kwFalse | .kwNil | .kwOr | .kwTrue
  | .leftParen | .rightParen | .comma | .plus | .minus | .star | .slash | .bang | .assign
  | .equal | .notEqual | .less | .greater | .lessEqual | .greaterEqual => true
  | _ => false

namespace Parser

open Grammar

theorem ChainOf.inExpression {α : Type} {op? : TokenKind → Option α}
    {build : Span → α → RawExpr → RawExpr → RawExpr} {operator : α → Operator} {level inner : Level}
    (h : ChainOf op? build operator level inner) {k : TokenKind} {op : α} (hop : op? k = some op) :
    k.inExpression = true := by
  have hlevel : level.operator? k = some (operator op) := by rw [h.operator?, hop, Option.map_some]
  cases level <;> cases k <;> first | rfl | cases hlevel

theorem inExpression_of_unaryOp? {k : TokenKind} {op : UnaryOp} (h : unaryOp? k = some op) :
    k.inExpression = true := by
  cases k <;> first | rfl | cases h

def State.noting (s : State) (f : SyntaxFault) : State := { s with faults := f :: s.faults }

/-- The ways of expressions from one state to another. The last one notes a fault at an `=` that has been
taken before the way to its right was gone. -/
inductive Roams : State → State → Prop where
  | stay (s : State) : Roams s s
  | take {s m : State} : Roams s m → m.current.kind.inExpression = true → Roams s m.step
  | count {s m : State} : Roams s m →
      Roams s (m.noting ⟨.tooMany "arguments" maxArguments, m.current.span⟩)
  | target {s m m' : State} : Roams s m → m.current.kind = .assign → Roams m.step m' →
      Roams s (m'.noting ⟨.invalidAssignmentTarget, m.current.span⟩)

theorem Roams.trans {s m s' : State} (h : Roams s m) (h' : Roams m s') : Roams s s' := by
  induction h' with
  | stay => exact h
  | take _ hk ih => exact (ih h).take hk
  | count _ ih => exact (ih h).count
  | target _ hk hv ih _ => exact (ih h).target hk hv

/-- What happens between two states, where nothing may happen and one thing may happen after another. -/
class Composes (Q : State → State → Prop) : Prop where
  refl : ∀ s, Q s s
  trans : ∀ {s m s'}, Q s m → Q m s' → Q s s'

instance : Composes Roams := ⟨.stay, .trans⟩

variable {α β : Type} {s : State}

theorem accept_bind_of_eq {kind : TokenKind} (h : s.current.kind = kind) (next : Bool → Rule β) :
    (accept kind >>= next) s = next true s.step :=
  bind_of_ok (by rw [accept, if_pos h])

theorem accept_bind_of_ne {kind : TokenKind} (h : s.current.kind ≠ kind) (next : Bool → Rule β) :
    (accept kind >>= next) s = next false s :=
  bind_of_ok (by rw [accept, if_neg h])

variable {Q : State → State → Prop} [Composes Q]

/-! ### Runs -/

/-- What a run does to the state is in `Q`, and a rejected run ends at the token that it is rejected
at. -/
structure Arrives (Q : State → State → Prop) (rule : Rule α) (s : State) : Prop where
  final : Q s (finalState (rule s))
  place : ∀ {f s'}, rule s = .error (.rejected f) s' → f.span = s'.current.span

namespace Arrives

omit [Composes Q] in
theorem of_ok {rule : Rule α} {a : α} {s' : State} (hr : rule s = .ok a s') (h : Q s s') :
    Arrives Q rule s :=
  ⟨by rwa [hr], fun he => by rw [hr] at he; cases he⟩

theorem pure (a : α) : Arrives Q (Pure.pure a : Rule α) s := of_ok rfl (Composes.refl s)

theorem tooDeep : Arrives Q (throw .tooDeep : Rule α) s := ⟨Composes.refl s, nofun⟩

theorem reject (error : SyntaxError) : Arrives Q (Parser.reject error s.current.span : Rule α) s :=
  ⟨Composes.refl s, fun he => by
    injection he with hf hs
    injection hf with hf
    subst hf hs
    rfl⟩

theorem unexpected (expected : String) : Arrives Q (Parser.unexpected expected : Rule α) s :=
  let error : SyntaxError :=
    if s.current.isEnd then .unexpectedEnd expected
    else .unexpectedToken expected (Text.quoted s.current.lexeme)
  have hr : Arrives Q (Parser.reject error s.current.span : Rule α) s := reject error
  ⟨hr.final, hr.place⟩

omit [Composes Q] in
theorem ite {c : Prop} [Decidable c] {rule rule' : Rule α} (h : c → Arrives Q rule s)
    (h' : ¬ c → Arrives Q rule' s) : Arrives Q (if c then rule else rule') s := by
  split
  · exact h ‹_›
  · exact h' ‹_›

theorem bind {rule : Rule α} {next : α → Rule β} (h : Arrives Q rule s)
    (hn : ∀ a m, rule s = .ok a m → Arrives Q (next a) m) : Arrives Q (rule >>= next) s := by
  have hfirst := h.final
  cases hr : rule s with
  | ok a m =>
    have hnext : (rule >>= next) s = next a m := bind_of_ok hr
    rw [hr] at hfirst
    refine ⟨?_, fun he => (hn a m hr).place (hnext ▸ he)⟩
    rw [hnext]
    exact Composes.trans hfirst (hn a m hr).final
  | error e m =>
    have hfail : (rule >>= next) s = .error e m := bind_of_error hr
    rw [hr] at hfirst
    refine ⟨by rwa [hfail], fun he => h.place ?_⟩
    rw [hfail] at he
    injection he with he hm
    rw [hr, he, hm]

theorem map {rule : Rule α} (f : α → β) (h : Arrives Q rule s) : Arrives Q (f <$> rule) s := by
  rw [map_eq_pure_bind f rule]
  exact h.bind fun a _ _ => pure (f a)

/-! ### Looking and moving -/

omit [Composes Q] in
theorem current {next : Token → Rule β} (h : Arrives Q (next s.current) s) :
    Arrives Q (Parser.current >>= next) s :=
  ⟨h.final, h.place⟩

omit [Composes Q] in
theorem peek {next : TokenKind → Rule β} (h : Arrives Q (next s.current.kind) s) :
    Arrives Q (Parser.peek >>= next) s :=
  ⟨h.final, h.place⟩

omit [Composes Q] in
theorem remaining {next : Nat → Rule β} (h : Arrives Q (next s.remaining) s) :
    Arrives Q (Parser.remaining >>= next) s :=
  ⟨h.final, h.place⟩

theorem spanFrom (start : Token) : Arrives Q (Parser.spanFrom start) s := of_ok rfl (Composes.refl s)

theorem advance {next : Token → Rule β} (hs : Q s s.step)
    (h : Arrives Q (next s.current) s.step) : Arrives Q (Parser.advance >>= next) s :=
  ⟨Composes.trans hs h.final, h.place⟩

theorem expect {kind : TokenKind} (expected : String) (hs : s.current.kind = kind → Q s s.step) :
    Arrives Q (Parser.expect kind expected) s := by
  by_cases h : s.current.kind = kind
  · have hr : Parser.expect kind expected s = .ok s.current s.step := by
      rw [Parser.expect, if_pos h]
      rfl
    exact of_ok hr (hs h)
  · have heq : Parser.expect kind expected s = Parser.unexpected expected s := by
      rw [Parser.expect, if_neg h]
    have hno : Arrives Q (Parser.unexpected expected : Rule Token) s := unexpected expected
    exact ⟨heq ▸ hno.final, fun he => hno.place (heq ▸ he)⟩

theorem accept {kind : TokenKind} {next : Bool → Rule β}
    (ht : s.current.kind = kind → Q s s.step ∧ Arrives Q (next true) s.step)
    (hf : s.current.kind ≠ kind → Arrives Q (next false) s) :
    Arrives Q (Parser.accept kind >>= next) s := by
  by_cases h : s.current.kind = kind
  · have heq := accept_bind_of_eq h next
    obtain ⟨hs, hnext⟩ := ht h
    exact ⟨heq ▸ Composes.trans hs hnext.final, fun he => hnext.place (heq ▸ he)⟩
  · have heq := accept_bind_of_ne h next
    exact ⟨heq ▸ (hf h).final, fun he => (hf h).place (heq ▸ he)⟩

end Arrives

/-! ### Expressions -/

namespace Roams

variable {operand nested : Rule RawExpr}

theorem step {kind : TokenKind} (hk : kind.inExpression = true) (h : s.current.kind = kind) :
    Roams s s.step := (stay s).take (h ▸ hk)

theorem chainFrom {op? : TokenKind → Option α} {build : Span → α → RawExpr → RawExpr → RawExpr}
    {operator : α → Operator} {level inner : Level} (hc : ChainOf op? build operator level inner)
    (ho : ∀ s, Arrives Roams operand s) (n : Nat) (left : RawExpr) (s : State) :
    Arrives Roams (Parser.chainFrom op? build operand n left) s := by
  induction n generalizing left s with
  | zero => exact .pure left
  | succ n ih =>
    refine .peek ?_
    cases h : op? s.current.kind with
    | none => exact .pure left
    | some op =>
      exact .advance (step (hc.inExpression h) rfl) ((ho _).bind fun right m _ => ih _ m)

theorem chain {op? : TokenKind → Option α} {build : Span → α → RawExpr → RawExpr → RawExpr}
    {operator : α → Operator} {level inner : Level} (hc : ChainOf op? build operator level inner)
    (ho : ∀ s, Arrives Roams operand s) (s : State) :
    Arrives Roams (Parser.chain op? build operand) s :=
  (ho s).bind fun left m _ => .remaining (chainFrom hc ho _ left m)

theorem disjunction (hu : ∀ s, Arrives Roams operand s) (s : State) :
    Arrives Roams (Parser.disjunction operand) s :=
  chain chainOf_or (chain chainOf_and (chain chainOf_equality (chain chainOf_comparison
    (chain chainOf_term (chain chainOf_factor hu))))) s

theorem primary (hn : ∀ s, Arrives Roams nested s) (s : State) :
    Arrives Roams (Parser.primary nested) s := by
  refine .current ?_
  split
  case h_7 h =>
    refine .advance (step rfl h) ((hn _).bind fun inner m _ => ?_)
    refine (Arrives.expect _ (step rfl)).bind fun _ m' _ => ?_
    exact (Arrives.spanFrom _).bind fun _ _ _ => .pure _
  case h_8 => exact .ite (fun _ => .reject _) fun _ => .unexpected _
  all_goals
    rename_i h
    exact .advance (step rfl h) (.pure _)

theorem separated (hi : ∀ s, Arrives Roams nested s) (n taken : Nat) (s : State) :
    Arrives Roams (Parser.separated "arguments" nested n taken) s := by
  induction n generalizing taken s with
  | zero => exact .pure _
  | succ n ih =>
    have hcount : Arrives Roams (checkCount taken "arguments") s :=
      .ite (fun _ => .current (.of_ok rfl (stay s).count)) fun _ => .pure ()
    refine hcount.bind fun _ m _ => (hi m).bind fun first m' _ => .accept (fun h => ?_) fun _ => .pure _
    exact ⟨step rfl h, (ih (taken + 1) _).bind fun rest _ _ => .pure _⟩

theorem listed (hi : ∀ s, Arrives Roams nested s) (s : State) :
    Arrives Roams (Parser.listed "arguments" nested) s :=
  .peek (.ite (fun _ => .pure _) fun _ => .remaining (separated hi _ 0 s))

theorem callsFrom (hn : ∀ s, Arrives Roams nested s) (n : Nat) (callee : RawExpr) (s : State) :
    Arrives Roams (Parser.callsFrom nested n callee) s := by
  induction n generalizing callee s with
  | zero => exact .pure callee
  | succ n ih =>
    refine .accept (fun h => ⟨step rfl h, ?_⟩) fun _ => .pure callee
    refine (listed hn _).bind fun arguments m _ => ?_
    exact (Arrives.expect _ (step rfl)).bind fun paren m' _ => ih _ m'

theorem call (hn : ∀ s, Arrives Roams nested s) (s : State) : Arrives Roams (Parser.call nested) s :=
  (primary hn s).bind fun callee m _ => .remaining (callsFrom hn _ callee m)

/-- The fault of a missing target is noted at the `=`, behind the value. -/
theorem assignment (hn : ∀ s, Arrives Roams nested s) (target : RawExpr) {s : State}
    (h : s.current.kind = .assign) {rule : Rule RawExpr}
    (heq : rule s = (nested >>= fun value => assignTo target s.current value) s.step) :
    Arrives Roams rule s := by
  have hvalue := hn s.step
  have hfinal := hvalue.final
  cases hr : nested s.step with
  | ok value m =>
    rw [hr] at hfinal
    rw [bind_of_ok hr] at heq
    unfold assignTo at heq
    split at heq
    · exact .of_ok heq ((step rfl h).trans hfinal)
    · exact .of_ok heq ((stay s).target h hfinal)
  | error e m =>
    rw [hr] at hfinal
    rw [bind_of_error hr] at heq
    refine ⟨by rw [heq]; exact (step rfl h).trans hfinal, fun he => hvalue.place ?_⟩
    rw [heq] at he
    injection he with he hm
    rw [hr, he, hm]

theorem unary_expression (depth : Nat) :
    (∀ s, Arrives Roams (Parser.unary depth) s) ∧ ∀ s, Arrives Roams (Parser.expression depth) s := by
  induction depth with
  | zero => exact ⟨fun _ => .tooDeep, fun _ => .tooDeep⟩
  | succ depth ih =>
    obtain ⟨hu, he⟩ := ih
    constructor
    · intro s
      refine .current ?_
      cases h : unaryOp? s.current.kind with
      | none => exact call he s
      | some op =>
        refine .advance (step (inExpression_of_unaryOp? h) rfl) ((hu _).bind fun operand m _ => ?_)
        exact (Arrives.spanFrom _).bind fun _ _ _ => .pure _
    · intro s
      refine (disjunction hu s).bind fun target m _ => .current ?_
      by_cases h : m.current.kind = .assign
      · exact assignment he target h (accept_bind_of_eq h _)
      · exact .accept (fun hk => absurd hk h) fun _ => .pure target

end Roams

theorem arrives_expression (depth : Nat) (s : State) : Arrives Roams (expression depth) s :=
  (Roams.unary_expression depth).2 s

/-! ### What lies on a way -/

/-- The errors that expressions note without being rejected. -/
def InPassing (error : SyntaxError) : Prop :=
  error = .invalidAssignmentTarget ∨ error = .tooMany "arguments" maxArguments

/-- The tokens `ts` have been taken and the faults `fs` noted at them or at the token behind them. -/
structure Passage (s : State) (ts : List Token) (fs : List SyntaxFault) (s' : State) : Prop where
  tokens : s.tokens = ts ++ s'.tokens
  kinds : ∀ t ∈ ts, t.kind.inExpression = true
  faults : s'.faults = fs ++ s.faults
  noted : ∀ f ∈ fs, InPassing f.error ∧ ∃ t ∈ ts ++ [s'.current], f.span = t.span

theorem current_mem_of_tokens_eq {s' : State} {ts : List Token} (h : s.tokens = ts ++ s'.tokens) :
    s.current ∈ ts ++ [s'.current] := by
  cases ts with
  | nil => exact List.mem_singleton.mpr (List.cons.inj h).1
  | cons t ts => exact List.mem_append_left _ ((List.cons.inj h).1 ▸ List.mem_cons_self)

theorem Passage.refl (s : State) : Passage s [] [] s :=
  ⟨rfl, nofun, rfl, nofun⟩

theorem Passage.trans {m s' : State} {ts us : List Token} {fs gs : List SyntaxFault}
    (h : Passage s ts fs m) (h' : Passage m us gs s') : Passage s (ts ++ us) (gs ++ fs) s' where
  tokens := by rw [h.tokens, h'.tokens, List.append_assoc]
  kinds := List.forall_mem_append.mpr ⟨h.kinds, h'.kinds⟩
  faults := by rw [h'.faults, h.faults, List.append_assoc]
  noted f hf := by
    rw [List.append_assoc]
    rcases List.mem_append.mp hf with hf | hf
    · obtain ⟨he, t, ht, hspan⟩ := h'.noted f hf
      exact ⟨he, t, List.mem_append_right ts ht, hspan⟩
    · obtain ⟨he, t, ht, hspan⟩ := h.noted f hf
      refine ⟨he, t, ?_, hspan⟩
      rcases List.mem_append.mp ht with ht | ht
      · exact List.mem_append_left _ ht
      · obtain rfl := List.mem_singleton.mp ht
        exact List.mem_append_right ts (current_mem_of_tokens_eq h'.tokens)

theorem Passage.noting {s' : State} {ts : List Token} {fs : List SyntaxFault} (h : Passage s ts fs s')
    {f : SyntaxFault} (he : InPassing f.error) (hspan : ∃ t ∈ ts ++ [s'.current], f.span = t.span) :
    Passage s ts (f :: fs) (s'.noting f) where
  tokens := h.tokens
  kinds := h.kinds
  faults := congrArg (f :: ·) h.faults
  noted := List.forall_mem_cons.mpr ⟨⟨he, hspan⟩, h.noted⟩

theorem passage_step (hk : s.current.kind.inExpression = true) : ∃ ts, Passage s ts [] s.step := by
  obtain ⟨p, c, a, fs⟩ := s
  unfold State.step
  split
  · exact ⟨[], .refl _⟩
  · cases a with
    | nil => exact ⟨[], rfl, nofun, rfl, nofun⟩
    | cons t ts => exact ⟨[c], rfl, List.forall_mem_singleton.mpr hk, rfl, nofun⟩

theorem Roams.passage {s' : State} (h : Roams s s') : ∃ ts fs, Passage s ts fs s' := by
  induction h with
  | stay s => exact ⟨[], [], .refl s⟩
  | take _ hk ih =>
    obtain ⟨ts, fs, h⟩ := ih
    obtain ⟨us, h'⟩ := passage_step hk
    exact ⟨ts ++ us, [] ++ fs, h.trans h'⟩
  | count _ ih =>
    obtain ⟨ts, fs, h⟩ := ih
    exact ⟨ts, _, h.noting (Or.inr rfl) ⟨_, List.mem_append_right ts List.mem_cons_self, rfl⟩⟩
  | @target s m m' _ hk _ ih ih' =>
    obtain ⟨ts, fs, h⟩ := ih
    obtain ⟨us, gs, h'⟩ := ih'
    obtain ⟨vs, hstep⟩ := passage_step (s := m) (by rw [hk]; rfl)
    have hvalue := hstep.trans h'
    refine ⟨_, _, (h.trans hvalue).noting (Or.inl rfl) ⟨m.current, ?_, rfl⟩⟩
    rw [List.append_assoc]
    exact List.mem_append_right ts (current_mem_of_tokens_eq hvalue.tokens)

end Parser

end Lox
