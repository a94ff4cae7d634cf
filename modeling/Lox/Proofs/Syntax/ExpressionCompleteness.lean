import Lox.Proofs.Syntax.ExpressionSoundness

/-!
# Every expression is read

Where the grammar derives an expression and the token behind it cannot continue it, the rule of its
level gives its tree, unless its depth is too small for how deep the tree nests. The levels with operators
to the left of their operands recur on the left, while their rules are loops: so what is shown by induction
is that the loop gets as far as the derivation does and goes on from there.
-/

namespace Lox

/-! ### How deep an expression nests -/

mutual

/-- The depth that the rule for unary operators needs to read an expression. Chains of operators on one
level do not count. -/
def Expr.nesting {ρ : Type} : Expr ρ → Nat
  | .literal _ _ | .varRef _ _ _ => 1
  | .assign _ _ _ e | .unary _ _ e => e.nesting + 1
  | .binary _ _ l r | .logical _ _ l r => max l.nesting r.nesting
  | .call _ f args => max f.nesting (Expr.nestingAll args)
  | .group _ e => e.nesting + 2

def Expr.nestingAll {ρ : Type} : List (Expr ρ) → Nat
  | [] => 0
  | e :: es => max (e.nesting + 2) (Expr.nestingAll es)

end

theorem Expr.nesting_pos {ρ : Type} (e : Expr ρ) : 0 < e.nesting := by
  cases e with
  | binary _ _ l r | logical _ _ l r => exact Nat.lt_of_lt_of_le l.nesting_pos (Nat.le_max_left _ _)
  | call _ f args => exact Nat.lt_of_lt_of_le f.nesting_pos (Nat.le_max_left _ _)
  | _ => exact Nat.succ_pos _

theorem Expr.nesting_le_nestingAll {ρ : Type} {e : Expr ρ} {es : List (Expr ρ)} (h : e ∈ es) :
    e.nesting + 2 ≤ Expr.nestingAll es := by
  induction es with
  | nil => cases h
  | cons e' es ih =>
    rw [Expr.nestingAll]
    rcases List.mem_cons.mp h with rfl | h
    · exact Nat.le_max_left _ _
    · exact Nat.le_trans (ih h) (Nat.le_max_right _ _)

namespace Parser

open Grammar

variable {α : Type}

/-! ### Where an expression stops -/

def rank : Level → Nat
  | .assignment => 0
  | .or => 1
  | .and => 2
  | .equality => 3
  | .comparison => 4
  | .term => 5
  | .factor => 6
  | .unary => 7
  | .call => 8
  | .primary => 9

def continues? : TokenKind → Option Level
  | .assign => some .assignment
  | .kwOr => some .or
  | .kwAnd => some .and
  | .equal | .notEqual => some .equality
  | .less | .lessEqual | .greater | .greaterEqual => some .comparison
  | .plus | .minus => some .term
  | .star | .slash => some .factor
  | .leftParen => some .call
  | _ => none

/-- A token of this kind behind an expression of a level does not belong to it. -/
def Stops (level : Level) (k : TokenKind) : Prop :=
  ∀ l, continues? k = some l → rank l < rank level

theorem rank_of_tighter {level inner : Level} (h : level.tighter? = some inner) :
    rank inner = rank level + 1 := by
  cases level <;> cases h <;> rfl

theorem stops_of_none {level : Level} {k : TokenKind} (h : continues? k = none) : Stops level k := by
  intro l hl
  rw [h] at hl
  cases hl

theorem Stops.tighter {level inner : Level} {k : TokenKind} (h : Stops level k)
    (ht : level.tighter? = some inner) : Stops inner k := by
  intro l hl
  have hlt := h l hl
  have hrank := rank_of_tighter ht
  omega

theorem continues?_of_operator? {level : Level} {k : TokenKind} {op : Operator}
    (h : level.operator? k = some op) : continues? k = some level := by
  cases level <;> cases k <;> first | rfl | cases h

theorem Stops.operator?_eq_none {level : Level} {k : TokenKind} (h : Stops level k) :
    level.operator? k = none := by
  cases hop : level.operator? k with
  | none => rfl
  | some op => exact absurd (h level (continues?_of_operator? hop)) (Nat.lt_irrefl _)

theorem stops_operator {level inner : Level} {k : TokenKind} {op : Operator}
    (h : level.operator? k = some op) (ht : level.tighter? = some inner) : Stops inner k := by
  intro l hl
  rw [continues?_of_operator? h] at hl
  obtain rfl := Option.some.inj hl
  have hrank := rank_of_tighter ht
  omega

/-! ### The rules of the levels -/

/-- The rule of a level at a depth. -/
inductive RuleFor : Level → Nat → Rule RawExpr → Prop where
  | expression (depth : Nat) : RuleFor .assignment depth (expression depth)
  | chain {α : Type} {op? : TokenKind → Option α} {build : Span → α → RawExpr → RawExpr → RawExpr}
    {operator : α → Operator} {level inner : Level} {operand : Rule RawExpr} {depth : Nat} :
    ChainOf op? build operator level inner → RuleFor inner depth operand →
      RuleFor level depth (chain op? build operand)
  | unary (depth : Nat) : RuleFor .unary depth (unary depth)
  | call (depth : Nat) : RuleFor .call depth (call (expression depth))
  | primary (depth : Nat) : RuleFor .primary depth (primary (expression depth))

theorem ruleFor_disjunction (depth : Nat) : RuleFor .or depth (disjunction (unary depth)) :=
  .chain chainOf_or <| .chain chainOf_and <| .chain chainOf_equality <| .chain chainOf_comparison <|
    .chain chainOf_term <| .chain chainOf_factor <| .unary depth

theorem ChainOf.exists_operator {op? : TokenKind → Option α}
    {build : Span → α → RawExpr → RawExpr → RawExpr} {operator : α → Operator}
    {level inner : Level} (h : ChainOf op? build operator level inner) :
    ∃ k op, level.operator? k = some op := by
  obtain ⟨k, op, hk⟩ := h.proper
  exact ⟨k, operator op, by rw [h.operator?, hk]; rfl⟩

variable {short short' : Prop}

/-- A rule that has come as far as `s'` in a loop, with as many passes left as there are tokens, unless it
is cut off for being short of depth. -/
def Reaches (short : Prop) (rule : Rule RawExpr) (s : State) (loop : Nat → Rule RawExpr)
    (s' : State) : Prop :=
  (∃ n, s'.remaining ≤ n ∧ rule s = loop n s') ∨ short ∧ ∃ s'', rule s = .error .tooDeep s''

theorem Reaches.start (loop : Nat → Rule RawExpr) {s : State} {n : Nat} (h : s.remaining ≤ n) :
    Reaches short (loop n) s loop s := Or.inl ⟨n, h, rfl⟩

theorem Reaches.weaken {rule : Rule RawExpr} {s s' : State} {loop : Nat → Rule RawExpr}
    (h : Reaches short rule s loop s') (hshort : short → short') : Reaches short' rule s loop s' := by
  rcases h with h | ⟨hs, h⟩
  · exact Or.inl h
  · exact Or.inr ⟨hshort hs, h⟩

theorem Reaches.trans {rule : Rule RawExpr} {s m s' : State} {loop loop' : Nat → Rule RawExpr}
    (h : Reaches short rule s loop m)
    (h' : ∀ n, m.remaining ≤ n → Reaches short (loop n) m loop' s') :
    Reaches short rule s loop' s' := by
  rcases h with ⟨n, hn, heq⟩ | h
  · rw [Reaches, heq]
    exact h' n hn
  · exact Or.inr h

theorem Reaches.yields {rule : Rule RawExpr} {s m s' : State} {loop : Nat → Rule RawExpr}
    {e : RawExpr} (h : Reaches short rule s loop m)
    (h' : ∀ n, m.remaining ≤ n → YieldsUnless short (loop n) m e s') :
    YieldsUnless short rule s e s' := by
  rcases h with ⟨n, hn, heq⟩ | h
  · rw [YieldsUnless, heq]
    exact h' n hn
  · exact Or.inr h

theorem YieldsUnless.reaches {rule : Rule α} {next : α → Rule RawExpr} {s m s' : State} {a : α}
    {loop : Nat → Rule RawExpr} (h : YieldsUnless short rule s a m)
    (hn : Reaches short (next a) m loop s') : Reaches short (rule >>= next) s loop s' := by
  rcases h with h | ⟨hs, m', h⟩
  · rwa [Reaches, bind_of_ok h]
  · exact Or.inr ⟨hs, m', bind_of_error h⟩

theorem State.exists_succ_of_remaining_le {s : State} {n : Nat} (h : s.remaining ≤ n) :
    ∃ k, n = k + 1 := by
  cases n with
  | zero => exact absurd h (Nat.not_succ_le_zero _)
  | succ k => exact ⟨k, rfl⟩

theorem yields_peek (s : State) : YieldsUnless short peek s s.current.kind s := Or.inl rfl

theorem yields_remaining (s : State) : YieldsUnless short remaining s s.remaining s := Or.inl rfl

section

variable {op? : TokenKind → Option α} {build : Span → α → RawExpr → RawExpr → RawExpr}
  {operator : α → Operator} {level inner : Level} {operand : Rule RawExpr}

theorem reaches_chain {s m : State} {e : RawExpr} (h : YieldsUnless short operand s e m) :
    Reaches short (chain op? build operand) s (fun n => chainFrom op? build operand n e) m := by
  rw [chain]
  refine h.reaches ((yields_remaining m).reaches ?_)
  exact Reaches.start (fun n => chainFrom op? build operand n e) (Nat.le_refl _)

theorem reaches_chainFrom (h : ChainOf op? build operator level inner) {s m s' : State} {t : Token}
    {op : α} {l r : RawExpr} {n : Nat} (hn : s.remaining ≤ n) (ht : op? t.kind = some op)
    (hm : Moves s [t] m) (hlt : s'.remaining < s.remaining) (hr : YieldsUnless short operand m r s') :
    Reaches short (chainFrom op? build operand n l) s
      (fun n => chainFrom op? build operand n (build (l.span.join r.span) op l r)) s' := by
  obtain ⟨k, rfl⟩ := State.exists_succ_of_remaining_le hn
  have hlevel : level.operator? t.kind = some (operator op) := by
    rw [h.operator?, ht]
    rfl
  rw [chainFrom]
  refine (yields_peek s).reaches ?_
  rw [hm.current_eq, ht]
  refine (yields_advance hm (isEnd_of_operator? hlevel)).reaches (hr.reaches ?_)
  exact Reaches.start
    (fun n => chainFrom op? build operand n (build (l.span.join r.span) op l r)) (by omega)

theorem yields_chainFrom {s : State} {e : RawExpr} {n : Nat} (hn : s.remaining ≤ n)
    (hs : op? s.current.kind = none) :
    YieldsUnless short (chainFrom op? build operand n e) s e s := by
  obtain ⟨k, rfl⟩ := State.exists_succ_of_remaining_le hn
  rw [chainFrom]
  refine (yields_peek s).bind ?_
  rw [hs]
  exact yields_pure e s

theorem ChainOf.op?_eq_none (h : ChainOf op? build operator level inner) {k : TokenKind}
    (hs : Stops level k) : op? k = none := by
  have hnone := hs.operator?_eq_none
  rw [h.operator?] at hnone
  exact Option.map_eq_none_iff.1 hnone

end

/-! ### Derivations -/

/-- The depth that the rule of a level needs beyond that of the unary operators, plus one. -/
def allowance : Level → Nat
  | .assignment => 0
  | .call | .primary => 2
  | _ => 1

/-- The depth is too small for the rule of the level to find the expression. -/
def Short (level : Level) (depth : Nat) (e : RawExpr) : Prop := depth + allowance level ≤ e.nesting

theorem Short.of_operand {level inner : Level} {k : TokenKind} {o : Operator} {depth : Nat}
    {e : RawExpr} (h : Short inner depth e) (ho : level.operator? k = some o)
    (hi : level.tighter? = some inner) : Short level depth e := by
  have hallowance : allowance inner = allowance level := by
    cases level <;> cases hi <;> first | rfl | cases ho
  rwa [Short, ← hallowance]

theorem Short.mono {level : Level} {depth : Nat} {e e' : RawExpr} (h : Short level depth e)
    (hle : e.nesting ≤ e'.nesting) : Short level depth e' := Nat.le_trans h hle

/-- The rules of a level find the expression that `ts` form. -/
structure Complete (level : Level) (ts : List Token) (e : RawExpr) : Prop where
  yields : ∀ {depth rule}, RuleFor level depth rule → ∀ {s s'}, Moves s ts s' →
    Stops level s'.current.kind → YieldsUnless (Short level depth e) rule s e s'
  chain : ∀ {α : Type} {op? : TokenKind → Option α}
    {build : Span → α → RawExpr → RawExpr → RawExpr} {operator : α → Operator} {inner : Level}
    {operand : Rule RawExpr} {depth : Nat},
    ChainOf op? build operator level inner → RuleFor inner depth operand → ∀ {s s'},
      Moves s ts s' → Stops inner s'.current.kind →
      Reaches (Short level depth e) (chain op? build operand) s
        (fun n => chainFrom op? build operand n e) s'
  call : level = .call → ∀ depth {s s'}, Moves s ts s' →
    Reaches (Short .call depth e) (call (expression depth)) s
      (fun n => callsFrom (expression depth) n e) s'

theorem yields_of_reaches {op? : TokenKind → Option α}
    {build : Span → α → RawExpr → RawExpr → RawExpr} {operator : α → Operator}
    {level inner : Level} {operand : Rule RawExpr} (h : ChainOf op? build operator level inner)
    {s s' : State} {e : RawExpr} (hs : Stops level s'.current.kind)
    (hr : Reaches short (chain op? build operand) s (fun n => chainFrom op? build operand n e) s') :
    YieldsUnless short (chain op? build operand) s e s' :=
  hr.yields fun _ hn => yields_chainFrom hn (h.op?_eq_none hs)

theorem complete_primary {ts : List Token} {e : RawExpr}
    (h : ∀ depth {s s'}, Moves s ts s' →
      YieldsUnless (Short .primary depth e) (primary (expression depth)) s e s') :
    Complete .primary ts e where
  yields := by
    intro depth rule hrule s s' hm _
    cases hrule with
    | chain hc => cases hc.tighter
    | primary => exact h depth hm
  chain := fun hc => by cases hc.tighter
  call := fun hl => by cases hl

theorem yields_single {s s' : State} {t : Token} {e : RawExpr} (h : Moves s [t] s')
    (ht : t.isEnd = false) : YieldsUnless short (advance >>= fun _ => pure e) s e s' :=
  (yields_advance h ht).bind (yields_pure e s')

theorem yields_literal {s s' : State} {t : Token} {v : Literal} (hv : literal? t = some v)
    (h : Moves s [t] s') (nested : Rule RawExpr) :
    YieldsUnless short (primary nested) s (.literal t.span v) s' := by
  rw [primary]
  refine (yields_current h).bind ?_
  unfold literal? at hv
  split at hv
  all_goals
    rename_i hk
    cases hv
  all_goals
    rw [hk]
    exact yields_single h (isEnd_eq_false hk (by decide))

theorem yields_varRef {s s' : State} {t : Token} (hk : t.kind = .identifier) (h : Moves s [t] s')
    (nested : Rule RawExpr) :
    YieldsUnless short (primary nested) s (.varRef t.span t.lexeme ()) s' := by
  rw [primary]
  refine (yields_current h).bind ?_
  rw [hk]
  exact yields_single h (isEnd_eq_false hk (by decide))

theorem yields_group {s s' : State} {left right : Token} {ts : List Token} {e : RawExpr}
    (hl : left.kind = .leftParen) (hr : right.kind = .rightParen) (he : Complete .assignment ts e)
    {depth : Nat} (h : Moves s (left :: (ts ++ [right])) s') :
    YieldsUnless (depth ≤ e.nesting) (primary (expression depth)) s
      (.group (spanOf (left :: (ts ++ [right]))) e) s' := by
  obtain ⟨m, hm, hm'⟩ := moves_cons_iff.1 h
  obtain ⟨m', hts, hright⟩ := moves_append_iff.1 hm'
  have hstops : Stops .assignment m'.current.kind := by
    rw [hright.current_eq, hr]
    exact stops_of_none rfl
  rw [primary]
  refine (yields_current h).bind ?_
  rw [hl]
  refine (yields_advance hm (isEnd_eq_false hl (by decide))).bind ?_
  refine (he.yields (.expression depth) hts hstops).bind ?_
  refine (yields_expect hright hr (by decide) _).bind ?_
  exact (yields_spanFrom h).bind (yields_pure _ s')

/-! ### Lists of items -/

def ItemComplete (short : Prop) (item : Rule α) (ts : List Token) (a : α) : Prop :=
  ∀ {s s'}, Moves s ts s' → s'.current.kind = .comma ∨ s'.current.kind = .rightParen →
    YieldsUnless short item s a s'

theorem yields_checkCount {count : Nat} (h : count < listLimit) (what : String) (s : State) :
    YieldsUnless short (checkCount count what) s () s := by
  have hne : ¬ maxArguments ≤ count := Nat.not_le.2 h
  rw [checkCount, if_neg hne]
  exact yields_pure () s

theorem yields_separated (what : String) {item : Rule α} {first : List Token × α}
    {rest : List (List Token × α)} (hi : ∀ p ∈ first :: rest, ItemComplete short item p.1 p.2)
    {n taken : Nat}
    {s s' : State} {ts : List Token} (hsep : Separated .comma ((first :: rest).map Prod.fst) ts)
    (hcount : taken + (first :: rest).length ≤ listLimit) (hn : s.remaining ≤ n)
    (h : Moves s ts s') (hright : s'.current.kind = .rightParen) :
    YieldsUnless short (separated what item n taken) s ((first :: rest).map Prod.snd) s' := by
  -- On the items behind the first; the count of those taken grows as the items left get fewer.
  induction rest generalizing first n taken s ts with
  | nil =>
    obtain ⟨k, rfl⟩ := State.exists_succ_of_remaining_le hn
    rw [List.map_cons, List.map_nil] at hsep
    cases hsep
    rw [separated]
    refine (yields_checkCount hcount what s).bind ?_
    refine (hi first (List.mem_cons_self ..) h (Or.inr hright)).bind ?_
    have hne : s'.current.kind ≠ .comma := by
      rw [hright]
      decide
    exact (yields_accept_false hne).bind (yields_pure _ s')
  | cons next rest ih =>
    obtain ⟨k, rfl⟩ := State.exists_succ_of_remaining_le hn
    rw [List.map_cons, List.map_cons] at hsep
    cases hsep with
    | @more _ _ _ comma us hcomma hsep =>
      obtain ⟨m, hfirst, hm⟩ := moves_append_iff.1 h
      obtain ⟨m', hmc, hrest⟩ := moves_cons_iff.1 hm
      have hlen := hfirst.remaining
      have hlen' := hmc.remaining
      rw [List.length_cons] at hcount
      rw [List.length_singleton] at hlen'
      rw [separated]
      refine (yields_checkCount (by omega) what s).bind ?_
      refine (hi first (List.mem_cons_self ..) hfirst (Or.inl (hmc.current_eq ▸ hcomma))).bind ?_
      refine (yields_accept hmc hcomma (by decide)).bind ?_
      refine (ih (fun p hp => hi p (List.mem_cons_of_mem _ hp)) hsep (by omega) (by omega)
        hrest).bind ?_
      exact yields_pure _ s'

theorem separated_begins {p : TokenKind → Prop} {first : List Token} {rest : List (List Token)}
    {ts : List Token} (h : Separated .comma (first :: rest) ts) (hp : BeginsWith p first) :
    BeginsWith p ts := by
  cases h with
  | one => exact hp
  | more => exact hp.append _

theorem yields_listed (what : String) {item : Rule α} {parts : List (List Token × α)}
    (hi : ∀ p ∈ parts, ItemComplete short item p.1 p.2)
    (hb : ∀ p ∈ parts, BeginsWith (· ≠ .rightParen) p.1) (hcount : parts.length ≤ listLimit)
    {s s' : State} {ts : List Token} (hsep : Separated .comma (parts.map Prod.fst) ts)
    (h : Moves s ts s') (hright : s'.current.kind = .rightParen) :
    YieldsUnless short (listed what item) s (parts.map Prod.snd) s' := by
  rw [listed]
  refine (yields_peek s).bind ?_
  cases parts with
  | nil =>
    cases hsep
    obtain rfl := moves_nil_iff.1 h
    rw [if_pos hright]
    exact yields_pure _ _
  | cons first rest =>
    obtain ⟨t, us, rfl, hk⟩ := separated_begins hsep (hb first (List.mem_cons_self ..))
    rw [h.current_eq, if_neg hk]
    refine (yields_remaining s).bind ?_
    rw [← Nat.zero_add (first :: rest).length] at hcount
    exact yields_separated what hi hsep hcount (Nat.le_refl _) h hright

/-! ### Derivations -/

theorem reaches_callsFrom {s m : State} {left right : Token} {as : List Token} {f : RawExpr}
    {fs : List Token} {arguments : List (List Token × RawExpr)} {depth n : Nat}
    (hf : Derives .call fs f) (hl : left.kind = .leftParen)
    (hsep : Separated .comma (arguments.map Prod.fst) as)
    (hargs : ∀ a ∈ arguments, Derives .assignment a.1 a.2)
    (hc : ∀ a ∈ arguments, Complete .assignment a.1 a.2) (hcount : arguments.length ≤ listLimit)
    (hr : right.kind = .rightParen) (hn : s.remaining ≤ n) (h : Moves s (left :: (as ++ [right])) m) :
    Reaches (depth + 2 ≤ Expr.nestingAll (arguments.map Prod.snd)) (callsFrom (expression depth) n f) s
      (fun n => callsFrom (expression depth) n
        (.call (spanOf (fs ++ left :: (as ++ [right]))) f (arguments.map Prod.snd))) m := by
  obtain ⟨k, rfl⟩ := State.exists_succ_of_remaining_le hn
  obtain ⟨m₁, hleft, hm⟩ := moves_cons_iff.1 h
  obtain ⟨m₂, has, hright⟩ := moves_append_iff.1 hm
  have hlen := h.remaining
  rw [List.length_cons] at hlen
  -- an argument ends at a comma or at the parenthesis, neither of which continues it
  have hitems : ∀ a ∈ arguments, ItemComplete (depth + 2 ≤ Expr.nestingAll (arguments.map Prod.snd))
      (expression depth) a.1 a.2 := by
    intro a ha s s' hmoves hnext
    have hstops : Stops .assignment s'.current.kind := by
      rcases hnext with hnext | hnext <;>
        · rw [hnext]
          exact stops_of_none rfl
    refine ((hc a ha).yields (.expression depth) hmoves hstops).weaken fun hshort => ?_
    exact Nat.le_trans (Nat.add_le_add_right hshort 2)
      (Expr.nesting_le_nestingAll (List.mem_map_of_mem ha))
  have hbegins : ∀ a ∈ arguments, BeginsWith (· ≠ .rightParen) a.1 := by
    intro a ha
    obtain ⟨t, rest, heq, hk, -⟩ := (hargs a ha).begins
    refine ⟨t, rest, heq, fun hp => ?_⟩
    rw [hp] at hk
    cases hk
  have hspan : f.span.join right.span = spanOf (fs ++ left :: (as ++ [right])) := by
    rw [hf.span, spanOf_append hf.ne_nil (List.cons_ne_nil _ _), spanOf_concat]
    rfl
  have hkind : m₂.current.kind = .rightParen := hright.current_eq ▸ hr
  rw [callsFrom]
  refine (yields_accept hleft hl (by decide)).reaches ?_
  refine (yields_listed "arguments" hitems hbegins hcount hsep has hkind).reaches ?_
  refine (yields_expect hright hr (by decide) _).reaches ?_
  rw [← hspan]
  exact Reaches.start (fun n => callsFrom (expression depth) n
    (.call (f.span.join right.span) f (arguments.map Prod.snd))) (by omega)

theorem yields_callsFrom {nested : Rule RawExpr} {s : State} {e : RawExpr} {n : Nat}
    (hn : s.remaining ≤ n) (hs : Stops .call s.current.kind) :
    YieldsUnless short (callsFrom nested n e) s e s := by
  obtain ⟨k, rfl⟩ := State.exists_succ_of_remaining_le hn
  have hne : s.current.kind ≠ .leftParen := by
    intro hk
    rw [hk] at hs
    exact absurd (hs .call rfl) (Nat.lt_irrefl _)
  rw [callsFrom]
  exact (yields_accept_false hne).bind (yields_pure e s)

theorem reaches_call {nested : Rule RawExpr} {s m : State} {e : RawExpr}
    (h : YieldsUnless short (primary nested) s e m) :
    Reaches short (call nested) s (fun n => callsFrom nested n e) m := by
  rw [call]
  refine h.reaches ((yields_remaining m).reaches ?_)
  exact Reaches.start (fun n => callsFrom nested n e) (Nat.le_refl _)

theorem complete_call_of_reaches {ts : List Token} {e : RawExpr}
    (h : ∀ depth {s s'}, Moves s ts s' → Reaches (Short .call depth e) (call (expression depth)) s
      (fun n => callsFrom (expression depth) n e) s') :
    Complete .call ts e where
  yields := by
    intro depth rule hrule s s' hm hs
    cases hrule with
    | chain hc =>
      obtain ⟨k, op, hop⟩ := hc.exists_operator
      cases hop
    | call => exact (h depth hm).yields fun _ hn => yields_callsFrom hn hs
  chain := fun hc => by
    obtain ⟨k, op, hop⟩ := hc.exists_operator
    cases hop
  call := fun _ depth {s s'} hm => h depth hm

theorem complete_unary_of_yields {ts : List Token} {e : RawExpr}
    (h : ∀ depth {s s'}, Moves s ts s' → Stops .unary s'.current.kind →
      YieldsUnless (Short .unary depth e) (unary depth) s e s') : Complete .unary ts e where
  yields := by
    intro depth rule hrule s s' hm hs
    cases hrule with
    | chain hc =>
      obtain ⟨k, op, hop⟩ := hc.exists_operator
      cases hop
    | unary => exact h depth hm hs
  chain := fun hc => by
    obtain ⟨k, op, hop⟩ := hc.exists_operator
    cases hop
  call := fun hl => by cases hl

theorem complete_assignment_of_yields {ts : List Token} {e : RawExpr}
    (h : ∀ depth {s s'}, Moves s ts s' → Stops .assignment s'.current.kind →
      YieldsUnless (Short .assignment depth e) (expression depth) s e s') :
    Complete .assignment ts e where
  yields := by
    intro depth rule hrule s s' hm hs
    cases hrule with
    | chain hc =>
      obtain ⟨k, op, hop⟩ := hc.exists_operator
      cases hop
    | expression => exact h depth hm hs
  chain := fun hc => by
    obtain ⟨k, op, hop⟩ := hc.exists_operator
    cases hop
  call := fun hl => by cases hl

theorem complete_chain_of_reaches {level : Level} {k : TokenKind} {o : Operator}
    (ho : level.operator? k = some o) {ts : List Token} {e : RawExpr}
    (h : ∀ {α : Type} {op? : TokenKind → Option α}
      {build : Span → α → RawExpr → RawExpr → RawExpr} {operator : α → Operator} {inner : Level}
      {operand : Rule RawExpr} {depth : Nat},
      ChainOf op? build operator level inner → RuleFor inner depth operand → ∀ {s s'},
        Moves s ts s' → Stops inner s'.current.kind →
        Reaches (Short level depth e) (chain op? build operand) s
          (fun n => chainFrom op? build operand n e) s') :
    Complete level ts e where
  yields := by
    intro depth rule hrule s s' hm hs
    cases hrule with
    | chain hc hoperand => exact yields_of_reaches hc hs (h hc hoperand hm (hs.tighter hc.tighter))
    | _ => cases ho
  chain := h
  call := fun hl => by
    subst hl
    cases ho

theorem short_expression_zero (e : RawExpr) : Short .assignment 0 e := Nat.zero_le _

theorem short_unary_zero (e : RawExpr) : Short .unary 0 e := e.nesting_pos

theorem complete_unary {t : Token} {op : UnaryOp} {ts : List Token} {e : RawExpr}
    (ht : sign? t.kind = some op) (he : Complete .unary ts e) :
    Complete .unary (t :: ts) (.unary (spanOf (t :: ts)) op e) := by
  refine complete_unary_of_yields fun depth {s s'} h hs => ?_
  cases depth with
  | zero => exact yields_tooDeep (short_unary_zero _) s s' _
  | succ depth =>
    obtain ⟨m, hm, hts⟩ := moves_cons_iff.1 h
    rw [unary]
    refine (yields_current h).bind ?_
    rw [unaryOp?_eq, ht]
    refine (yields_advance hm (isEnd_of_sign? ht)).bind ?_
    refine ((he.yields (.unary depth) hts hs).weaken Nat.succ_le_succ).bind ?_
    exact (yields_spanFrom h).bind (yields_pure _ s')

theorem complete_binary {level inner : Level} {ls rs : List Token} {l r : RawExpr} {t : Token}
    {op : Operator} (hl : Derives level ls l) (hr : Derives inner rs r)
    (ht : level.operator? t.kind = some op) (hi : level.tighter? = some inner)
    (hcl : Complete level ls l) (hcr : Complete inner rs r) :
    Complete level (ls ++ t :: rs) (op.apply (spanOf (ls ++ t :: rs)) l r) := by
  refine complete_chain_of_reaches ht ?_
  intro α op? build operator inner' operand depth hc hoperand s s' h hs
  obtain rfl := Option.some.inj (hi.symm.trans hc.tighter)
  obtain ⟨op', hop', rfl⟩ := Option.map_eq_some_iff.1 ((hc.operator? t.kind).symm.trans ht)
  obtain ⟨m, hls, hm⟩ := moves_append_iff.1 h
  obtain ⟨m', hmt, hrs⟩ := moves_cons_iff.1 hm
  have hspan : l.span.join r.span = spanOf (ls ++ t :: rs) := by
    rw [hl.span, hr.span, spanOf_append hl.ne_nil (List.cons_ne_nil t rs), spanOf_cons hr.ne_nil]
    rfl
  have hstops : Stops inner m.current.kind := by
    rw [hm.current_eq]
    exact stops_operator ht hi
  have hlen := hm.remaining
  rw [List.length_cons] at hlen
  rw [← hspan]
  have hnesting : ((operator op').apply (l.span.join r.span) l r).nesting =
      max l.nesting r.nesting := by
    cases operator op' <;> rfl
  have hleft := (hcl.chain hc hoperand hls hstops).weaken fun hshort =>
    hshort.mono (hnesting ▸ Nat.le_max_left _ _)
  have hright := (hcr.yields hoperand hrs hs).weaken fun hshort =>
    (hshort.of_operand ht hi).mono (hnesting ▸ Nat.le_max_right _ _)
  rw [← hc.build] at hleft hright ⊢
  exact hleft.trans fun n hn => reaches_chainFrom hc hn hop' hmt (by omega) hright

theorem complete_assign {name equals : Token} {ts : List Token} {e : RawExpr}
    (heq : equals.kind = .assign) (he : Derives .assignment ts e) (hc : Complete .assignment ts e)
    (hname : Complete .or [name] (.varRef name.span name.lexeme ())) :
    Complete .assignment (name :: equals :: ts)
      (.assign (spanOf (name :: equals :: ts)) name.lexeme () e) := by
  refine complete_assignment_of_yields fun depth {s s'} h hs => ?_
  cases depth with
  | zero => exact yields_tooDeep (short_expression_zero _) s s' _
  | succ depth =>
    obtain ⟨m, hm, hm'⟩ := moves_cons_iff.1 h
    obtain ⟨m', hequals, hts⟩ := moves_cons_iff.1 hm'
    have hstops : Stops .or m.current.kind := by
      rw [hm'.current_eq, heq]
      intro l hl
      cases hl
      decide
    have hspan : name.span.join e.span = spanOf (name :: equals :: ts) := by
      rw [he.span, spanOf_cons (List.cons_ne_nil _ _), spanOf_cons he.ne_nil]
      rfl
    rw [expression, ← hspan]
    have htarget := (hname.yields (ruleFor_disjunction depth) hm hstops).weaken fun hshort =>
      Nat.le_trans hshort (Nat.succ_le_succ (Nat.zero_le e.nesting))
    have hvalue := (hc.yields (.expression depth) hts hs).weaken Nat.succ_le_succ
    refine htarget.bind ((yields_current hm').bind ?_)
    refine (yields_accept hequals heq (by decide)).bind ?_
    exact hvalue.bind (yields_pure _ s')

theorem stops_primary (k : TokenKind) : Stops .primary k := by
  intro l hl
  cases k <;> cases hl <;> decide

theorem complete_tighter {level inner : Level} {ts : List Token} {e : RawExpr}
    (hi : level.tighter? = some inner) (he : Derives inner ts e) (hc : Complete inner ts e) :
    Complete level ts e := by
  -- at a level with operators, an operand alone is a chain without any
  have hchain {k : TokenKind} {o : Operator} (ho : level.operator? k = some o) :
      Complete level ts e := by
    refine complete_chain_of_reaches ho ?_
    intro α op? build operator inner' operand depth hop hoperand s s' h hs
    obtain rfl := Option.some.inj (hi.symm.trans hop.tighter)
    exact reaches_chain ((hc.yields hoperand h hs).weaken fun hshort => hshort.of_operand ho hi)
  cases level with
  | assignment =>
    obtain rfl := Option.some.inj hi
    refine complete_assignment_of_yields fun depth {s s'} h hs => ?_
    cases depth with
    | zero => exact yields_tooDeep (short_expression_zero _) s s' _
    | succ depth =>
      have hne : s'.current.kind ≠ .assign := by
        intro hk
        rw [hk] at hs
        exact absurd (hs .assignment rfl) (Nat.lt_irrefl _)
      rw [expression]
      refine (hc.yields (ruleFor_disjunction depth) h (hs.tighter rfl)).bind ?_
      refine YieldsUnless.bind (Or.inl rfl) ?_
      exact (yields_accept_false hne).bind (yields_pure e s')
  | or => exact hchain (k := .kwOr) rfl
  | and => exact hchain (k := .kwAnd) rfl
  | equality => exact hchain (k := .equal) rfl
  | comparison => exact hchain (k := .less) rfl
  | term => exact hchain (k := .plus) rfl
  | factor => exact hchain (k := .star) rfl
  | unary =>
    obtain rfl := Option.some.inj hi
    refine complete_unary_of_yields fun depth {s s'} h hs => ?_
    cases depth with
    | zero => exact yields_tooDeep (short_unary_zero _) s s' _
    | succ depth =>
      obtain ⟨t, rest, rfl, -, hsign⟩ := he.begins
      rw [unary]
      refine (yields_current h).bind ?_
      rw [unaryOp?_eq, hsign (Or.inl rfl)]
      exact hc.yields (.call depth) h (hs.tighter rfl)
  | call =>
    obtain rfl := Option.some.inj hi
    exact complete_call_of_reaches fun depth _ _ h =>
      reaches_call (hc.yields (.primary depth) h (stops_primary _))
  | primary => cases hi

theorem complete_varRef {t : Token} (hk : t.kind = .identifier) :
    Complete .primary [t] (.varRef t.span t.lexeme ()) :=
  complete_primary fun depth _ _ h => yields_varRef hk h (expression depth)

theorem complete_or_varRef {t : Token} (hk : t.kind = .identifier) :
    Complete .or [t] (.varRef t.span t.lexeme ()) := by
  have lift (level : Level) {inner : Level} (hi : level.tighter? = some inner)
      (h : Derives inner [t] (.varRef t.span t.lexeme ()) ∧
        Complete inner [t] (.varRef t.span t.lexeme ())) :
      Derives level [t] (.varRef t.span t.lexeme ()) ∧
        Complete level [t] (.varRef t.span t.lexeme ()) :=
    ⟨.tighter hi h.1, complete_tighter hi h.1 h.2⟩
  have hcall := lift .call rfl ⟨.varRef hk, complete_varRef hk⟩
  have hfactor := lift .factor rfl (lift .unary rfl hcall)
  have hcomparison := lift .comparison rfl (lift .term rfl hfactor)
  have hand := lift .and rfl (lift .equality rfl hcomparison)
  exact (lift .or rfl hand).2

theorem complete_of_derives {level : Level} {ts : List Token} {e : RawExpr} (h : Derives level ts e) :
    Complete level ts e := by
  induction h with
  | literal hv => exact complete_primary fun depth _ _ h => yields_literal hv h (expression depth)
  | varRef hk => exact complete_varRef hk
  | group hl _ hr ih =>
    exact complete_primary fun _ _ _ h =>
      (yields_group hl hr ih h).weaken fun hshort => Nat.add_le_add_right hshort 2
  | call hf hl hsep hargs hcount hr ihf iha =>
    refine complete_call_of_reaches fun depth _ _ h => ?_
    obtain ⟨m, hfs, hm⟩ := moves_append_iff.1 h
    refine Reaches.trans ((ihf.call rfl depth hfs).weaken fun hshort => ?_) fun n hn => ?_
    · exact hshort.mono (Nat.le_max_left _ _)
    · refine (reaches_callsFrom hf hl hsep hargs iha hcount hr hn hm).weaken fun hshort => ?_
      exact Nat.le_trans hshort (Nat.le_max_right _ _)
  | unary ht _ ih => exact complete_unary ht ih
  | binary hl hop hi hr ihl ihr => exact complete_binary hl hr hop hi ihl ihr
  | assign hn heq he ih => exact complete_assign heq he ih (complete_or_varRef hn)
  | tighter hi he ih => exact complete_tighter hi he ih

/-- An expression is found wherever the token behind it does not continue it. -/
theorem yields_expression_unless {ts : List Token} {e : RawExpr} (he : IsExpr ts e) (depth : Nat)
    {s s' : State} (h : Moves s ts s') (hs : continues? s'.current.kind = none) :
    YieldsUnless (depth ≤ e.nesting) (expression depth) s e s' :=
  (complete_of_derives he).yields (.expression depth) h (stops_of_none hs)

theorem yields_expression {ts : List Token} {e : RawExpr} (he : IsExpr ts e) (depth : Nat)
    {s s' : State} (h : Moves s ts s') (hs : continues? s'.current.kind = none) :
    Yields (expression depth) s e s' :=
  (yields_expression_unless he depth h hs).weaken fun _ => trivial

end Parser

end Lox
