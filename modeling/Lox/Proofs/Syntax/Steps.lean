import Lox.Proofs.Syntax.Grammar

/-!
# Steps over tokens

How rules move over tokens. `Moves s ts s'` says that the tokens `ts` have been taken between two
states and nothing else has changed. A rule is described in two ways: by what a run without a fault has
read (`Reads`), for which it has to be known that faults are never forgotten; and by what a run gives
that is not cut off by its depth (`Yields`). Both go along with the sequence of rules.
-/

namespace Lox.Parser

/-! ### Tokens of a state -/

def State.tokens (s : State) : List Token := s.current :: s.ahead

def Ended (tokens : List Token) : Prop :=
  ∃ body last, tokens = body ++ [last] ∧ last.isEnd = true ∧ ∀ t ∈ body, t.isEnd = false

theorem Ended.of_append {ts us : List Token} (h : Ended (ts ++ us)) (hne : us ≠ []) : Ended us := by
  obtain ⟨body, last, hb, hl, hm⟩ := h
  obtain ⟨us, u, rfl⟩ := (List.eq_nil_or_concat us).resolve_left hne
  rw [List.concat_eq_append, ← List.append_assoc] at hb
  obtain ⟨hbody, hlast⟩ := List.append_inj' hb rfl
  obtain rfl := List.cons.inj hlast |>.1
  exact ⟨us, u, List.concat_eq_append, hl, fun t ht => hm t (hbody ▸ List.mem_append_right ts ht)⟩

theorem Ended.ahead_ne_nil {s : State} (h : Ended s.tokens) (hs : s.current.isEnd = false) :
    s.ahead ≠ [] := by
  intro hnil
  obtain ⟨body, last, hb, hl, -⟩ := h
  rw [State.tokens, hnil] at hb
  cases body with
  | nil =>
    obtain rfl := (List.cons.inj hb).1
    rw [hs] at hl
    cases hl
  | cons t body => simp at hb

/-! ### Moves -/

/-- The tokens `ts` have been taken between two states. -/
structure Moves (s : State) (ts : List Token) (s' : State) : Prop where
  tokens : s.tokens = ts ++ s'.tokens
  previous : s'.previous = ts.getLastD s.previous
  faults : s'.faults = s.faults

theorem Moves.refl (s : State) : Moves s [] s := ⟨rfl, rfl, rfl⟩

theorem Moves.trans {s m s' : State} {ts us : List Token} (h : Moves s ts m) (h' : Moves m us s') :
    Moves s (ts ++ us) s' where
  tokens := by rw [h.tokens, h'.tokens, List.append_assoc]
  previous := by rw [h'.previous, h.previous, Grammar.getLastD_append]
  faults := h'.faults.trans h.faults

theorem moves_nil_iff {s s' : State} : Moves s [] s' ↔ s' = s := by
  constructor
  · intro h
    obtain ⟨ht, hp, hf⟩ := h
    obtain ⟨p, c, a, f⟩ := s
    obtain ⟨p', c', a', f'⟩ := s'
    obtain ⟨rfl, rfl⟩ := List.cons.inj ht
    cases hp
    cases hf
    rfl
  · intro heq
    obtain rfl := heq
    exact .refl s'

theorem moves_append_iff {s s' : State} {ts us : List Token} :
    Moves s (ts ++ us) s' ↔ ∃ m, Moves s ts m ∧ Moves m us s' := by
  constructor
  · intro hyp
    obtain ⟨ht, hp, hf⟩ := hyp
    rw [List.append_assoc] at ht
    rw [Grammar.getLastD_append] at hp
    obtain ⟨t, rest, hr⟩ : ∃ t rest, us ++ s'.tokens = t :: rest := by
      cases us with
      | nil => exact ⟨_, _, rfl⟩
      | cons u us => exact ⟨_, _, rfl⟩
    rw [hr] at ht
    exact ⟨⟨ts.getLastD s.previous, t, rest, s.faults⟩, ⟨ht, rfl, rfl⟩, ⟨hr.symm, hp, hf⟩⟩
  · intro hyp
    obtain ⟨m, h, h'⟩ := hyp
    exact h.trans h'

theorem moves_cons_iff {s s' : State} {t : Token} {ts : List Token} :
    Moves s (t :: ts) s' ↔ ∃ m, Moves s [t] m ∧ Moves m ts s' :=
  @moves_append_iff s s' [t] ts

theorem Moves.current_eq {s s' : State} {t : Token} {ts : List Token} (h : Moves s (t :: ts) s') :
    s.current = t := (List.cons.inj h.tokens).1

theorem Moves.step_eq {s s' : State} {t : Token} (h : Moves s [t] s') (ht : t.isEnd = false) :
    s.step = s' := by
  obtain ⟨hts, hp, hf⟩ := h
  obtain ⟨p, c, a, f⟩ := s
  obtain ⟨p', c', a', f'⟩ := s'
  obtain ⟨rfl, rfl⟩ := List.cons.inj hts
  cases hp
  cases hf
  simp only [State.step, ht, Bool.false_eq_true, if_false]
  rfl

theorem moves_step {s : State} (h : Ended s.tokens) (hs : s.current.isEnd = false) :
    Moves s [s.current] s.step := by
  obtain ⟨p, c, a, f⟩ := s
  obtain ⟨t, ts, rfl⟩ := List.exists_cons_of_ne_nil (h.ahead_ne_nil hs)
  simp only [State.step, hs, Bool.false_eq_true, if_false]
  exact ⟨rfl, rfl, rfl⟩

theorem Moves.ended {s s' : State} {ts : List Token} (h : Moves s ts s') (hs : Ended s.tokens) :
    Ended s'.tokens := by
  rw [h.tokens] at hs
  exact hs.of_append (List.cons_ne_nil _ _)

theorem Moves.remaining {s s' : State} {ts : List Token} (h : Moves s ts s') :
    s.remaining = ts.length + s'.remaining := by
  have hlen := congrArg List.length h.tokens
  rwa [List.length_append] at hlen

theorem Moves.join_previous {s s' : State} {t : Token} {ts : List Token}
    (h : Moves s (t :: ts) s') : t.span.join s'.previous.span = Grammar.spanOf (t :: ts) := by
  rw [h.previous, List.getLastD_cons]
  rfl

/-! ### Runs that go on -/

/-- A later state: no tokens are put back and no faults are forgotten. -/
structure Onward (s s' : State) : Prop where
  tokens : s'.tokens <:+ s.tokens
  faults : s.faults <:+ s'.faults

theorem Onward.refl (s : State) : Onward s s := ⟨List.suffix_rfl, List.suffix_rfl⟩

theorem Onward.trans {s m s' : State} (h : Onward s m) (h' : Onward m s') : Onward s s' :=
  ⟨h'.tokens.trans h.tokens, h.faults.trans h'.faults⟩

theorem Onward.faults_eq {s m s' : State} (h : Onward s m) (h' : Onward m s')
    (he : s'.faults = s.faults) : m.faults = s.faults ∧ s'.faults = m.faults := by
  have hlen := h'.faults.length_le
  rw [he] at hlen
  have heq := h.faults.eq_of_length_le hlen
  exact ⟨heq.symm, he.trans heq⟩

theorem Onward.ended {s s' : State} (h : Onward s s') (hs : Ended s.tokens) : Ended s'.tokens := by
  obtain ⟨ts, hts⟩ := h.tokens
  rw [← hts] at hs
  exact hs.of_append (List.cons_ne_nil _ _)

theorem onward_step (s : State) : Onward s s.step := by
  have htokens : s.step.tokens <:+ s.tokens := by
    obtain ⟨p, c, a, f⟩ := s
    unfold State.step
    split
    · exact List.suffix_rfl
    · cases a with
      | nil => exact List.suffix_rfl
      | cons t ts => exact List.suffix_cons c (t :: ts)
  have hfaults : s.faults <:+ s.step.faults := s.faults_step ▸ List.suffix_rfl
  exact ⟨htokens, hfaults⟩

theorem onward_fault (s : State) (fault : SyntaxFault) :
    Onward s { s with faults := fault :: s.faults } :=
  ⟨List.suffix_rfl, List.suffix_cons _ _⟩

variable {α β : Type}

theorem bind_of_ok {rule : Rule α} {next : α → Rule β} {s m : State} {a : α} (h : rule s = .ok a m) :
    (rule >>= next) s = next a m := by
  show EStateM.bind rule next s = _
  rw [EStateM.bind, h]

theorem bind_of_error {rule : Rule α} {next : α → Rule β} {s m : State} {e : Failure}
    (h : rule s = .error e m) : (rule >>= next) s = .error e m := by
  show EStateM.bind rule next s = _
  rw [EStateM.bind, h]

def finalState : EStateM.Result Failure State α → State
  | .ok _ s => s
  | .error _ s => s

/-! ### What rules have read -/

/-- A rule only goes onward, and where it succeeds without a fault it has done what `P` says. -/
structure Reads (rule : Rule α) (P : State → α → State → Prop) : Prop where
  onward : ∀ s, Onward s (finalState (rule s))
  spec : ∀ {s a s'}, Ended s.tokens → rule s = .ok a s' → s'.faults = s.faults → P s a s'

theorem Reads.weaken {rule : Rule α} {P Q : State → α → State → Prop} (h : Reads rule P)
    (hPQ : ∀ s a s', Ended s.tokens → P s a s' → Q s a s') : Reads rule Q where
  onward := h.onward
  spec := fun hs hr hf => hPQ _ _ _ hs (h.spec hs hr hf)

theorem Reads.bind {rule : Rule α} {next : α → Rule β} {P : State → α → State → Prop}
    {Q : α → State → β → State → Prop} (h : Reads rule P) (hn : ∀ a, Reads (next a) (Q a)) :
    Reads (rule >>= next) fun s b s' => ∃ a m, P s a m ∧ Q a m b s' where
  onward := fun s => by
    have hs := h.onward s
    cases hr : rule s with
    | ok a m =>
      rw [hr] at hs
      rw [bind_of_ok hr]
      exact hs.trans ((hn a).onward m)
    | error e m =>
      rw [hr] at hs
      rw [bind_of_error hr]
      exact hs
  spec := fun {s b s'} hs hr hf => by
    have hon := h.onward s
    cases hr' : rule s with
    | error e m =>
      rw [bind_of_error hr'] at hr
      cases hr
    | ok a m =>
      rw [bind_of_ok hr'] at hr
      rw [hr'] at hon
      have hon' := (hn a).onward m
      rw [hr] at hon'
      obtain ⟨hm, hm'⟩ := hon.faults_eq hon' hf
      exact ⟨a, m, h.spec hs hr' hm, (hn a).spec (hon.ended hs) hr hm'⟩

theorem reads_still {rule : Rule α} {f : State → α} (h : ∀ s, rule s = .ok (f s) s) :
    Reads rule fun s a s' => a = f s ∧ s' = s where
  onward := fun s => by
    rw [h]
    exact .refl s
  spec := fun {s a s'} _ hr _ => by
    rw [h] at hr
    injection hr with ha hs
    exact ⟨ha.symm, hs.symm⟩

theorem Reads.pure (a : α) : Reads (Pure.pure a : Rule α) fun s b s' => b = a ∧ s' = s :=
  reads_still fun _ => rfl

theorem reads_current : Reads current fun s t s' => t = s.current ∧ s' = s := reads_still fun _ => rfl

theorem reads_peek : Reads peek fun s k s' => k = s.current.kind ∧ s' = s := reads_still fun _ => rfl

theorem reads_remaining : Reads remaining fun s n s' => n = s.remaining ∧ s' = s :=
  reads_still fun _ => rfl

theorem reads_spanFrom (start : Token) :
    Reads (spanFrom start) fun s span s' => span = start.span.join s.previous.span ∧ s' = s :=
  reads_still fun _ => rfl

theorem reads_never {rule : Rule α} (h : ∀ s, ∃ e s', rule s = .error e s' ∧ Onward s s') :
    Reads rule fun _ _ _ => False where
  onward := fun s => by
    obtain ⟨e, s', hr, hs⟩ := h s
    rw [hr]
    exact hs
  spec := fun {s a s'} _ hr _ => by
    obtain ⟨e, s', hr', -⟩ := h s
    rw [hr'] at hr
    cases hr

theorem reads_reject (error : SyntaxError) (span : Span) :
    Reads (reject error span : Rule α) fun _ _ _ => False :=
  reads_never fun s => ⟨_, s, rfl, .refl s⟩

theorem reads_unexpected (expected : String) :
    Reads (unexpected expected : Rule α) fun _ _ _ => False :=
  reads_never fun s => ⟨_, s, rfl, .refl s⟩

theorem reads_tooDeep : Reads (throw .tooDeep : Rule α) fun _ _ _ => False :=
  reads_never fun s => ⟨_, s, rfl, .refl s⟩

theorem reads_report (error : SyntaxError) (span : Span) :
    Reads (report error span) fun _ _ _ => False where
  onward := fun s => onward_fault s ⟨error, span⟩
  spec := fun {s a s'} _ hr hf => by
    injection hr with _ hs
    rw [← hs] at hf
    exact List.cons_ne_self _ _ hf

theorem isEnd_eq_false {t : Token} {kind : TokenKind} (h : t.kind = kind)
    (hk : kind ≠ .endOfInput) : t.isEnd = false := by
  rw [Token.isEnd, h]
  exact beq_false_of_ne hk

theorem reads_advance :
    Reads advance fun s t s' => t = s.current ∧ (t.isEnd = false → Moves s [t] s') where
  onward := onward_step
  spec := fun {s t s'} hs hr _ => by
    injection hr with ht hs'
    subst ht hs'
    exact ⟨rfl, moves_step hs⟩

theorem reads_accept {kind : TokenKind} (hk : kind ≠ .endOfInput) :
    Reads (accept kind) fun s b s' =>
      (b = true ∧ ∃ t, t.kind = kind ∧ Moves s [t] s') ∨
        (b = false ∧ s.current.kind ≠ kind ∧ s' = s) where
  onward := fun s => by
    unfold accept
    split
    · exact onward_step s
    · exact .refl s
  spec := fun {s b s'} hs hr _ => by
    unfold accept at hr
    split at hr
    · rename_i h
      injection hr with hb hs'
      subst hb hs'
      exact Or.inl ⟨rfl, _, h, moves_step hs (isEnd_eq_false h hk)⟩
    · injection hr with hb hs'
      exact Or.inr ⟨hb.symm, ‹_›, hs'.symm⟩

theorem reads_expect {kind : TokenKind} (hk : kind ≠ .endOfInput) (expected : String) :
    Reads (expect kind expected) fun s t s' => t.kind = kind ∧ Moves s [t] s' where
  onward := fun s => by
    unfold expect
    split
    · exact onward_step s
    · exact .refl s
  spec := fun {s t s'} hs hr hf => by
    unfold expect at hr
    split at hr
    · rename_i h
      obtain ⟨rfl, hm⟩ := reads_advance.spec hs hr hf
      exact ⟨h, hm (isEnd_eq_false h hk)⟩
    · cases hr

theorem Reads.ite {c : Prop} [Decidable c] {rule rule' : Rule α} {P Q : State → α → State → Prop}
    (h : c → Reads rule P) (h' : ¬ c → Reads rule' Q) :
    Reads (if c then rule else rule') fun s a s' => (c ∧ P s a s') ∨ (¬ c ∧ Q s a s') := by
  split
  · exact (h ‹_›).weaken fun _ _ _ _ hp => Or.inl ⟨‹_›, hp⟩
  · exact (h' ‹_›).weaken fun _ _ _ _ hq => Or.inr ⟨‹_›, hq⟩

theorem Reads.map {rule : Rule α} {P : State → α → State → Prop} (f : α → β) (h : Reads rule P) :
    Reads (f <$> rule) fun s b s' => ∃ a, P s a s' ∧ b = f a := by
  have heq : f <$> rule = rule >>= fun a => Pure.pure (f a) := map_eq_pure_bind f rule
  rw [heq]
  refine (h.bind fun a => Reads.pure (f a)).weaken ?_
  intro s b s' _ hread
  obtain ⟨a, m, hp, rfl, rfl⟩ := hread
  exact ⟨a, hp, rfl⟩

def Takes (D : List Token → α → Prop) (s : State) (a : α) (s' : State) : Prop :=
  ∃ ts, Moves s ts s' ∧ D ts a

/-! ### What rules give -/

/-- A rule succeeds in the given way, unless it is cut off by its depth for being short of it. -/
def YieldsUnless (short : Prop) (rule : Rule α) (s : State) (a : α) (s' : State) : Prop :=
  rule s = .ok a s' ∨ short ∧ ∃ s'', rule s = .error .tooDeep s''

/-- A rule succeeds in the given way, unless it is cut off by its depth. -/
abbrev Yields : Rule α → State → α → State → Prop := YieldsUnless True

section

variable {short short' : Prop} {s s' : State} {t : Token} {ts : List Token} {kind : TokenKind}

theorem YieldsUnless.weaken {rule : Rule α} {a : α} (h : YieldsUnless short rule s a s')
    (hshort : short → short') : YieldsUnless short' rule s a s' := by
  rcases h with h | ⟨hs, h⟩
  · exact Or.inl h
  · exact Or.inr ⟨hshort hs, h⟩

theorem YieldsUnless.eq_ok {rule : Rule α} {a : α} (h : YieldsUnless short rule s a s')
    (hdeep : ¬ short) : rule s = .ok a s' :=
  h.resolve_right fun hs => hdeep hs.1

theorem YieldsUnless.bind {rule : Rule α} {next : α → Rule β} {m : State} {a : α} {b : β}
    (h : YieldsUnless short rule s a m) (hn : YieldsUnless short (next a) m b s') :
    YieldsUnless short (rule >>= next) s b s' := by
  rcases h with h | ⟨hs, m', h⟩
  · rwa [YieldsUnless, bind_of_ok h]
  · exact Or.inr ⟨hs, m', bind_of_error h⟩

theorem YieldsUnless.map {rule : Rule α} {a : α} (f : α → β) (h : YieldsUnless short rule s a s') :
    YieldsUnless short (f <$> rule) s (f a) s' := by
  have heq : f <$> rule = rule >>= fun a => Pure.pure (f a) := map_eq_pure_bind f rule
  rw [heq]
  exact h.bind (Or.inl rfl)

theorem yields_pure (a : α) (s : State) : YieldsUnless short (pure a) s a s := Or.inl rfl

theorem yields_tooDeep (hshort : short) (s s' : State) (a : α) :
    YieldsUnless short (throw .tooDeep) s a s' := Or.inr ⟨hshort, s, rfl⟩

theorem yields_current (h : Moves s (t :: ts) s') : YieldsUnless short current s t s :=
  Or.inl (by rw [← h.current_eq]; rfl)

theorem yields_advance (h : Moves s [t] s') (ht : t.isEnd = false) :
    YieldsUnless short advance s t s' := by
  refine Or.inl ?_
  rw [advance, h.current_eq, h.step_eq ht]

theorem yields_accept (h : Moves s [t] s') (ht : t.kind = kind) (hk : kind ≠ .endOfInput) :
    YieldsUnless short (accept kind) s true s' := by
  refine Or.inl ?_
  rw [accept, h.current_eq, if_pos ht, h.step_eq (isEnd_eq_false ht hk)]

theorem yields_accept_false (h : s.current.kind ≠ kind) :
    YieldsUnless short (accept kind) s false s := by
  refine Or.inl ?_
  rw [accept, if_neg h]

theorem yields_expect (h : Moves s [t] s') (ht : t.kind = kind) (hk : kind ≠ .endOfInput)
    (expected : String) : YieldsUnless short (expect kind expected) s t s' := by
  have ha : YieldsUnless short advance s t s' := yields_advance h (isEnd_eq_false ht hk)
  rwa [YieldsUnless, expect, h.current_eq, if_pos ht]

theorem yields_spanFrom (h : Moves s (t :: ts) s') :
    YieldsUnless short (spanFrom t) s' (Grammar.spanOf (t :: ts)) s' := by
  refine Or.inl ?_
  rw [spanFrom, h.join_previous]

end

end Lox.Parser
