import Lox.Proofs.Syntax.FaultOrder
import Lox.Proofs.Syntax.Turns

/-!
# Progress

A declaration takes at least one token, whether it is read or left out, and no rule moves behind the last
token. So every loop over declarations ends, and one that nothing cuts short ends at the end of the input:
all tokens stand in declarations that were read, or have been left behind with an error.
-/

namespace Lox.Parser

open Grammar

variable {α β : Type} {limit : Nat} {s m : State}

instance : Composes Onward := ⟨.refl, .trans⟩

theorem Roams.onward {s s' : State} (h : Roams s s') : Onward s s' := by
  induction h with
  | stay s => exact .refl s
  | take _ _ ih => exact ih.trans (onward_step _)
  | count _ ih => exact ih.trans (onward_fault _ _)
  | target _ _ _ ih ih' => exact ih.trans ((onward_step _).trans (ih'.trans (onward_fault _ _)))

instance : Strides Onward where
  step := onward_step
  note s error := onward_fault s ⟨error, s.current.span⟩
  roam := Roams.onward

/-! ### Rules that take a token -/

/-- A rule that succeeds has taken a token. -/
def Gains (rule : Rule α) (s : State) : Prop :=
  ∀ a m, rule s = .ok a m → m.remaining < s.remaining

theorem Gains.bind {rule : Rule α} {next : α → Rule β} (h : Gains rule s)
    (hn : ∀ a m, Arrives Onward (next a) m) : Gains (rule >>= next) s := by
  intro b m hr
  cases hrule : rule s with
  | error e m' => rw [bind_of_error hrule] at hr; cases hr
  | ok a m' =>
    rw [bind_of_ok hrule] at hr
    have hon := (hn a m').final
    rw [hr] at hon
    exact Nat.lt_of_le_of_lt hon.remaining_le (h a m' hrule)

theorem Gains.after {rule : Rule α} {next : α → Rule β} (hs : Ended s.tokens)
    (h : Arrives Onward rule s) (hn : ∀ a m, Ended m.tokens → Gains (next a) m) :
    Gains (rule >>= next) s := by
  intro b m hr
  cases hrule : rule s with
  | error e m' => rw [bind_of_error hrule] at hr; cases hr
  | ok a m' =>
    rw [bind_of_ok hrule] at hr
    have hon := h.final
    rw [hrule] at hon
    exact Nat.lt_of_lt_of_le (hn a m' (hon.ended hs) b m hr) hon.remaining_le

theorem Gains.current {next : Token → Rule α} (h : Gains (next s.current) s) :
    Gains (Parser.current >>= next) s := h

theorem gains_advance (hs : Ended s.tokens) (hend : s.current.isEnd = false) : Gains advance s := by
  intro t m hr
  obtain rfl : s.step = m := by cases hr; rfl
  exact remaining_step_lt hs hend

theorem gains_expect {kind : TokenKind} (hk : kind ≠ .endOfInput) (expected : String)
    (hs : Ended s.tokens) : Gains (expect kind expected) s := by
  intro t m hr
  unfold expect at hr
  split at hr
  · rename_i hkind
    exact gains_advance hs (isEnd_eq_false hkind hk) t m hr
  · cases hr

theorem gains_reject (error : SyntaxError) (span : Span) : Gains (reject error span : Rule α) s :=
  fun _ _ hr => nomatch hr

theorem gains_keyword {next : Token → Rule α} {kind : TokenKind} (hk : s.current.kind = kind)
    (hend : kind ≠ .endOfInput) (hs : Ended s.tokens) (hn : ∀ t m, Arrives Onward (next t) m) :
    Gains (advance >>= next) s :=
  (gains_advance hs (isEnd_eq_false hk hend)).bind hn

theorem gains_statement (depth : Nat) (hs : Ended s.tokens) : Gains (statement depth) s := by
  cases depth with
  | zero => exact fun _ _ hr => nomatch hr
  | succ depth =>
    have he : ∀ m, Arrives Onward (expression depth) m := Strides.expression depth
    obtain ⟨hstmt, hdecl⟩ := Strides.statement_declaration (Q := Onward) depth
    refine .current ?_
    split
    case h_1 hk => exact gains_keyword hk (by decide) hs fun _ => Strides.printStatement he _
    case h_2 hk => exact gains_keyword hk (by decide) hs fun _ => Strides.returnStatement he _
    case h_3 hk => exact gains_keyword hk (by decide) hs fun _ => Strides.ifStatement he hstmt _
    case h_4 hk => exact gains_keyword hk (by decide) hs fun _ => Strides.whileStatement he hstmt _
    case h_5 hk => exact gains_keyword hk (by decide) hs fun _ => Strides.forStatement he hstmt _
    case h_6 hk =>
      exact gains_keyword hk (by decide) hs fun _ m =>
        (Strides.blockBody hdecl m).bind fun _ m _ => Strides.ending _ m
    case h_7 =>
      split
      · exact gains_reject _ _
      · refine Gains.after hs (he s) fun _ m hm => ?_
        exact (gains_expect (by decide) _ hm).bind fun _ m => Strides.ending _ m

/-! ### Declarations -/

/-- What one call for a declaration goes over: the tokens, the declaration if it is not left out, and the
faults that were noted, the latest first. -/
structure Segment where
  tokens : List Token
  accepted : Option RawStmt
  faults : List SyntaxFault

/-- A segment has been left behind between two states. It is not empty, and where its declaration is left
out an error has been noted at one of its tokens or at the one behind it. -/
structure Advances (s : State) (segment : Segment) (m : State) : Prop where
  ne_nil : segment.tokens ≠ []
  tokens : s.tokens = segment.tokens ++ m.tokens
  faults : m.faults = segment.faults ++ s.faults
  reported : segment.accepted = none →
    ∃ f ∈ segment.faults, ∃ t ∈ segment.tokens ++ [m.current], f.span = t.span

theorem Advances.remaining_lt {segment : Segment} (h : Advances s segment m) :
    m.remaining < s.remaining := by
  have hlen := congrArg List.length h.tokens
  have hpos := List.length_pos_iff.mpr h.ne_nil
  rw [List.length_append] at hlen
  show m.tokens.length < s.tokens.length
  omega

theorem Advances.isStmt {segment : Segment} {depth : Nat} (h : Advances s segment m)
    (hs : Ended s.tokens) (hr : declaration depth s = .ok segment.accepted m)
    (hclean : segment.faults = []) :
    ∃ stmt, segment.accepted = some stmt ∧ IsStmt .item segment.tokens stmt := by
  have hfaults : m.faults = s.faults := by rw [h.faults, hclean, List.nil_append]
  obtain ⟨ts, hts, stmt, hstmt, hitem⟩ := (reads_statement_declaration depth).2.spec hs hr hfaults
  obtain rfl : segment.tokens = ts := List.append_cancel_right (h.tokens.symm.trans hts.tokens)
  exact ⟨stmt, hstmt, hitem⟩

theorem exists_advances_of_gain {stmt : RawStmt} (hon : Onward s m)
    (hlt : m.remaining < s.remaining) : ∃ ts faults, Advances s ⟨ts, some stmt, faults⟩ m := by
  obtain ⟨ts, hts⟩ := hon.tokens
  obtain ⟨faults, hfaults⟩ := hon.faults
  refine ⟨ts, faults, ?_, hts.symm, hfaults.symm, fun h => nomatch h⟩
  rintro rfl
  have heq : m.remaining = s.remaining := congrArg List.length hts
  exact absurd heq (Nat.ne_of_lt hlt)

/-- A recovery takes a token: the one at which the rule was rejected, or the rule has moved to the end
before. -/
theorem exists_advances_of_rejected {f : SyntaxFault} {m₁ : State} (hs : Ended s.tokens)
    (hend : s.current.isEnd = false) (hon : Onward s m₁) (hplace : f.span = m₁.current.span)
    (hsync : synchronize (m₁.noting f) = .ok () m) :
    ∃ ts faults, Advances s ⟨ts, none, faults⟩ m := by
  obtain ⟨m', hsync', hstep, hskip⟩ : ∃ m', synchronize (m₁.noting f) = .ok () m' ∧
      Onward (m₁.noting f) (m₁.noting f).step ∧ Onward (m₁.noting f).step m' := by
    obtain ⟨m', hr, hskip⟩ := onward_skipToBoundary (m₁.noting f).remaining (m₁.noting f).step
    exact ⟨m', hr, onward_step _, hskip⟩
  obtain rfl : m' = m := by rw [hsync] at hsync'; cases hsync'; rfl
  obtain ⟨us, hus⟩ := hon.tokens
  obtain ⟨vs, hvs⟩ := (hstep.trans hskip).tokens
  obtain ⟨before, hbefore⟩ := hon.faults
  obtain ⟨behind, hbehind⟩ := (hstep.trans hskip).faults
  have hvs : m₁.tokens = vs ++ m'.tokens := hvs.symm
  have htokens : s.tokens = (us ++ vs) ++ m'.tokens := by rw [List.append_assoc, ← hvs, hus]
  refine ⟨us ++ vs, behind ++ f :: before, fun hnil => ?_, htokens, ?_, fun _ => ?_⟩
  · obtain ⟨rfl, rfl⟩ := List.append_eq_nil_iff.mp hnil
    have hcurrent : m₁.current = s.current := (List.cons.inj hus).1
    have hlt := remaining_step_lt (s := m₁.noting f) (hon.ended hs) (hcurrent ▸ hend)
    have hle := hskip.remaining_le
    have heq : m₁.remaining = m'.remaining := congrArg List.length hvs
    exact Nat.lt_irrefl _ (heq ▸ Nat.lt_of_le_of_lt hle hlt)
  · have hnoted : (m₁.noting f).faults = f :: m₁.faults := rfl
    rw [← hbehind, hnoted, ← hbefore, List.append_assoc]
    rfl
  · refine ⟨f, List.mem_append_right _ List.mem_cons_self, m₁.current, ?_, hplace⟩
    rw [List.append_assoc]
    exact List.mem_append_right us (current_mem_of_tokens_eq hvs)

/-- What a call for a declaration may come to. Only the depth can cut it off. -/
structure CallAdvances (rule : Rule (Option RawStmt)) (s : State) : Prop where
  onward : Onward s (finalState (rule s))
  cutOff : ∀ e m, rule s = .error e m → e = .tooDeep
  advances : s.current.isEnd = false → ∀ accepted m, rule s = .ok accepted m →
    ∃ ts faults, Advances s ⟨ts, accepted, faults⟩ m

theorem callAdvances_recovering {rule : Rule RawStmt} (hs : Ended s.tokens)
    (ha : Arrives Onward rule s) (hg : Gains rule s) : CallAdvances (recovering rule) s where
  onward := (Strides.recovering ha).final
  cutOff e m hr := by
    unfold recovering at hr
    split at hr
    · cases hr
    · rename_i f m₁ _
      obtain ⟨m', hsync, -⟩ := onward_synchronize (m₁.noting f)
      rw [show synchronize { m₁ with faults := f :: m₁.faults } = _ from hsync] at hr
      cases hr
    · cases hr
      rfl
  advances hend accepted m hr := by
    have hon := ha.final
    unfold recovering at hr
    split at hr
    · rename_i stmt m₁ hrule
      rw [hrule] at hon
      cases hr
      exact exists_advances_of_gain hon (hg stmt m hrule)
    · rename_i f m₁ hrule
      rw [hrule] at hon
      obtain ⟨m', hsync, -⟩ := onward_synchronize (m₁.noting f)
      rw [show synchronize { m₁ with faults := f :: m₁.faults } = _ from hsync] at hr
      cases hr
      exact exists_advances_of_rejected hs hend hon (ha.place hrule) hsync
    · cases hr

theorem callAdvances_declaration (depth : Nat) (hs : Ended s.tokens) :
    CallAdvances (declaration depth) s := by
  cases depth with
  | zero =>
    exact ⟨.refl s, fun e m hr => by cases hr; rfl, fun _ _ _ hr => nomatch hr⟩
  | succ depth =>
    obtain ⟨hstmt, hdecl⟩ := Strides.statement_declaration (Q := Onward) depth
    refine callAdvances_recovering hs (.current ?_) (.current ?_)
    · split
      · exact Strides.advance (Strides.funDeclaration hdecl _ _)
      · exact Strides.advance (Strides.varDeclaration (Strides.expression _) _ _)
      · exact hstmt s
    · split
      · exact gains_keyword ‹_› (by decide) hs fun _ => Strides.funDeclaration hdecl _
      · exact gains_keyword ‹_› (by decide) hs fun _ => Strides.varDeclaration (Strides.expression _) _
      · exact gains_statement depth hs

/-! ### Programs -/

/-- The loop over the declarations of a program, without a bound on its turns. It ends at the end of the
input, at a declaration that nests too deeply, or with too many faults. -/
inductive Parses (limit : Nat) : State → List Segment → State → Prop where
  | finished {s : State} (hend : s.current.isEnd = true) : Parses limit s [] s
  | cutOff {s m : State} (hs : s.current.isEnd = false)
    (hr : declaration limit s = .error .tooDeep m) :
    Parses limit s [] (m.noting ⟨.nestingTooDeep, m.current.span⟩)
  | full {s m : State} {segment : Segment} (hs : s.current.isEnd = false)
    (hr : declaration limit s = .ok segment.accepted m) (h : Advances s segment m)
    (hfull : errorLimit ≤ m.faults.length) : Parses limit s [segment] m
  | next {s m last : State} {segment : Segment} {segments : List Segment}
    (hs : s.current.isEnd = false) (hr : declaration limit s = .ok segment.accepted m)
    (h : Advances s segment m) (hroom : m.faults.length < errorLimit)
    (hrest : Parses limit m segments last) : Parses limit s (segment :: segments) last

/-- The bound on the turns is never used up. -/
theorem parses_declarations {n : Nat} (hs : Ended s.tokens) (hn : s.remaining ≤ n) :
    ∃ segments, Parses limit s segments (declarations limit n s).2 ∧
      (declarations limit n s).1 = segments.filterMap Segment.accepted := by
  induction n generalizing s with
  | zero => exact absurd hn (Nat.not_succ_le_zero _)
  | succ n ih =>
    have hcall := callAdvances_declaration limit hs
    have hon := hcall.onward
    rw [declarations]
    cases hend : s.current.isEnd with
    | true => exact ⟨[], .finished hend, rfl⟩
    | false =>
      rw [if_neg Bool.false_ne_true]
      cases hr : declaration limit s with
      | error e m =>
        obtain rfl := hcall.cutOff e m hr
        exact ⟨[], .cutOff hend hr, rfl⟩
      | ok accepted m =>
        have hon : Onward s m := by rwa [hr] at hon
        obtain ⟨ts, faults, h⟩ := hcall.advances hend accepted m hr
        have hlt := h.remaining_lt
        dsimp only
        split
        · rename_i hfull
          refine ⟨[⟨ts, accepted, faults⟩], .full hend hr h hfull, ?_⟩
          cases accepted <;> rfl
        · rename_i hroom
          obtain ⟨segments, hrest, heq⟩ := ih (hon.ended hs) (by omega)
          refine ⟨⟨ts, accepted, faults⟩ :: segments, .next hend hr h (Nat.lt_of_not_le hroom) hrest, ?_⟩
          rw [heq]
          cases accepted <;> rfl

namespace Parses

variable {last : State} {segments : List Segment}

theorem onward (h : Parses limit s segments last) : Onward s last := by
  have hcall (s : State) : Onward s (finalState (declaration limit s)) :=
    ((Strides.statement_declaration (Q := Onward) limit).2 s).final
  induction h with
  | finished => exact .refl _
  | @cutOff s m _ hr =>
    have hon := hcall s
    rw [hr] at hon
    exact hon.trans (onward_fault m _)
  | @full s m _ _ hr =>
    have hon := hcall s
    rwa [hr] at hon
  | @next s m last segment segments _ hr _ _ _ ih =>
    have hon := hcall s
    rw [hr] at hon
    exact hon.trans ih

theorem exists_advances (h : Parses limit s segments last) (hs : Ended s.tokens) {segment : Segment}
    (hmem : segment ∈ segments) : ∃ m m', Ended m.tokens ∧
      declaration limit m = .ok segment.accepted m' ∧ Advances m segment m' := by
  induction h with
  | finished | cutOff => exact absurd hmem List.not_mem_nil
  | full _ hr h => exact ⟨_, _, hs, List.mem_singleton.mp hmem ▸ hr, List.mem_singleton.mp hmem ▸ h⟩
  | next _ hr h _ _ ih =>
    rcases List.mem_cons.mp hmem with rfl | hmem
    · exact ⟨_, _, hs, hr, h⟩
    · exact ih (Ended.of_append (h.tokens ▸ hs) (List.cons_ne_nil _ _)) hmem

/-- A parse that is not cut short ends at the end of the input, and has left all in front of it behind,
segment by segment. -/
theorem reaches_end (h : Parses limit s segments last) (hs : Ended s.tokens) (hcut : ¬ CutOff last.faults)
    (hroom : last.faults.length < errorLimit) :
    last.current.isEnd = true ∧ s.tokens = segments.flatMap Segment.tokens ++ last.tokens ∧
      last.faults = (segments.reverse.flatMap Segment.faults) ++ s.faults := by
  induction h with
  | finished hend => exact ⟨hend, rfl, rfl⟩
  | cutOff => exact absurd ⟨_, List.mem_cons_self, rfl⟩ hcut
  | full _ _ _ hfull => exact absurd hfull (Nat.not_le.mpr hroom)
  | next _ _ h _ hrest ih =>
    have hm : Ended _ := Ended.of_append (h.tokens ▸ hs) (List.cons_ne_nil _ _)
    obtain ⟨hend, htokens, hfaults⟩ := ih hm hcut hroom
    refine ⟨hend, ?_, ?_⟩
    · rw [h.tokens, htokens, List.flatMap_cons, List.append_assoc]
    · rw [hfaults, h.faults, List.reverse_cons, List.flatMap_append, List.flatMap_singleton,
        List.append_assoc]

end Parses

/-- Whatever the tokens are, if the last and no other is the end of the input: a call for a declaration
that does not stand at the end takes a token, whether it is read or left out, and only its depth can cut
it off. Every loop of the parse ends by itself. The parse goes from segment to segment and never moves
behind the end; one that is not cut short by its depth or by too many faults ends there, so all tokens in
front of it stand in the segments, each of which is read or has an error noted. -/
theorem parse_progress {t : Token} {ts : List Token} (h : Ended (t :: ts)) :
    let outcome := parseProgram limit (t :: ts)
    (∀ depth s, Ended s.tokens → CallAdvances (declaration depth) s) ∧
    (∀ depth, LoopsEnd depth) ∧
    ∃ segments last, Parses limit (initialState t ts) segments last ∧
      outcome.program.statements = segments.filterMap Segment.accepted ∧
      outcome.faults = last.faults.reverse ∧ last.tokens <:+ t :: ts ∧ Ended last.tokens ∧
      (∀ segment ∈ segments, segment.tokens ≠ [] ∧
        (segment.accepted = none → segment.faults ≠ []) ∧
        (segment.faults = [] →
          ∃ stmt, segment.accepted = some stmt ∧ IsStmt .item segment.tokens stmt)) ∧
      (¬ CutOff outcome.faults → outcome.faults.length < errorLimit →
        last.current.isEnd = true ∧
          t :: ts = segments.flatMap Segment.tokens ++ [last.current] ∧
          last.faults = segments.reverse.flatMap Segment.faults) := by
  intro outcome
  have hcalls (depth : Nat) (s : State) (hs : Ended s.tokens) : CallAdvances (declaration depth) s :=
    callAdvances_declaration depth hs
  have hloops (depth : Nat) : LoopsEnd depth := loopsEnd fun {s m first} hs hend hr => by
    obtain ⟨_, _, hadvances⟩ := (hcalls depth s hs).advances hend first m hr
    exact hadvances.remaining_lt
  obtain ⟨segments, hparses, hstatements⟩ :=
    parses_declarations (s := initialState t ts) h (Nat.le_refl _)
  let last := (declarations limit (initialState t ts).remaining (initialState t ts)).2
  have hfaults : outcome.faults = last.faults.reverse := rfl
  have hended : Ended last.tokens := hparses.onward.ended h
  refine ⟨hcalls, hloops, segments, last, hparses, hstatements, hfaults, hparses.onward.tokens, hended,
    fun segment hmem => ?_, fun hcut hroom => ?_⟩
  · obtain ⟨m, m', hm, hr, hadvances⟩ := hparses.exists_advances h hmem
    refine ⟨hadvances.ne_nil, fun hnone hnil => ?_, hadvances.isStmt hm hr⟩
    obtain ⟨f, hf, -⟩ := hadvances.reported hnone
    exact absurd (hnil ▸ hf) List.not_mem_nil
  · have hlast : ¬ CutOff last.faults := fun ⟨f, hf, he⟩ =>
      hcut ⟨f, hfaults ▸ List.mem_reverse.mpr hf, he⟩
    rw [hfaults, List.length_reverse] at hroom
    obtain ⟨hend, htokens, hall⟩ := hparses.reaches_end h hlast hroom
    refine ⟨hend, ?_, hall.trans (List.append_nil _)⟩
    have hrest : last.tokens = [last.current] :=
      congrArg (List.cons last.current) (hended.ahead_eq_nil hend)
    exact hrest ▸ htokens

/-- A closing brace without a block, and a declaration without a name. -/
theorem parse_progress_malformed :
    ∃ (segments : List Segment) (last : Token),
      (Lexer.scan "" "\x7d var = 1; print 2;").tokens = segments.flatMap Segment.tokens ++ [last] ∧
      last.isEnd = true ∧ ∀ segment ∈ segments, segment.accepted = none → segment.faults ≠ [] := by
  have hscan : (Lexer.scan "" "\x7d var = 1; print 2;").fault = none := by decide +kernel
  have hended := Lexer.ended_tokenize (Lexer.tokenize_of_no_fault hscan)
  obtain ⟨t, ts, htokens⟩ : ∃ t ts, (Lexer.scan "" "\x7d var = 1; print 2;").tokens = t :: ts := by
    obtain ⟨body, last, hbody, -⟩ := hended
    exact List.exists_cons_of_ne_nil (hbody ▸ append_singleton_ne_nil body last)
  have hfaults : (parseProgram 500 (Lexer.scan "" "\x7d var = 1; print 2;").tokens).faults.map
      SyntaxFault.error = [.unexpectedToken "expression" (Text.quoted "\x7d"),
        .unexpectedToken "variable name" (Text.quoted "=")] := by decide +kernel
  rw [htokens] at hended hfaults ⊢
  have hprogress := @parse_progress 500 t ts hended
  obtain ⟨-, -, segments, last, -, -, -, -, -, hsegments, hreaches⟩ := hprogress
  have hcut : ¬ CutOff (parseProgram 500 (t :: ts)).faults := by
    rintro ⟨f, hf, he⟩
    have hmem := List.mem_map_of_mem (f := SyntaxFault.error) hf
    rw [hfaults, he] at hmem
    simp at hmem
  have hlength := congrArg List.length hfaults
  rw [List.length_map] at hlength
  obtain ⟨hend, hall, -⟩ := hreaches hcut (by rw [hlength]; decide)
  exact ⟨segments, last.current, hall, hend, fun segment hmem => (hsegments segment hmem).2.1⟩

end Lox.Parser
