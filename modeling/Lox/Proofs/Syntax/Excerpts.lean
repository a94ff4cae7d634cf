import Lox.Proofs.Syntax.Tiling

/-!
# Reading an excerpt

Tokens that stand side by side are read again from their stretch of the text, when a semicolon is put
behind it: reading can resume at any token, what stands behind a token is of no matter as long as it does
not make it longer, and places are told from where the reading began.
-/

namespace Lox

/-! ### Places told from another place -/

/-- How a place looks from one in front of it, when that is where the text begins. -/
def Position.since (q p : Position) : Position :=
  ⟨q.line - p.line + 1, if q.line = p.line then q.column - p.column + 1 else q.column,
    q.offset - p.offset⟩

def Span.since (p : Position) (s : Span) : Span := ⟨s.file, s.first.since p, s.last.since p⟩

theorem Span.joins_since (p : Position) : Span.Joins (Span.since p) := fun _ _ => rfl

namespace Position

/-- The one place does not stand in front of the other. -/
structure Follows (p q : Position) : Prop where
  line : p.line ≤ q.line
  column : q.line = p.line → p.column ≤ q.column
  offset : p.offset ≤ q.offset

theorem Follows.next {p q : Position} (h : p.Follows q) (c : Char) : p.Follows (q.next c) := by
  obtain ⟨hline, hcolumn, hoffset⟩ := h
  unfold Position.next
  split
  · exact ⟨Nat.le_succ_of_le hline, fun heq => absurd heq (by simp only; omega), Nat.le_succ_of_le hoffset⟩
  · exact ⟨hline, fun heq => Nat.le_succ_of_le (hcolumn heq), Nat.le_succ_of_le hoffset⟩

theorem next_since {p q : Position} (h : p.Follows q) (c : Char) :
    (q.next c).since p = (q.since p).next c := by
  obtain ⟨hline, hcolumn, hoffset⟩ := h
  unfold next since
  split
  · simp only [mk.injEq]
    refine ⟨by omega, ?_, by omega⟩
    rw [if_neg (by omega)]
  · simp only [mk.injEq]
    refine ⟨trivial, ?_, by omega⟩
    split
    · rename_i heq
      have hle := hcolumn heq
      omega
    · rfl

theorem follows_after (p : Position) (cs : List Char) : p.Follows (p.after cs) := by
  induction cs using List.reverseRecOn with
  | nil => exact ⟨Nat.le_refl _, fun _ => Nat.le_refl _, Nat.le_refl _⟩
  | append_singleton cs c ih =>
    rw [after_append]
    exact ih.next c

theorem since_after (p : Position) (cs : List Char) : (p.after cs).since p = origin.after cs := by
  induction cs using List.reverseRecOn with
  | nil =>
    show p.since p = origin
    simp [since, origin]
  | append_singleton cs c ih =>
    rw [after_append, after_append, after_cons, after_nil, next_since (follows_after p cs), ih]
    rfl

end Position

namespace Lexer

variable {file : String}

/-! ### Places of what is read -/

theorem scanFrom_since (file : String) (p : Position) (cs : List Char) :
    scanFrom file .origin cs = (scanFrom file p cs).relocate (Span.since p) := by
  refine scanFrom_relocate (fun xs ys => ?_) cs
  rw [Span.since, Position.since_after, Position.since_after]

/-! ### The first token -/

/-- Behind what is skipped, `text` is read as the token. -/
structure ReadsFirst (file : String) (p : Position) (t : Token) (skipped text behind : List Char) :
    Prop where
  skips : skipLayout false p (skipped ++ (text ++ behind)) = (p.after skipped, text ++ behind)
  reads : ∃ c cs, text ++ behind = c :: cs ∧ lexeme c cs = .token t.kind text
  token : t = ⟨t.kind, String.ofList text, ⟨file, p.after skipped, p.after (skipped ++ text)⟩⟩

theorem ReadsFirst.scan {p : Position} {t : Token} {skipped text behind : List Char}
    (h : ReadsFirst file p t skipped text behind) :
    scanFrom file p (skipped ++ (text ++ behind)) =
      ⟨t :: (scanFrom file (p.after (skipped ++ text)) behind).tokens,
        (scanFrom file (p.after (skipped ++ text)) behind).fault⟩ := by
  obtain ⟨c, cs, heq, hl⟩ := h.reads
  rw [scanFrom_eq, h.skips, heq]
  simp only [hl]
  rw [← heq, List.drop_left, ← Position.after_append, h.token]

theorem exists_readsFirst {p : Position} {cs : List Char} {t : Token} {ts : List Token}
    (h : (scanFrom file p cs).tokens = t :: ts) (ht : t.kind ≠ .endOfInput) :
    ∃ skipped text behind, cs = skipped ++ (text ++ behind) ∧
      ReadsFirst file p t skipped text behind ∧
      (scanFrom file (p.after (skipped ++ text)) behind).tokens = ts := by
  cases hs : skipLayout false p cs with
  | mk q rest =>
    obtain ⟨skipped, rfl, rfl⟩ := skipLayout_eq hs
    rw [scanFrom_eq, hs] at h
    cases rest with
    | nil =>
      obtain ⟨rfl, -⟩ := List.cons.inj h
      exact absurd rfl ht
    | cons d ds =>
      cases hl : lexeme d ds with
      | fault error text => simp [hl] at h
      | token kind text =>
        obtain ⟨behind, hbehind⟩ := lexeme_prefix hl
        simp only [hl] at h
        rw [← hbehind, List.drop_left, ← Position.after_append] at h
        obtain ⟨rfl, htail⟩ := List.cons.inj h
        refine ⟨skipped, text, behind, ?_, ⟨?_, ⟨d, ds, hbehind, hl⟩, rfl⟩, htail⟩
        · rw [hbehind]
        · rw [hbehind, hs]

/-! ### Resuming -/

theorem skipLayout_eq_self {p : Position} {cs : List Char} (h : ¬ BeginsLayout cs) :
    skipLayout false p cs = (p, cs) := by
  cases cs with
  | nil => rfl
  | cons c cs =>
    have hblank : ¬ isLayout c = true := fun hc => h (Or.inl ⟨c, cs, rfl, hc⟩)
    have hslashes : ¬ (c == '/' && cs.head? == some '/') = true := by
      intro hboth
      simp only [Bool.and_eq_true, beq_iff_eq] at hboth
      obtain ⟨rfl, hhead⟩ := hboth
      obtain ⟨rest, rfl⟩ := List.head?_eq_some_iff.mp hhead
      exact h (Or.inr ⟨rest, rfl⟩)
    rw [skipLayout_cons, if_neg Bool.false_ne_true, if_neg hblank, if_neg hslashes]

theorem ReadsFirst.not_beginsLayout {p : Position} {t : Token} {skipped text behind : List Char}
    (h : ReadsFirst file p t skipped text behind) : ¬ BeginsLayout (text ++ behind) := by
  obtain ⟨-, -, -, hends, -⟩ := layout_of_skipLayout h.skips
  exact hends

theorem scanFrom_resume {p : Position} {cs : List Char} {ts us : List Token} {t : Token}
    (hts : ∀ u ∈ ts, u.kind ≠ .endOfInput) (ht : t.kind ≠ .endOfInput)
    (h : (scanFrom file p cs).tokens = ts ++ t :: us) :
    ∃ before behind, cs = before ++ behind ∧ t.span.first = p.after before ∧
      (scanFrom file t.span.first behind).tokens = t :: us := by
  induction ts generalizing p cs with
  | nil =>
    obtain ⟨skipped, text, behind, rfl, hfirst, -⟩ := exists_readsFirst h ht
    have hplace : t.span.first = p.after skipped := by rw [hfirst.token]
    have hresume := skipLayout_eq_self (p := p.after skipped) hfirst.not_beginsLayout
    refine ⟨skipped, text ++ behind, rfl, hplace, ?_⟩
    rw [scanFrom_eq, hfirst.skips, ← hresume, ← scanFrom_eq] at h
    rw [hplace]
    exact h
  | cons u ts ih =>
    obtain ⟨hu, hts⟩ := List.forall_mem_cons.mp hts
    obtain ⟨skipped, text, behind, rfl, -, htail⟩ := exists_readsFirst h hu
    obtain ⟨before, behind, rfl, hplace, hread⟩ := ih hts htail
    refine ⟨skipped ++ (text ++ before), behind, by simp, ?_, hread⟩
    rw [hplace, ← List.append_assoc, ← Position.after_append]

/-! ### Cutting off -/

theorem IsLexeme.eq_nil_of_semicolon {kind : TokenKind} {text : List Char}
    (h : IsLexeme kind (text ++ [';'])) : text = [] := by
  have hmem : ';' ∈ text ++ [';'] := List.mem_append_right text List.mem_cons_self
  have hlast (front : List Char) {c : Char} (heq : text ++ [';'] = front ++ [c]) : ';' = c :=
    (List.cons.inj (List.append_inj' heq rfl).2).1
  have hone {c : Char} (heq : text ++ [';'] = [c]) : text = [] := by
    cases text with
    | nil => rfl
    | cons d ds => simp at heq
  generalize htext : text ++ [';'] = whole at h hmem
  cases h with
  | whole _ hd => exact absurd (hd ';' hmem) (by decide)
  | fraction _ hd _ hdd =>
    rcases List.mem_append.mp hmem with hmem | hmem
    · exact absurd (hd ';' hmem) (by decide)
    · rcases List.mem_cons.mp hmem with heq | hmem
      · exact absurd heq (by decide)
      · exact absurd (hdd ';' hmem) (by decide)
  | @string body _ => exact absurd (hlast ('"' :: body) htext) (by decide)
  | word hc hds =>
    rcases List.mem_cons.mp hmem with rfl | hmem
    · exact absurd hc (by decide)
    · exact absurd (hds ';' hmem) (by decide)
  | @withEquals c _ _ _ => exact absurd (hlast [c] htext) (by decide)
  | alone | single => exact hone htext

theorem lexeme_cut {c : Char} {cs cs' text before behind : List Char} {kind : TokenKind}
    (h : lexeme c cs = .token kind text) (hcs : c :: cs = text ++ (before ++ behind))
    (hcs' : c :: cs' = text ++ (before ++ [';'])) : lexeme c cs' = .token kind text := by
  have hformed := isLexeme_of_lexeme h
  have hprefix : text <+: c :: cs' := ⟨before ++ [';'], hcs'.symm⟩
  obtain ⟨kind', text', hl, hle⟩ := exists_lexeme hformed hprefix
  have hformed' := isLexeme_of_lexeme hl
  have hprefix' : text' <+: (text ++ before) ++ [';'] := by
    rw [List.append_assoc, ← hcs']
    exact lexeme_prefix hl
  have htext : text = text' := by
    have hread := lexeme_prefix hl
    refine (List.prefix_of_prefix_length_le hprefix hread hle).eq_of_length_le ?_
    rcases List.prefix_concat_iff.mp hprefix' with heq | hinside
    · rw [heq] at hformed'
      have hnil := hformed'.eq_nil_of_semicolon
      exact absurd (List.append_eq_nil_iff.mp hnil).1 (lexeme_token_ne_nil h)
    · have hwhole : text' <+: c :: cs := by
        rw [hcs, ← List.append_assoc]
        exact hinside.trans (List.prefix_append _ _)
      exact length_le_of_lexeme h hformed' hwhole
  subst htext
  cases text with
  | nil => exact absurd rfl (lexeme_token_ne_nil h)
  | cons d ds =>
    rw [hl, hformed'.kind_unique hformed]

theorem skipLayout_cut {inComment : Bool} {p : Position} {skipped cs cs' : List Char} {c : Char}
    (h : skipLayout inComment p (skipped ++ c :: cs) = (p.after skipped, c :: cs))
    (h' : ¬ BeginsLayout (c :: cs')) :
    skipLayout inComment p (skipped ++ c :: cs') = (p.after skipped, c :: cs') := by
  have hshort {inComment : Bool} {p q : Position} {d : Char} {ds : List Char} :
      skipLayout inComment p ds ≠ (q, d :: ds) := by
    intro heq
    have hle := length_skipLayout_le inComment p ds
    rw [heq] at hle
    exact absurd hle (by simp)
  -- Only the character behind the layout is looked at, to see whether it is a second slash.
  induction skipped generalizing inComment p with
  | nil =>
    cases inComment with
    | true =>
      rw [List.nil_append, skipLayout_cons, if_pos rfl] at h
      exact absurd h hshort
    | false => exact skipLayout_eq_self h'
  | cons d ds ih =>
    have hhead : (ds ++ c :: cs').head? = (ds ++ c :: cs).head? := by cases ds <;> rfl
    rw [List.cons_append, skipLayout_cons] at h ⊢
    rw [hhead]
    split at h
    · rw [if_pos ‹_›]
      exact ih h
    · rw [if_neg ‹_›]
      split at h
      · rw [if_pos ‹_›]
        exact ih h
      · rw [if_neg ‹_›]
        split at h
        · rw [if_pos ‹_›]
          exact ih h
        · have hlen := congrArg List.length (Prod.mk.inj h).2
          rw [List.length_cons, List.length_append] at hlen
          omega

theorem not_beginsLayout_cut {text before behind : List Char} (hne : text ≠ [])
    (h : ¬ BeginsLayout (text ++ (before ++ behind))) :
    ¬ BeginsLayout (text ++ (before ++ [';'])) := by
  obtain ⟨c, cs, rfl⟩ := List.exists_cons_of_ne_nil hne
  rintro (⟨d, rest, heq, hblank⟩ | ⟨rest, heq⟩)
  · obtain ⟨rfl, -⟩ := List.cons.inj heq
    exact h (Or.inl ⟨c, _, rfl, hblank⟩)
  · obtain ⟨rfl, htail⟩ := List.cons.inj heq
    have heq : cs ++ before ++ [';'] = '/' :: rest := by
      rw [List.append_assoc]
      exact htail
    cases hcs : cs ++ before with
    | nil =>
      rw [hcs] at heq
      exact absurd (List.cons.inj heq).1 (by decide)
    | cons d ds =>
      rw [hcs] at heq
      obtain ⟨rfl, -⟩ := List.cons.inj heq
      refine h (Or.inr ⟨ds ++ behind, ?_⟩)
      rw [List.cons_append, ← List.append_assoc, hcs]
      rfl

theorem ReadsFirst.cut {p : Position} {t : Token} {skipped text before behind : List Char}
    (h : ReadsFirst file p t skipped text (before ++ behind)) :
    ReadsFirst file p t skipped text (before ++ [';']) := by
  obtain ⟨c, cs, heq, hl⟩ := h.reads
  have hends := not_beginsLayout_cut (lexeme_token_ne_nil hl) h.not_beginsLayout
  have hskips := h.skips
  obtain ⟨rest, hrest⟩ : ∃ rest, c :: rest = text ++ (before ++ [';']) := by
    obtain ⟨d, ds, rfl⟩ := List.exists_cons_of_ne_nil (lexeme_token_ne_nil hl)
    obtain ⟨rfl, -⟩ := List.cons.inj heq
    exact ⟨_, rfl⟩
  rw [← hrest] at hends
  rw [heq] at hskips
  constructor
  case skips => rw [← hrest, skipLayout_cut hskips hends]
  case reads => exact ⟨c, rest, hrest.symm, lexeme_cut hl heq.symm hrest⟩
  case token => exact h.token

/-- The tokens behind an expression: the semicolon and the end of the text. -/
def closing (file : String) (p : Position) : List Token :=
  [⟨.semicolon, ";", ⟨file, p, p.next ';'⟩⟩, ⟨.endOfInput, "", ⟨file, p.next ';', p.next ';'⟩⟩]

theorem scanFrom_semicolon (p : Position) : scanFrom file p [';'] = ⟨closing file p, none⟩ := by
  have hends : ¬ BeginsLayout [';'] := not_beginsLayout_cons (by decide) (by decide)
  have hfirst : ReadsFirst file p ⟨.semicolon, ";", ⟨file, p, p.next ';'⟩⟩ [] [';'] [] :=
    ⟨skipLayout_eq_self hends, ⟨';', [], rfl, lexeme_of_single rfl []⟩, rfl⟩
  refine hfirst.scan.trans ?_
  rw [scanFrom_eq]
  rfl

theorem scanFrom_cut {p : Position} {cs : List Char} {us rest : List Token} (hne : us ≠ [])
    (hus : ∀ u ∈ us, u.kind ≠ .endOfInput) (h : (scanFrom file p cs).tokens = us ++ rest) :
    ∃ before behind, cs = before ++ behind ∧ (us.getLast hne).span.last = p.after before ∧
      scanFrom file p (before ++ [';']) = ⟨us ++ closing file (p.after before), none⟩ := by
  induction us generalizing p cs with
  | nil => exact absurd rfl hne
  | cons u us ih =>
    obtain ⟨hu, hus⟩ := List.forall_mem_cons.mp hus
    obtain ⟨skipped, text, behind, rfl, hfirst, htail⟩ := exists_readsFirst h hu
    cases us with
    | nil =>
      refine ⟨skipped ++ text, behind, by simp, by rw [List.getLast_singleton, hfirst.token], ?_⟩
      have hcut := (@ReadsFirst.cut file p u skipped text [] behind hfirst).scan
      rw [List.append_assoc]
      refine hcut.trans ?_
      rw [List.nil_append, scanFrom_semicolon]
      rfl
    | cons v us =>
      obtain ⟨before, behind, rfl, hlast, hread⟩ := ih (List.cons_ne_nil v us) hus htail
      refine ⟨skipped ++ (text ++ before), behind, by simp, ?_, ?_⟩
      · rw [List.getLast_cons (List.cons_ne_nil v us), hlast, ← List.append_assoc,
          ← Position.after_append]
      · have hcut := hfirst.cut.scan
        rw [hread, ← Position.after_append] at hcut
        simpa using hcut

/-- Tokens that stand side by side in a source are read again from their excerpt with a semicolon behind
it, in the places told from there. -/
theorem tokenize_excerpt {source : String} {ts us rest : List Token}
    (h : tokenize file source = .ok (ts ++ (us ++ rest))) (hne : us ≠ [])
    (hinner : ∀ t ∈ ts ++ us, t.kind ≠ .endOfInput) :
    tokenize file (String.ofList (slice source.toList (Grammar.spanOf us).first.offset
        (Grammar.spanOf us).last.offset ++ [';'])) =
      .ok ((us ++ closing file (Grammar.spanOf us).last).map
        (Token.relocate (Span.since (Grammar.spanOf us).first))) := by
  obtain ⟨u, us, rfl⟩ := List.exists_cons_of_ne_nil hne
  obtain ⟨hts, hus⟩ := List.forall_mem_append.mp hinner
  have hscan : (scanFrom file .origin source.toList).tokens = ts ++ u :: (us ++ rest) :=
    (tokens_of_tokenize h).symm
  obtain ⟨before, behind, hsource, hfirst, hread⟩ :=
    scanFrom_resume hts (hus u List.mem_cons_self) hscan
  obtain ⟨text, behind, rfl, hlast, hcut⟩ := scanFrom_cut hne hus hread
  have hspan : Grammar.spanOf (u :: us) = ⟨u.span.file, u.span.first, u.span.first.after text⟩ := by
    rw [← hlast, List.getLast_eq_getLastD]
    rfl
  have hslice : slice source.toList u.span.first.offset (u.span.first.after text).offset = text := by
    rw [hfirst, ← Position.after_append, Position.offset_after_origin, Position.offset_after_origin,
      hsource, slice_append]
  have hall : scan file (String.ofList (text ++ [';'])) =
      (scanFrom file u.span.first (text ++ [';'])).relocate (Span.since u.span.first) := by
    rw [scan, String.toList_ofList]
    exact scanFrom_since file u.span.first (text ++ [';'])
  rw [hspan]
  simp only [hslice]
  rw [hcut] at hall
  rw [tokenize_of_no_fault (by rw [hall]; rfl), hall]
  rfl

end Lexer

end Lox
