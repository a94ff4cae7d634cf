import Lox.Proofs.Syntax.Excerpts
import Lox.Proofs.Syntax.TokenOrder
import Mathlib.Data.List.Forall2

/-!
# Words and the blanks between them

A token is read as itself in front of a blank, whatever follows. So the tokens of a source can be written
anew with other blanks between them and without its comments: the text is read as the same words.
-/

namespace Lox

/-- The tokens differ in their places at most. -/
structure Token.SameWord (t u : Token) : Prop where
  kind : t.kind = u.kind
  lexeme : t.lexeme = u.lexeme
  numberValue : t.numberValue = u.numberValue
  stringValue : t.stringValue = u.stringValue

theorem Token.SameWord.of_lexeme {t u : Token} (hkind : t.kind = u.kind) (hlexeme : t.lexeme = u.lexeme) :
    t.SameWord u where
  kind := hkind
  lexeme := hlexeme
  numberValue := congrArg (fun s : String => Decimal.ofLexeme s.toList) hlexeme
  stringValue := congrArg (fun s : String => String.ofList (s.toList.drop 1).dropLast) hlexeme

namespace Lexer

/-! ### Spacing -/

/-- A run of spaces, tabs and line feeds that parts two words. -/
structure IsSpacing (cs : List Char) : Prop where
  ne_nil : cs ≠ []
  blank : ∀ c ∈ cs, c = ' ' ∨ c = '\t' ∨ c = '\n'

/-- A text is made of the words in order, with spacing between each two of them. -/
inductive Spaced : List (List Char) → List Char → Prop where
  | none : Spaced [] []
  | one (word : List Char) : Spaced [word] word
  | more {word next spacing rest : List Char} {words : List (List Char)} :
    IsSpacing spacing → Spaced (next :: words) rest →
      Spaced (word :: next :: words) (word ++ (spacing ++ rest))

theorem isLayout_cases {P : Char → Prop} (hspace : P ' ') (htab : P '\t') (hreturn : P '\r')
    (hline : P '\n') {c : Char} (h : isLayout c = true) : P c := by
  simp only [isLayout, Bool.or_eq_true, beq_iff_eq] at h
  rcases h with ((rfl | rfl) | rfl) | rfl
  · exact hspace
  · exact htab
  · exact hreturn
  · exact hline

theorem IsSpacing.isLayout {spacing : List Char} (h : IsSpacing spacing) :
    ∀ c ∈ spacing, isLayout c = true := by
  intro c hc
  rcases h.blank c hc with rfl | rfl | rfl <;> rfl

/-- What may follow a word: nothing, or a blank. -/
def Parted (rest : List Char) : Prop := ∀ c ∈ rest.head?, isLayout c = true

theorem parted_nil : Parted [] := nofun

theorem IsSpacing.parted {spacing : List Char} (h : IsSpacing spacing) (rest : List Char) :
    Parted (spacing ++ rest) := by
  obtain ⟨c, cs, rfl⟩ := List.exists_cons_of_ne_nil h.ne_nil
  intro d hd
  obtain rfl : c = d := Option.mem_some.mp hd
  exact h.isLayout c List.mem_cons_self

theorem Parted.head?_ne {rest : List Char} (h : Parted rest) {d : Char} (hd : isLayout d = false) :
    rest.head? ≠ some d := by
  intro hhead
  rw [h d hhead] at hd
  cases hd

theorem Parted.takeWhile {rest : List Char} (h : Parted rest) {p : Char → Bool}
    (hp : ∀ c, isLayout c = true → p c = false) {word : List Char} (hword : ∀ c ∈ word, p c = true) :
    (word ++ rest).takeWhile p = word := by
  rw [List.takeWhile_append_of_pos hword]
  cases rest with
  | nil => exact List.append_nil word
  | cons c cs =>
    rw [List.takeWhile_cons, hp c (h c rfl)]
    exact List.append_nil word

/-! ### Tokens in front of a blank -/

theorem isDigit_of_isLayout (c : Char) (h : isLayout c = true) : c.isDigit = false :=
  isLayout_cases (P := fun c => c.isDigit = false) rfl rfl rfl rfl h

theorem inWord_of_isLayout (c : Char) (h : isLayout c = true) : inWord c = false :=
  isLayout_cases (P := fun c => inWord c = false) (by decide +kernel) (by decide +kernel)
    (by decide +kernel) (by decide +kernel) h

theorem beginsWord_of_isLayout (c : Char) (h : isLayout c = true) : beginsWord c = false :=
  isLayout_cases (P := fun c => beginsWord c = false) (by decide +kernel) (by decide +kernel)
    (by decide +kernel) (by decide +kernel) h

variable {kind : TokenKind} {c : Char} {cs rest : List Char}

theorem IsLexeme.ne_nil {text : List Char} (h : IsLexeme kind text) : text ≠ [] := by
  cases h with
  | whole hne _ => exact hne
  | fraction => simp
  | string | word | withEquals | alone | single => exact List.cons_ne_nil _ _

theorem numberLexeme_parted {digits : List Char} (hd : ∀ d ∈ digits, d.isDigit = true)
    (h : Parted rest) : numberLexeme (digits ++ rest) = digits := by
  have htake : (digits ++ rest).takeWhile Char.isDigit = digits := h.takeWhile isDigit_of_isLayout hd
  have hdrop : (digits ++ rest).dropWhile Char.isDigit = rest := by
    rw [← drop_length_takeWhile, htake, List.drop_left]
  unfold numberLexeme
  rw [htake, hdrop]
  dsimp only
  split
  · exact absurd rfl (h.head?_ne (d := '.') rfl)
  · rfl

theorem numberLexeme_fraction_parted {digits decimals : List Char}
    (hd : ∀ d ∈ digits, d.isDigit = true) (hne : decimals ≠ [])
    (hdecimals : ∀ d ∈ decimals, d.isDigit = true) (h : Parted rest) :
    numberLexeme (digits ++ '.' :: (decimals ++ rest)) = digits ++ '.' :: decimals := by
  obtain ⟨d, ds, rfl⟩ := List.exists_cons_of_ne_nil hne
  obtain ⟨hfirst, hds⟩ := List.forall_mem_cons.mp hdecimals
  rw [List.cons_append, numberLexeme_fraction _ hd hfirst, h.takeWhile isDigit_of_isLayout hds]

theorem lexeme_parted (h : IsLexeme kind (c :: cs)) (hrest : Parted rest) :
    lexeme c (cs ++ rest) = .token kind (c :: cs) := by
  generalize htext : c :: cs = text at h
  cases h with
  | whole _ hd =>
    subst htext
    have hnumber : numberLexeme (c :: (cs ++ rest)) = c :: cs := numberLexeme_parted hd hrest
    rw [lexeme_of_isDigit (hd c List.mem_cons_self), hnumber]
  | @fraction digits decimals hne hd hdecimals hdd =>
    obtain ⟨d, ds, rfl⟩ := List.exists_cons_of_ne_nil hne
    obtain ⟨rfl, rfl⟩ := List.cons.inj htext
    have hnumber := numberLexeme_fraction_parted hd hdecimals hdd hrest
    rw [lexeme_of_isDigit (hd c List.mem_cons_self)]
    simpa using hnumber
  | @string body hbody =>
    obtain ⟨rfl, rfl⟩ := List.cons.inj htext
    rw [List.append_assoc]
    exact lexeme_of_string hbody rest
  | word hc hds =>
    obtain ⟨rfl, rfl⟩ := List.cons.inj htext
    rw [lexeme_of_beginsWord hc, hrest.takeWhile inWord_of_isLayout hds]
  | withEquals hc =>
    obtain ⟨rfl, rfl⟩ := List.cons.inj htext
    exact lexeme_of_paired hc ('=' :: rest)
  | alone hc =>
    obtain ⟨rfl, rfl⟩ := List.cons.inj htext
    rw [lexeme_of_paired hc, if_neg]
    rw [beq_iff_eq]
    exact hrest.head?_ne rfl
  | single hc =>
    obtain ⟨rfl, rfl⟩ := List.cons.inj htext
    exact lexeme_of_single hc rest

theorem isLayout_of_paired {p : TokenKind × TokenKind} (h : paired? c = some p) :
    isLayout c = false ∧ c ≠ '/' := by
  unfold paired? at h
  split at h <;> cases h <;> exact ⟨rfl, by decide⟩

theorem isLayout_of_single (h : single? c = some kind) : isLayout c = false := by
  unfold single? at h
  split at h <;> cases h <;> rfl

theorem IsLexeme.not_beginsLayout (h : IsLexeme kind (c :: cs)) (hrest : Parted rest) :
    ¬ BeginsLayout (c :: (cs ++ rest)) := by
  have hother (hblank : isLayout c = false) (hslash : c ≠ '/') :
      ¬ BeginsLayout (c :: (cs ++ rest)) := by
    refine not_beginsLayout_cons (Bool.eq_false_iff.mp hblank) ?_
    rw [Bool.and_eq_true, beq_iff_eq]
    exact fun hboth => hslash hboth.1
  have hclass {p : Char → Bool} (hp : ∀ c, isLayout c = true → p c = false) (hslash : p '/' = false)
      (hc : p c = true) : ¬ BeginsLayout (c :: (cs ++ rest)) := by
    refine hother (Bool.eq_false_iff.mpr fun hblank => ?_) ?_
    · exact Bool.eq_false_iff.mp (hp c hblank) hc
    · rintro rfl
      exact Bool.eq_false_iff.mp hslash hc
  generalize htext : c :: cs = text at h
  cases h with
  | whole _ hd =>
    subst htext
    exact hclass isDigit_of_isLayout rfl (hd c List.mem_cons_self)
  | @fraction digits decimals hne hd _ _ =>
    obtain ⟨d, ds, rfl⟩ := List.exists_cons_of_ne_nil hne
    obtain ⟨rfl, -⟩ := List.cons.inj htext
    exact hclass isDigit_of_isLayout rfl (hd c List.mem_cons_self)
  | string _ =>
    obtain ⟨rfl, rfl⟩ := List.cons.inj htext
    exact hother rfl (by decide)
  | word hc _ =>
    obtain ⟨rfl, rfl⟩ := List.cons.inj htext
    exact hclass beginsWord_of_isLayout (by decide +kernel) hc
  | withEquals hc | alone hc =>
    obtain ⟨rfl, -⟩ := List.cons.inj htext
    exact hother (isLayout_of_paired hc).1 (isLayout_of_paired hc).2
  | single hc =>
    obtain ⟨rfl, rfl⟩ := List.cons.inj htext
    refine not_beginsLayout_cons (Bool.eq_false_iff.mp (isLayout_of_single hc)) ?_
    rw [Bool.and_eq_true, beq_iff_eq, beq_iff_eq]
    exact fun hboth => hrest.head?_ne rfl hboth.2

/-! ### Texts of words -/

theorem skipLayout_blanks {blanks : List Char} (hblanks : ∀ b ∈ blanks, isLayout b = true)
    {cs : List Char} (hcs : ¬ BeginsLayout cs) (p : Position) :
    skipLayout false p (blanks ++ cs) = (p.after blanks, cs) := by
  induction blanks generalizing p with
  | nil => exact skipLayout_eq_self hcs
  | cons b bs ih =>
    obtain ⟨hb, hbs⟩ := List.forall_mem_cons.mp hblanks
    rw [List.cons_append, skipLayout_cons, if_neg Bool.false_ne_true, if_pos hb]
    exact ih hbs (p.next b)

variable {file : String} {p : Position} {blanks : List Char}

theorem scanFrom_blanks (file : String) (p : Position) (hblanks : ∀ b ∈ blanks, isLayout b = true) :
    scanFrom file p blanks =
      ⟨[⟨.endOfInput, "", ⟨file, p.after blanks, p.after blanks⟩⟩], none⟩ := by
  have hskip := skipLayout_blanks hblanks not_beginsLayout_nil p
  rw [List.append_nil] at hskip
  rw [scanFrom_eq, hskip]

theorem scanFrom_word (file : String) (p : Position) (hblanks : ∀ b ∈ blanks, isLayout b = true) {t : Token}
    (h : IsLexeme t.kind t.lexeme.toList) (hrest : Parted rest) :
    ∃ u, t.SameWord u ∧ scanFrom file p (blanks ++ (t.lexeme.toList ++ rest)) =
      ⟨u :: (scanFrom file (p.after (blanks ++ t.lexeme.toList)) rest).tokens,
        (scanFrom file (p.after (blanks ++ t.lexeme.toList)) rest).fault⟩ := by
  obtain ⟨kind, word, span⟩ := t
  dsimp only at h ⊢
  obtain ⟨c, cs, htext⟩ := List.exists_cons_of_ne_nil h.ne_nil
  obtain rfl : String.ofList (c :: cs) = word := by rw [← htext, String.ofList_toList]
  rw [htext] at h ⊢
  have hfirst : ReadsFirst file p
      ⟨kind, String.ofList (c :: cs), ⟨file, p.after blanks, p.after (blanks ++ c :: cs)⟩⟩
      blanks (c :: cs) rest :=
    ⟨skipLayout_blanks hblanks (h.not_beginsLayout hrest) p,
      ⟨c, cs ++ rest, rfl, lexeme_parted h hrest⟩, rfl⟩
  refine ⟨_, ?_, hfirst.scan⟩
  exact .of_lexeme rfl rfl

/-- A text of words is read as these words, with the end of the text behind them. -/
theorem scanFrom_spaced (file : String) (p : Position) {words : List Token} {text : List Char}
    (hwords : ∀ t ∈ words, IsLexeme t.kind t.lexeme.toList)
    (h : Spaced (words.map fun t => t.lexeme.toList) text)
    (hblanks : ∀ b ∈ blanks, isLayout b = true) :
    ∃ body span, List.Forall₂ Token.SameWord words body ∧
      scanFrom file p (blanks ++ text) = ⟨body ++ [⟨.endOfInput, "", span⟩], none⟩ := by
  induction words generalizing text p blanks with
  | nil =>
    cases h
    exact ⟨[], _, .nil, by rw [List.append_nil, scanFrom_blanks file p hblanks, List.nil_append]⟩
  | cons t words ih =>
    obtain ⟨ht, hwords⟩ := List.forall_mem_cons.mp hwords
    cases words with
    | nil =>
      cases h
      obtain ⟨u, hu, hscan⟩ := scanFrom_word file p hblanks ht parted_nil
      rw [scanFrom_blanks file _ (List.forall_mem_nil _), List.append_nil] at hscan
      exact ⟨[u], _, .cons hu .nil, hscan⟩
    | cons t' words =>
      cases h with
      | @more _ _ spacing rest _ hspacing hspaced =>
        obtain ⟨u, hu, hscan⟩ :=
          scanFrom_word file p hblanks ht (hspacing.parted rest)
        obtain ⟨body, span, hbody, htail⟩ := ih _ hwords hspaced hspacing.isLayout
        rw [htail] at hscan
        exact ⟨u :: body, span, .cons hu hbody, hscan⟩

/-! ### Sources written anew -/

/-- The tokens of a source without the end. -/
def words (tokens : List Token) : List Token := tokens.filter fun t => !t.isEnd

theorem words_of_inner {body : List Token} {last : Token} (hbody : ∀ t ∈ body, t.kind ≠ .endOfInput)
    (hlast : last.kind = .endOfInput) : words (body ++ [last]) = body := by
  have hinner : ∀ t ∈ body, (!t.isEnd) = true := by
    intro t ht
    rw [Token.isEnd, beq_false_of_ne (hbody t ht)]
    rfl
  rw [words, List.filter_append, List.filter_eq_self.mpr hinner, List.filter_cons, Token.isEnd, hlast]
  exact List.append_nil body

/-- The words of a source can be written with any spacing between them: the text is read as the same
tokens, in other places. -/
theorem tokenize_respaced {source text : String} {tokens : List Token}
    (h : tokenize file source = .ok tokens)
    (htext : Spaced ((words tokens).map fun t => t.lexeme.toList) text.toList) (file' : String) :
    ∃ tokens', tokenize file' text = .ok tokens' ∧ List.Forall₂ Token.SameWord tokens tokens' := by
  obtain ⟨body, reached, last, rfl, hbody, hlast⟩ := tiles_of_tokenize h
  rw [words_of_inner (fun t ht => (hbody.readAt t ht).inner) hlast.kind] at htext
  obtain ⟨body', span, hsame, hscan⟩ := scanFrom_spaced file' .origin
    (fun t ht => (hbody.readAt t ht).formed) htext (List.forall_mem_nil _)
  have hall : scan file' text = ⟨body' ++ [⟨.endOfInput, "", span⟩], none⟩ := hscan
  refine ⟨body' ++ [⟨.endOfInput, "", span⟩], ?_, ?_⟩
  · rw [tokenize_of_no_fault (by rw [hall]), hall]
  · exact List.rel_append hsame (.cons (.of_lexeme hlast.kind hlast.lexeme) .nil)

/-- Tokens that are one, or a comment, without anything between them. -/
theorem tokenize_respaced_slashes :
    ∃ tokens, tokenize "" "1.//a\n5 \"//\"/" = .ok tokens ∧
      Spaced ((words tokens).map fun t => t.lexeme.toList) "1 .\t5\n\"//\" /".toList ∧
      ∃ tokens', tokenize "" "1 .\t5\n\"//\" /" = .ok tokens' ∧
        List.Forall₂ Token.SameWord tokens tokens' := by
  have ht : tokenize "" "1.//a\n5 \"//\"/" = .ok (scan "" "1.//a\n5 \"//\"/").tokens :=
    tokenize_of_no_fault (by decide +kernel)
  have hwords : (words (scan "" "1.//a\n5 \"//\"/").tokens).map (fun t => t.lexeme.toList) =
      [['1'], ['.'], ['5'], ['"', '/', '/', '"'], ['/']] := by
    decide +kernel
  have hspacing {c : Char} (h : c = ' ' ∨ c = '\t' ∨ c = '\n') : IsSpacing [c] :=
    ⟨List.cons_ne_nil c [], List.forall_mem_singleton.mpr h⟩
  have hspaced : Spaced [['1'], ['.'], ['5'], ['"', '/', '/', '"'], ['/']]
      "1 .\t5\n\"//\" /".toList :=
    .more (hspacing (Or.inl rfl)) <| .more (hspacing (Or.inr (Or.inl rfl))) <|
      .more (hspacing (Or.inr (Or.inr rfl))) <| .more (hspacing (Or.inl rfl)) <| .one _
  rw [← hwords] at hspaced
  exact ⟨_, ht, hspaced, tokenize_respaced ht hspaced ""⟩

end Lexer

end Lox
