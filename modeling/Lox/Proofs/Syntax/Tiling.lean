import Lox.Proofs.Syntax.Lexemes
import Mathlib.Data.List.Induction

/-!
# Tokens tile the text

The tokens of a source are stretches of its text, in order, with nothing but layout between them, and each
is as long as it can be. Their places say where they are: the line counts the line feeds in front, and the
column the characters behind the last of these. If reading fails, this holds of the tokens in front of the
fault, which is at the first place behind them where no token can be read.
-/

namespace Lox

/-! ### Places -/

/-- The place has the line and the column of its offset. -/
structure Position.IsIn (p : Position) (source : List Char) : Prop where
  inside : p.offset ≤ source.length
  line : p.line = 1 + (source.take p.offset).count '\n'
  column : p.column = 1 + ((source.take p.offset).reverse.takeWhile (· != '\n')).length

theorem Position.after_origin (before : List Char) :
    Position.origin.after before =
      ⟨1 + before.count '\n', 1 + (before.reverse.takeWhile (· != '\n')).length, before.length⟩ := by
  induction before using List.reverseRecOn with
  | nil => rfl
  | append_singleton before c ih =>
    rw [after_append, ih, after_cons, after_nil, next]
    by_cases hc : c = '\n'
    · rw [if_pos hc, hc]
      simp [Nat.add_assoc]
    · rw [if_neg hc]
      simp [hc, Nat.add_assoc]

theorem Position.offset_after_origin (before : List Char) :
    (Position.origin.after before).offset = before.length := by
  rw [after_origin]

theorem Position.isIn_after_origin (before behind : List Char) :
    (Position.origin.after before).IsIn (before ++ behind) := by
  rw [after_origin]
  constructor
  · simp
  · rw [List.take_left]
  · rw [List.take_left]

namespace Lexer

/-! ### Layout -/

/-- A stretch of blanks and comments in front of a rest. A comment goes on to the end of its line, or of
the text. -/
inductive Layout : List Char → List Char → Prop where
  | nil (rest : List Char) : Layout [] rest
  | blank {c : Char} {cs rest : List Char} : isLayout c = true → Layout cs rest → Layout (c :: cs) rest
  | comment {body cs rest : List Char} :
    '\n' ∉ body → Layout cs rest → Layout ('/' :: '/' :: (body ++ '\n' :: cs)) rest
  | lastComment {body : List Char} : '\n' ∉ body → Layout ('/' :: '/' :: body) []

/-- A text begins with layout. -/
def BeginsLayout (cs : List Char) : Prop :=
  (∃ c rest, cs = c :: rest ∧ isLayout c = true) ∨ ∃ rest, cs = '/' :: '/' :: rest

theorem layout_comment_iff {cs rest : List Char} :
    Layout ('/' :: '/' :: cs) rest ↔
      (∃ body more, '\n' ∉ body ∧ cs = body ++ '\n' :: more ∧ Layout more rest) ∨
        '\n' ∉ cs ∧ rest = [] := by
  constructor
  · intro h
    generalize hcs : '/' :: '/' :: cs = text at h
    cases h with
    | nil => cases hcs
    | blank hc =>
      obtain ⟨rfl, -⟩ := List.cons.inj hcs
      cases hc
    | comment hbody h =>
      obtain ⟨-, hcs⟩ := List.cons.inj hcs
      exact Or.inl ⟨_, _, hbody, (List.cons.inj hcs).2, h⟩
    | lastComment hbody =>
      obtain ⟨-, hcs⟩ := List.cons.inj hcs
      obtain ⟨-, rfl⟩ := List.cons.inj hcs
      exact Or.inr ⟨hbody, rfl⟩
  · rintro (⟨body, more, hbody, rfl, h⟩ | ⟨hbody, rfl⟩)
    · exact .comment hbody h
    · exact .lastComment hbody

theorem layout_comment_cons_iff {c : Char} {cs rest : List Char} (hc : c ≠ '\n') :
    Layout ('/' :: '/' :: c :: cs) rest ↔ Layout ('/' :: '/' :: cs) rest := by
  rw [layout_comment_iff, layout_comment_iff]
  constructor
  · rintro (⟨body, more, hbody, heq, h⟩ | ⟨hbody, rfl⟩)
    · cases body with
      | nil => exact absurd (List.cons.inj heq).1 hc
      | cons d body =>
        have hout : '\n' ∉ body := fun hmem => hbody (List.mem_cons_of_mem d hmem)
        exact Or.inl ⟨body, more, hout, (List.cons.inj heq).2, h⟩
    · exact Or.inr ⟨fun hmem => hbody (List.mem_cons_of_mem c hmem), rfl⟩
  · rintro (⟨body, more, hbody, rfl, h⟩ | ⟨hbody, rfl⟩)
    · exact Or.inl ⟨c :: body, more, List.not_mem_cons_of_ne_of_not_mem hc.symm hbody, rfl, h⟩
    · exact Or.inr ⟨List.not_mem_cons_of_ne_of_not_mem hc.symm hbody, rfl⟩

theorem layout_of_slash {skipped rest : List Char} (hhead : (skipped ++ rest).head? = some '/')
    (h : Layout ('/' :: '/' :: skipped) rest) : Layout ('/' :: skipped) rest := by
  cases skipped with
  | nil =>
    rcases layout_comment_iff.mp h with ⟨body, more, -, heq, -⟩ | ⟨-, rfl⟩
    · cases body <;> cases heq
    · cases hhead
  | cons c skipped =>
    obtain rfl : c = '/' := by simpa using hhead
    exact (layout_comment_cons_iff (by decide)).mp h

theorem not_beginsLayout_nil : ¬ BeginsLayout [] := by
  rintro (⟨c, rest, heq, -⟩ | ⟨rest, heq⟩) <;> cases heq

theorem not_beginsLayout_cons {c : Char} {cs : List Char} (hblank : ¬ isLayout c = true)
    (hslashes : ¬ (c == '/' && cs.head? == some '/') = true) : ¬ BeginsLayout (c :: cs) := by
  rintro (⟨d, rest, heq, hd⟩ | ⟨rest, heq⟩)
  · obtain ⟨rfl, -⟩ := List.cons.inj heq
    exact hblank hd
  · obtain ⟨rfl, rfl⟩ := List.cons.inj heq
    exact hslashes rfl

/-- What is skipped is layout, all that is there; within a comment its two slashes are to be added. -/
theorem layout_of_skipLayout_within {inComment : Bool} {p q : Position} {cs rest : List Char}
    (h : skipLayout inComment p cs = (q, rest)) :
    ∃ skipped, cs = skipped ++ rest ∧ q = p.after skipped ∧ ¬ BeginsLayout rest ∧
      Layout (bif inComment then '/' :: '/' :: skipped else skipped) rest := by
  induction cs generalizing inComment p with
  | nil =>
    cases h
    refine ⟨[], rfl, rfl, not_beginsLayout_nil, ?_⟩
    cases inComment
    · exact .nil []
    · exact .lastComment List.not_mem_nil
  | cons c cs ih =>
    rw [skipLayout_cons] at h
    split at h
    · rename_i hcomment
      subst hcomment
      obtain ⟨skipped, rfl, rfl, hends, hlayout⟩ := ih h
      refine ⟨c :: skipped, rfl, rfl, hends, ?_⟩
      -- a line feed ends the comment, any other character is part of it
      by_cases hc : c = '\n'
      · subst hc
        exact @Layout.comment [] _ _ List.not_mem_nil hlayout
      · have hin : (c != '\n') = true := bne_iff_ne.mpr hc
        rw [hin] at hlayout
        exact (layout_comment_cons_iff hc).mpr hlayout
    · rename_i hcomment
      have hout : inComment = false := Bool.eq_false_iff.mpr hcomment
      subst hout
      split at h
      · rename_i hblank
        obtain ⟨skipped, rfl, rfl, hends, hlayout⟩ := ih h
        exact ⟨c :: skipped, rfl, rfl, hends, .blank hblank hlayout⟩
      · rename_i hblank
        split at h
        · rename_i hslashes
          simp only [Bool.and_eq_true, beq_iff_eq] at hslashes
          obtain ⟨rfl, hhead⟩ := hslashes
          obtain ⟨skipped, rfl, rfl, hends, hlayout⟩ := ih h
          exact ⟨'/' :: skipped, rfl, rfl, hends, layout_of_slash hhead hlayout⟩
        · rename_i hslashes
          cases h
          exact ⟨[], rfl, rfl, not_beginsLayout_cons hblank hslashes, .nil _⟩

theorem layout_of_skipLayout {p q : Position} {cs rest : List Char}
    (h : skipLayout false p cs = (q, rest)) :
    ∃ skipped, cs = skipped ++ rest ∧ q = p.after skipped ∧ ¬ BeginsLayout rest ∧ Layout skipped rest :=
  layout_of_skipLayout_within h

/-! ### Stretches of a text -/

/-- The characters of a text from one offset up to another one. -/
def slice (source : List Char) (first last : Nat) : List Char := (source.drop first).take (last - first)

theorem slice_append (before text behind : List Char) :
    slice (before ++ (text ++ behind)) before.length (before ++ text).length = text := by
  rw [slice, List.drop_left, List.length_append, Nat.add_sub_cancel_left, List.take_left]

theorem drop_append (before text behind : List Char) :
    (before ++ (text ++ behind)).drop (before ++ text).length = behind := by
  rw [← List.append_assoc, List.drop_left]

/-- From one offset up to another one there is layout only, and there it ends. -/
structure Gap (source : List Char) (first last : Nat) : Prop where
  ordered : first ≤ last
  layout : Layout (slice source first last) (source.drop last)
  ends : ¬ BeginsLayout (source.drop last)

theorem gap_append {before skipped behind : List Char} (h : Layout skipped behind)
    (hends : ¬ BeginsLayout behind) :
    Gap (before ++ (skipped ++ behind)) before.length (before ++ skipped).length := by
  constructor
  · simp
  · rwa [slice_append, drop_append]
  · rwa [drop_append]

/-! ### Tiles -/

/-- A token, not the end of the text, that is read at its place. -/
structure ReadAt (file : String) (source : List Char) (t : Token) : Prop where
  inner : t.kind ≠ .endOfInput
  file : t.span.file = file
  first : t.span.first.IsIn source
  last : t.span.last.IsIn source
  ordered : t.span.first.offset < t.span.last.offset
  text : t.lexeme.toList = slice source t.span.first.offset t.span.last.offset
  formed : IsLexeme t.kind t.lexeme.toList
  longest : ∀ kind text, IsLexeme kind text → text <+: source.drop t.span.first.offset →
    text.length ≤ t.lexeme.toList.length

/-- From one offset up to another one, the text is made of the tokens, with layout in front of each. -/
inductive Tiles (file : String) (source : List Char) : Nat → List Token → Nat → Prop where
  | nil (first : Nat) : Tiles file source first [] first
  | cons {first last : Nat} {t : Token} {ts : List Token} :
    Gap source first t.span.first.offset → ReadAt file source t →
      Tiles file source t.span.last.offset ts last → Tiles file source first (t :: ts) last

/-- The token behind all others: it is empty and stands at the end, with layout in front of it. -/
structure EndsAt (file : String) (source : List Char) (reached : Nat) (t : Token) : Prop where
  kind : t.kind = .endOfInput
  lexeme : t.lexeme = ""
  span : t.span = ⟨file, t.span.first, t.span.first⟩
  place : t.span.first.IsIn source
  offset : t.span.first.offset = source.length
  gap : Gap source reached source.length

/-- A fault at the first place behind the layout: no token of the grammar stands there. -/
structure FailsAt (file : String) (source : List Char) (reached : Nat) (span : Span) : Prop where
  file : span.file = file
  first : span.first.IsIn source
  last : span.last.IsIn source
  inside : span.first.offset < source.length
  gap : Gap source reached span.first.offset
  unreadable : ∀ kind text, IsLexeme kind text → ¬ text <+: source.drop span.first.offset

def Scan.Tiles (file : String) (source : List Char) (first : Nat) (s : Scan) : Prop :=
  match s.fault with
  | none => ∃ body last t, s.tokens = body ++ [t] ∧ Lexer.Tiles file source first body last ∧
      EndsAt file source last t
  | some (_, span) => ∃ last, Lexer.Tiles file source first s.tokens last ∧ FailsAt file source last span

theorem Scan.Tiles.cons {file : String} {source : List Char} {first : Nat} {t : Token} {s : Scan}
    (hgap : Gap source first t.span.first.offset) (ht : ReadAt file source t)
    (h : s.Tiles file source t.span.last.offset) :
    (Scan.mk (t :: s.tokens) s.fault).Tiles file source first := by
  obtain ⟨tokens, fault⟩ := s
  cases fault with
  | none =>
    obtain ⟨body, last, e, rfl, hbody, hend⟩ := h
    exact ⟨t :: body, last, e, rfl, .cons hgap ht hbody, hend⟩
  | some f =>
    obtain ⟨last, htokens, hfails⟩ := h
    exact ⟨last, .cons hgap ht htokens, hfails⟩

theorem readAt_append (file : String) {before text behind : List Char} {kind : TokenKind}
    (hkind : kind ≠ .endOfInput) (hne : text ≠ []) (hformed : IsLexeme kind text)
    (hlongest : ∀ kind' text', IsLexeme kind' text' → text' <+: text ++ behind →
      text'.length ≤ text.length) :
    ReadAt file (before ++ (text ++ behind)) ⟨kind, String.ofList text,
      ⟨file, Position.origin.after before, Position.origin.after (before ++ text)⟩⟩ := by
  have htext : (String.ofList text).toList = text := String.toList_ofList
  have hlast := Position.isIn_after_origin (before ++ text) behind
  rw [List.append_assoc] at hlast
  constructor
  case inner => exact hkind
  case file => rfl
  case first => exact Position.isIn_after_origin before _
  case last => exact hlast
  case ordered =>
    have hpos := List.length_pos_iff.mpr hne
    simp only [Position.offset_after_origin, List.length_append]
    omega
  case text => simp only [Position.offset_after_origin, slice_append, htext]
  case formed => exact htext.symm ▸ hformed
  case longest =>
    simp only [Position.offset_after_origin, List.drop_left, htext]
    exact hlongest

theorem gap_of_skipLayout {source before cs rest : List Char} {p q : Position}
    (hsource : source = before ++ cs) (hp : p = Position.origin.after before)
    (h : skipLayout false p cs = (q, rest)) :
    ∃ reached, source = reached ++ rest ∧ q = Position.origin.after reached ∧
      Gap source before.length reached.length := by
  obtain ⟨skipped, rfl, rfl, hends, hlayout⟩ := layout_of_skipLayout h
  refine ⟨before ++ skipped, ?_, ?_, ?_⟩
  · rw [hsource, List.append_assoc]
  · rw [hp, Position.after_append]
  · exact hsource ▸ gap_append hlayout hends

theorem endsAt_reached {file : String} {source : List Char} {first : Nat}
    (h : Gap source first source.length) :
    EndsAt file source first ⟨.endOfInput, "", ⟨file, Position.origin.after source,
      Position.origin.after source⟩⟩ := by
  have hplace := Position.isIn_after_origin source []
  rw [List.append_nil] at hplace
  exact ⟨rfl, rfl, rfl, hplace, Position.offset_after_origin source, h⟩

theorem failsAt_append {file : String} {first : Nat} {reached text behind cs : List Char} {c : Char}
    {error : LexError} (hl : lexeme c cs = .fault error text) (hbehind : text ++ behind = c :: cs)
    (hgap : Gap (reached ++ c :: cs) first reached.length) :
    FailsAt file (reached ++ c :: cs) first
      ⟨file, Position.origin.after reached, (Position.origin.after reached).after text⟩ := by
  have hlast := Position.isIn_after_origin (reached ++ text) behind
  rw [List.append_assoc, hbehind, Position.after_append] at hlast
  constructor
  case file => rfl
  case first => exact Position.isIn_after_origin reached (c :: cs)
  case last => exact hlast
  case inside =>
    rw [Position.offset_after_origin, List.length_append, List.length_cons]
    omega
  case gap => exact (Position.offset_after_origin reached).symm ▸ hgap
  case unreadable =>
    rw [Position.offset_after_origin, List.drop_left]
    exact fun _ _ hformed => not_isLexeme_of_fault hl hformed

theorem scanFrom_tiles (file : String) {source before behind : List Char} {p : Position}
    (hsource : source = before ++ behind) (hp : p = Position.origin.after before) :
    (scanFrom file p behind).Tiles file source before.length := by
  fun_induction scanFrom file p behind generalizing before with
  | case1 p cs q hs =>
    obtain ⟨reached, heq, rfl, hgap⟩ := gap_of_skipLayout hsource hp hs
    rw [List.append_nil] at heq
    subst heq
    exact ⟨[], _, _, rfl, .nil _, endsAt_reached hgap⟩
  | case2 p cs q d ds hs kind text hl r tail =>
    rename_i ih
    obtain ⟨reached, heq, hq, hgap⟩ := gap_of_skipLayout hsource hp hs
    obtain ⟨behind, hbehind⟩ := lexeme_prefix hl
    have hr : r = Position.origin.after (reached ++ text) := by rw [Position.after_append, ← hq]
    have hread : ReadAt file source ⟨kind, String.ofList text, ⟨file, q, r⟩⟩ := by
      rw [hq, hr, heq, ← hbehind]
      refine readAt_append file (lexeme_kind_ne_end hl) (lexeme_token_ne_nil hl)
        (isLexeme_of_lexeme hl) ?_
      rw [hbehind]
      exact fun _ _ hformed => length_le_of_lexeme hl hformed
    have htail : tail.Tiles file source r.offset := by
      have hrest : source = reached ++ text ++ (d :: ds).drop text.length := by
        rw [← hbehind, List.drop_left, heq, ← hbehind, List.append_assoc]
      have h := ih hrest hr
      rwa [← Position.offset_after_origin, ← hr] at h
    refine Scan.Tiles.cons ?_ hread htail
    rwa [hq, Position.offset_after_origin]
  | case3 p cs q d ds hs error text hl =>
    obtain ⟨reached, rfl, rfl, hgap⟩ := gap_of_skipLayout hsource hp hs
    obtain ⟨behind, hbehind⟩ := fault_prefix hl
    exact ⟨before.length, .nil _, failsAt_append hl hbehind hgap⟩

/-- The tokens of a source tile its text. Without a fault the last one, and no other, is the end of the
text. With a fault the tokens in front of it tile the text up to the layout that it follows. -/
theorem tokenize_tiles (file source : String) :
    match tokenize file source with
    | .ok tokens => ∃ body reached t, tokens = body ++ [t] ∧ Tiles file source.toList 0 body reached ∧
        EndsAt file source.toList reached t
    | .error d => ∃ reached, Tiles file source.toList 0 (scan file source).tokens reached ∧
        FailsAt file source.toList reached d.span := by
  have h : (scan file source).Tiles file source.toList 0 :=
    scanFrom_tiles file (List.nil_append source.toList).symm rfl
  unfold Scan.Tiles at h
  cases hfault : (scan file source).fault with
  | none =>
    rw [hfault] at h
    simp only [tokenize, hfault]
    exact h
  | some f =>
    obtain ⟨error, span⟩ := f
    rw [hfault] at h
    simp only [tokenize, hfault]
    exact h

example : (scan "" "1.5//\n.5 1.").tokens.map Token.lexeme = ["1.5", ".", "5", "1", ".", ""] := by
  decide +kernel

end Lexer

end Lox
