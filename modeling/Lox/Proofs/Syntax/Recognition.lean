import Lox.Proofs.Syntax.StatementCompleteness
import Lox.Syntax.Parser.Program
import Lox.Token.Lexer

/-!
# Recognition

The tokens of a source end with the end of the input. A parse of them that is not cut off by its depth
accepts exactly the programs of the grammar and gives the one tree they stand for.
-/

namespace Lox

/-! ### Tokens of a source -/

theorem TokenKind.ofWord_eq_or_mem (word : String) :
    ofWord word = .identifier ∨ (word, ofWord word) ∈ keywords := by
  rw [ofWord]
  cases h : keywords.lookup word with
  | none => exact Or.inl rfl
  | some kind =>
    obtain ⟨before, behind, heq, -⟩ := List.lookup_eq_some_iff.1 h
    rw [heq]
    exact Or.inr (List.mem_append_right before List.mem_cons_self)

namespace Lexer

open Lox.Parser (Ended)

theorem ofWord_ne_end (word : String) : TokenKind.ofWord word ≠ .endOfInput := by
  rcases TokenKind.ofWord_eq_or_mem word with h | h
  · rw [h]
    decide
  · have hall : ∀ entry ∈ TokenKind.keywords, entry.2 ≠ .endOfInput := by decide
    exact hall _ h

theorem paired?_ne_end {c : Char} {withEquals alone : TokenKind}
    (h : paired? c = some (withEquals, alone)) : withEquals ≠ .endOfInput ∧ alone ≠ .endOfInput := by
  unfold paired? at h
  split at h <;> cases h <;> decide

theorem single?_ne_end {c : Char} {kind : TokenKind} (h : single? c = some kind) :
    kind ≠ .endOfInput := by
  unfold single? at h
  split at h <;> cases h <;> decide

theorem lexeme_kind_ne_end {c : Char} {cs text : List Char} {kind : TokenKind}
    (h : lexeme c cs = .token kind text) : kind ≠ .endOfInput := by
  unfold lexeme at h
  dsimp only at h
  repeat' split at h
  all_goals
    first
    | cases h
      first
      | exact ofWord_ne_end _
      | exact (paired?_ne_end ‹_›).1
      | exact (paired?_ne_end ‹_›).2
      | exact single?_ne_end ‹_›
      | decide
    | cases h

theorem ended_scanFrom (file : String) (p : Position) (cs : List Char)
    (h : (scanFrom file p cs).fault = none) : Ended (scanFrom file p cs).tokens := by
  fun_induction scanFrom file p cs with
  | case1 p cs q hs => exact ⟨[], _, rfl, rfl, fun _ ht => absurd ht List.not_mem_nil⟩
  | case2 p cs q d ds hs kind text hl r tail ih =>
    obtain ⟨body, last, hbody, hlast, hm⟩ := ih h
    refine ⟨⟨kind, String.ofList text, ⟨file, q, r⟩⟩ :: body, last, ?_, hlast,
      List.forall_mem_cons.2 ⟨?_, hm⟩⟩
    · exact congrArg (List.cons _) hbody
    · exact Parser.isEnd_eq_false rfl (lexeme_kind_ne_end hl)
  | case3 p cs q d ds hs error text hl => cases h

theorem tokenize_of_no_fault {file source : String} (h : (scan file source).fault = none) :
    tokenize file source = .ok (scan file source).tokens := by
  unfold tokenize
  simp only [h]

theorem ended_tokenize {file source : String} {tokens : List Token}
    (h : tokenize file source = .ok tokens) : Ended tokens := by
  unfold tokenize at h
  dsimp only at h
  split at h
  · rename_i hf
    injection h with h
    exact h ▸ ended_scanFrom file .origin source.toList hf
  · cases h

end Lexer

/-! ### Programs -/

namespace Parser

open Grammar

variable {limit : Nat}

theorem faults_declarations (n : Nat) (s : State) : s.faults <:+ (declarations limit n s).2.faults := by
  induction n generalizing s with
  | zero => exact List.suffix_rfl
  | succ n ih =>
    have hon := (reads_statement_declaration limit).2.onward s
    rw [declarations]
    split
    · exact List.suffix_rfl
    · split
      · rename_i hr
        rw [hr] at hon
        exact hon.faults.trans (List.suffix_cons _ _)
      · rename_i hr
        rw [hr] at hon
        split
        · exact hon.faults
        · exact hon.faults.trans (ih _)

theorem declarations_sound {n : Nat} {s : State} (hs : Ended s.tokens) (hn : s.remaining ≤ n)
    (h0 : s.faults = []) (hf : (declarations limit n s).2.faults = []) :
    ∃ ts, Moves s ts (declarations limit n s).2 ∧ IsItems ts (declarations limit n s).1 ∧
      (declarations limit n s).2.current.isEnd = true := by
  induction n generalizing s with
  | zero => exact absurd hn (Nat.not_succ_le_zero _)
  | succ n ih =>
    have hread := (reads_statement_declaration limit).2
    rw [declarations] at hf ⊢
    split at hf
    · rename_i hend
      rw [if_pos hend]
      exact ⟨[], .refl s, isItems_nil, hend⟩
    · rename_i hend
      rw [if_neg hend]
      split at hf
      · cases hf
      · rename_i item m hr
        -- faults are only added, so there is none here if there is none in the end
        have hmf : m.faults = [] := by
          split at hf
          · exact hf
          · have hsuffix : m.faults <:+ (declarations limit n m).2.faults := faults_declarations n m
            rw [show (declarations limit n m).2.faults = [] from hf] at hsuffix
            exact List.suffix_nil.1 hsuffix
        obtain ⟨ts, hts, stmt, rfl, hitem⟩ := hread.spec hs hr (hmf.trans h0.symm)
        have hlimit : ¬ errorLimit ≤ m.faults.length := by
          rw [hmf]
          decide
        rw [if_neg hlimit] at hf
        simp only [if_neg hlimit]
        obtain ⟨t, rest, rfl, -⟩ := hitem.begins
        have hlen := hts.remaining
        rw [List.length_cons] at hlen
        obtain ⟨us, hus, hitems, hlast⟩ := ih (hts.ended hs) (by omega) hmf hf
        exact ⟨t :: rest ++ us, hts.trans hus, hitems.cons hitem, hlast⟩

/-- The parse has been cut off by its depth. -/
def CutOff (faults : List SyntaxFault) : Prop := ∃ f ∈ faults, f.error = .nestingTooDeep

/-- What comes of pieces that are read up to a state: what they keep, and notes on their segments at
fault. Or the parse is cut off, or it stops because there are too many faults. -/
def Mends (pieces : List Piece) (s : State) (outcome : List RawStmt × State) : Prop :=
  (∃ faults, Blames (pieces.flatMap Piece.bads) faults.reverse ∧
      outcome = (pieces.filterMap Piece.kept, s.plus faults)) ∨
    CutOff outcome.2.faults ∨
    (errorLimit ≤ outcome.2.faults.length ∧ pieces.flatMap Piece.bads ≠ [])

theorem Mends.cons {p : Piece} {pieces : List Piece} {s : State} {outcome : List RawStmt × State}
    {faults : List SyntaxFault} (hp : Blames p.bads faults.reverse)
    (h : Mends pieces (s.plus faults) outcome) :
    Mends (p :: pieces) s (p.kept.toList ++ outcome.1, outcome.2) := by
  rcases h with ⟨more, hmore, rfl⟩ | hcut | ⟨hfull, hne⟩
  · refine Or.inl ⟨more ++ faults, ?_, ?_⟩
    · rw [List.reverse_append, List.flatMap_cons]
      exact hp.append hmore
    · rw [State.plus_plus, List.filterMap_cons]
      cases p.kept <;> rfl
  · exact Or.inr (Or.inl hcut)
  · exact Or.inr (Or.inr ⟨hfull, fun hnil => hne (List.append_eq_nil_iff.mp hnil).2⟩)

/-- Where a piece fills up the faults, it has segments at fault itself: there was room in front of it. -/
theorem Blames.ne_nil_of_full {bads : List (List Token)} {faults : List SyntaxFault} {s : State}
    (h : Blames bads faults.reverse) (hs : s.faults.length < errorLimit)
    (hfull : errorLimit ≤ (s.plus faults).faults.length) : bads ≠ [] := by
  rintro rfl
  obtain rfl := List.reverse_eq_nil_iff.mp h.eq_nil
  rw [State.plus_nil] at hfull
  omega

theorem declarations_piece {p : Piece} {pieces : List Piece} (hb : BeginsWith Opens p.tokens)
    (hp : Mended limit .item p) {n : Nat} {s m s' : State} (hm : Moves s p.tokens m)
    (hnext : m.current.kind ≠ .kwElse) (hs : s.faults.length < errorLimit)
    (hrest : ∀ faults, (m.plus faults).faults.length < errorLimit →
      Mends pieces (s'.plus faults) (declarations limit n (m.plus faults))) :
    Mends (p :: pieces) s' (declarations limit (n + 1) s) := by
  obtain ⟨t, us, ht, hk⟩ := hb
  have hfirst : ¬ s.current.isEnd = true := by
    rw [ht] at hm
    rw [hm.current_eq, Bool.not_eq_true]
    exact isEnd_eq_false rfl fun he => hk.2 (Or.inr he)
  rw [declarations, if_neg hfirst]
  rcases hp limit (Nat.le_refl _) hm hnext with ⟨faults, hfaults, hr⟩ | ⟨m', hr⟩
  · rw [hr]
    dsimp only
    split
    · rename_i hlimit
      have hne := hfaults.ne_nil_of_full (hm.faults.symm ▸ hs) hlimit
      exact Or.inr (Or.inr ⟨hlimit, fun hnil => hne (List.append_eq_nil_iff.mp hnil).1⟩)
    · rename_i hlimit
      exact (hrest faults (Nat.lt_of_not_le hlimit)).cons hfaults
  · rw [hr]
    exact Or.inr (Or.inl ⟨_, List.mem_cons_self .., rfl⟩)

theorem declarations_mended {pieces : List Piece} (hb : ∀ p ∈ pieces, BeginsWith Opens p.tokens)
    (hc : ∀ p ∈ pieces, Mended limit .item p) {n : Nat} {s s' : State} (hn : s.remaining ≤ n)
    (h : Moves s (pieces.flatMap Piece.tokens) s') (hs : s.faults.length < errorLimit)
    (hend : s'.current.kind = .endOfInput) : Mends pieces s' (declarations limit n s) := by
  induction pieces generalizing n s s' with
  | nil =>
    obtain ⟨k, rfl⟩ := State.exists_succ_of_remaining_le hn
    obtain rfl := moves_nil_iff.1 h
    have hlast : s'.current.isEnd = true := by
      rw [Token.isEnd, hend]
      rfl
    rw [declarations, if_pos hlast]
    exact Or.inl ⟨[], .nil, rfl⟩
  | cons p pieces ih =>
    obtain ⟨k, rfl⟩ := State.exists_succ_of_remaining_le hn
    rw [List.flatMap_cons] at h
    rw [List.forall_mem_cons] at hb hc
    obtain ⟨m, hm, hrest⟩ := moves_append_iff.1 h
    have hbound : m.remaining ≤ k := by
      obtain ⟨t, us, ht, -⟩ := hb.1
      have hlen := hm.remaining
      rw [ht, List.length_cons] at hlen
      omega
    have hnext : m.current.kind ≠ .kwElse := by
      refine next_not_else hb.2 hrest ?_
      rw [hend]
      decide
    exact declarations_piece hb.1 hc.1 hm hnext hs fun faults hroom =>
      ih hb.2 hc.2 hbound (hrest.plus faults) hroom hend

theorem declarations_complete {items : List (List Token × RawStmt)}
    (hi : ∀ i ∈ items, IsStmt .item i.1 i.2) {n : Nat} {s s' : State} (hn : s.remaining ≤ n)
    (h : Moves s (items.map Prod.fst).flatten s') (h0 : s.faults = [])
    (hend : s'.current.kind = .endOfInput) :
    declarations limit n s = (items.map Prod.snd, s') ∨ CutOff (declarations limit n s).2.faults := by
  have hroom : s.faults.length < errorLimit := by
    rw [h0]
    decide
  rw [← flatMap_tokens_clean] at h
  have hmended : ∀ p ∈ items.map Piece.clean, Mended limit .item p :=
    List.forall_mem_map.mpr fun i hmem => mended_of_isStmt (hi i hmem)
  have hall := declarations_mended (begins_clean hi) hmended hn h hroom hend
  rw [Mends, flatMap_bads_clean, filterMap_kept_clean] at hall
  rcases hall with ⟨fs, hfs, hd⟩ | hcut | ⟨-, hne⟩
  · obtain rfl := List.reverse_eq_nil_iff.mp hfs.eq_nil
    exact Or.inl hd
  · exact Or.inr hcut
  · exact absurd rfl hne

theorem parse_eq_ok_iff_faults {tokens : List Token} {p : Program Unit} :
    parse limit tokens = .ok p ↔
      (parseProgram limit tokens).faults = [] ∧ (parseProgram limit tokens).program = p := by
  unfold parse
  dsimp only
  split
  · rename_i h
    rw [List.isEmpty_iff] at h
    simp [h]
  · rename_i h
    rw [List.isEmpty_iff] at h
    simp [h]

theorem Ended.ahead_eq_nil {s : State} (h : Ended s.tokens) (hs : s.current.isEnd = true) :
    s.ahead = [] := by
  obtain ⟨body, last, hb, -, hm⟩ := h
  cases body with
  | nil => exact (List.cons.inj hb).2
  | cons t body =>
    have ht := hm t (List.mem_cons_self ..)
    rw [← (List.cons.inj hb).1, hs] at ht
    cases ht

def initialState (t : Token) (ts : List Token) : State := ⟨t, t, ts, []⟩

theorem parseProgram_cons (t : Token) (ts : List Token) :
    parseProgram limit (t :: ts) =
      let outcome := declarations limit (initialState t ts).remaining (initialState t ts)
      ⟨⟨t.span.join outcome.2.previous.span, outcome.1⟩, outcome.2.faults.reverse⟩ := rfl

theorem initialState_span {t : Token} {ts : List Token} {s : State}
    {items : List (List Token × RawStmt)} (hi : ∀ i ∈ items, IsStmt .item i.1 i.2)
    (h : Moves (initialState t ts) (items.map Prod.fst).flatten s) :
    t.span.join s.previous.span =
      if items = [] then s.current.span else spanOf (items.map Prod.fst).flatten := by
  cases items with
  | nil =>
    obtain rfl := moves_nil_iff.1 h
    rw [if_pos rfl]
    rfl
  | cons i items =>
    obtain ⟨u, us, hu, -⟩ := (hi i (List.mem_cons_self ..)).begins
    rw [if_neg (List.cons_ne_nil _ _)]
    rw [List.map_cons, List.flatten_cons, hu, List.cons_append] at h ⊢
    obtain rfl := h.current_eq
    exact h.join_previous

theorem isProgram_of_parse {tokens : List Token} (hs : Ended tokens) {p : Program Unit}
    (h : parse limit tokens = .ok p) : IsProgram tokens p := by
  obtain ⟨hf, rfl⟩ := parse_eq_ok_iff_faults.1 h
  cases tokens with
  | nil =>
    obtain ⟨body, last, hbody, -⟩ := hs
    simp at hbody
  | cons t ts =>
    rw [parseProgram_cons] at hf ⊢
    obtain ⟨us, hus, ⟨items, rfl, hsnd, hi⟩, hend⟩ :=
      declarations_sound (s := initialState t ts) hs (Nat.le_refl _) rfl (List.reverse_eq_nil_iff.1 hf)
    have hahead := (hus.ended hs).ahead_eq_nil hend
    have htokens : t :: ts = _ := hus.tokens
    rw [State.tokens, hahead] at htokens
    rw [htokens]
    dsimp only
    rw [initialState_span hi hus, hsnd]
    exact .intro hi (eq_of_beq hend)

/-- Every program of the grammar is accepted with its tree, unless the parse is cut off. -/
theorem parse_of_isProgram {tokens : List Token} {p : Program Unit} (h : IsProgram tokens p) :
    parse limit tokens = .ok p ∨ CutOff (parseProgram limit tokens).faults := by
  obtain ⟨hi, hlast⟩ := h
  rename_i items last
  obtain ⟨t, ts, ht⟩ : ∃ t ts, (items.map Prod.fst).flatten ++ [last] = t :: ts :=
    List.exists_cons_of_ne_nil (append_singleton_ne_nil _ _)
  let s' : State := ⟨(items.map Prod.fst).flatten.getLastD t, last, [], []⟩
  have hm : Moves (initialState t ts) (items.map Prod.fst).flatten s' := ⟨ht.symm, rfl, rfl⟩
  rw [ht, parse_eq_ok_iff_faults, parseProgram_cons]
  rcases declarations_complete hi (Nat.le_refl _) hm rfl hlast with hd | hcut
  · rw [hd]
    refine Or.inl ⟨rfl, ?_⟩
    exact congrArg (Program.mk · _) (initialState_span hi hm)
  · obtain ⟨f, hf, he⟩ := hcut
    exact Or.inr ⟨f, List.mem_reverse.2 hf, he⟩

/-- A parse of the tokens of a source that is not cut off by its depth accepts them exactly if they form
a program of the grammar, and gives the one tree that they form. -/
theorem parse_eq_ok_iff {file source : String} {tokens : List Token}
    (h : Lexer.tokenize file source = .ok tokens) (hd : ¬ CutOff (parseProgram limit tokens).faults) :
    (∀ p, parse limit tokens = .ok p ↔ IsProgram tokens p) ∧
      ∀ p q, IsProgram tokens p → IsProgram tokens q → p = q := by
  have hiff (p : Program Unit) : parse limit tokens = .ok p ↔ IsProgram tokens p :=
    ⟨isProgram_of_parse (Lexer.ended_tokenize h),
      fun hp => (parse_of_isProgram hp).resolve_right hd⟩
  refine ⟨hiff, fun p q hp hq => ?_⟩
  have heq := ((hiff p).2 hp).symm.trans ((hiff q).2 hq)
  injection heq

theorem parse_eq_ok_iff_conditional :
    let tokens := (Lexer.scan "" "if (a) b = c; else f(x, y);").tokens
    Lexer.tokenize "" "if (a) b = c; else f(x, y);" = .ok tokens ∧
      ¬ CutOff (parseProgram 500 tokens).faults ∧
      (∀ p, parse 500 tokens = .ok p ↔ IsProgram tokens p) ∧
      ∀ p q, IsProgram tokens p → IsProgram tokens q → p = q := by
  have hscan : (Lexer.scan "" "if (a) b = c; else f(x, y);").fault = none := by decide +kernel
  have htokens := Lexer.tokenize_of_no_fault hscan
  have hfaults : (parseProgram 500 (Lexer.scan "" "if (a) b = c; else f(x, y);").tokens).faults = [] := by
    decide +kernel
  have hcut : ¬ CutOff (parseProgram 500 (Lexer.scan "" "if (a) b = c; else f(x, y);").tokens).faults := by
    rw [hfaults]
    intro h
    obtain ⟨f, hf, -⟩ := h
    cases hf
  exact ⟨htokens, hcut, parse_eq_ok_iff htokens hcut⟩

end Parser

end Lox
