import Lox.Proofs.Syntax.Relocation

/-!
# Reading line by line

No token and no comment goes on behind the end of its line. So a text that goes on behind a line feed has
its own tokens, without the end, and then the tokens of what follows; and these are the tokens that what
follows has by itself, in other places.
-/

namespace Lox

/-! ### Moved places -/

def Position.moved (lines offset : Nat) (p : Position) : Position :=
  ⟨p.line + lines, p.column, p.offset + offset⟩

theorem Position.next_moved (lines offset : Nat) (p : Position) (c : Char) :
    (p.moved lines offset).next c = (p.next c).moved lines offset := by
  unfold next moved
  split <;> simp only [Position.mk.injEq, true_and] <;> omega

theorem Position.after_moved (lines offset : Nat) (p : Position) (cs : List Char) :
    (p.moved lines offset).after cs = (p.after cs).moved lines offset := by
  induction cs generalizing p with
  | nil => rfl
  | cons c cs ih => rw [after_cons, after_cons, next_moved, ih]

/-- The place in another source that so many lines and characters stand in front of. -/
def Span.moved (file : String) (lines offset : Nat) (s : Span) : Span :=
  ⟨file, s.first.moved lines offset, s.last.moved lines offset⟩

theorem Span.joins_moved (file : String) (lines offset : Nat) :
    Span.Joins (Span.moved file lines offset) := fun _ _ => rfl

namespace Lexer

/-! ### Layout -/

theorem skipLayout_cons (inComment : Bool) (p : Position) (c : Char) (cs : List Char) :
    skipLayout inComment p (c :: cs) =
      if inComment then skipLayout (c != '\n') (p.next c) cs
      else if isLayout c then skipLayout false (p.next c) cs
      else if c == '/' && cs.head? == some '/' then skipLayout true (p.next c) cs
      else (p, c :: cs) := rfl

theorem skipLayout_at (inComment : Bool) (cs : List Char) :
    ∃ skipped rest, cs = skipped ++ rest ∧
      ∀ p, skipLayout inComment p cs = (p.after skipped, rest) := by
  induction cs generalizing inComment with
  | nil => exact ⟨[], [], rfl, fun _ => rfl⟩
  | cons c cs ih =>
    have hskip (inComment : Bool) : ∃ skipped rest, c :: cs = skipped ++ rest ∧
        ∀ p, skipLayout inComment (Position.next p c) cs = (p.after skipped, rest) := by
      obtain ⟨skipped, rest, rfl, h⟩ := ih inComment
      exact ⟨c :: skipped, rest, rfl, fun p => h (p.next c)⟩
    simp only [skipLayout_cons]
    split
    · exact hskip _
    · split
      · exact hskip _
      · split
        · exact hskip _
        · exact ⟨[], c :: cs, rfl, fun _ => rfl⟩

theorem skipLayout_of_other {inComment : Bool} {p q : Position} {cs rest : List Char}
    (h : skipLayout inComment p cs = (q, rest)) :
    ∃ skipped, cs = skipped ++ rest ∧ ∀ p, skipLayout inComment p cs = (p.after skipped, rest) := by
  obtain ⟨skipped, rest', heq, hall⟩ := skipLayout_at inComment cs
  obtain ⟨-, rfl⟩ := Prod.mk.inj ((hall p).symm.trans h)
  exact ⟨skipped, heq, hall⟩

theorem skipLayout_eq {inComment : Bool} {p q : Position} {cs rest : List Char}
    (h : skipLayout inComment p cs = (q, rest)) :
    ∃ skipped, cs = skipped ++ rest ∧ q = p.after skipped := by
  obtain ⟨skipped, heq, hall⟩ := skipLayout_of_other h
  exact ⟨skipped, heq, (Prod.mk.inj (h.symm.trans (hall p))).1⟩

theorem skipLayout_line (inComment : Bool) (p : Position) (xs ys : List Char) :
    skipLayout inComment p (xs ++ '\n' :: ys) =
      match skipLayout inComment p xs with
      | (q, []) => skipLayout false (q.next '\n') ys
      | (q, d :: ds) => (q, d :: ds ++ '\n' :: ys) := by
  induction xs generalizing inComment p with
  | nil => cases inComment <;> rfl
  | cons c cs ih =>
    have hhead : ((cs ++ '\n' :: ys).head? == some '/') = (cs.head? == some '/') := by
      cases cs <;> rfl
    rw [List.cons_append, skipLayout_cons, skipLayout_cons, hhead]
    split
    · exact ih _ _
    · split
      · exact ih _ _
      · split
        · exact ih _ _
        · rfl

/-! ### Lexemes -/

theorem takeWhile_line {p : Char → Bool} (h : p '\n' = false) (xs ys : List Char) :
    (xs ++ '\n' :: ys).takeWhile p = xs.takeWhile p := by
  induction xs with
  | nil => simp [h]
  | cons c cs ih => simp only [List.cons_append, List.takeWhile_cons, ih]

theorem dropWhile_line {p : Char → Bool} (h : p '\n' = false) (xs ys : List Char) :
    (xs ++ '\n' :: ys).dropWhile p = xs.dropWhile p ++ '\n' :: ys := by
  induction xs with
  | nil => simp [h]
  | cons c cs ih =>
    rw [List.cons_append, List.dropWhile_cons, List.dropWhile_cons, ih]
    split <;> rfl

theorem numberLexeme_line (xs ys : List Char) :
    numberLexeme (xs ++ '\n' :: ys) = numberLexeme xs := by
  have hdigit : Char.isDigit '\n' = false := rfl
  unfold numberLexeme
  rw [takeWhile_line hdigit, dropWhile_line hdigit]
  cases xs.dropWhile Char.isDigit with
  | nil => rfl
  | cons c rest =>
    by_cases hc : c = '.'
    · subst hc
      cases rest with
      | nil => simp [hdigit]
      | cons d rest => simp only [List.cons_append, takeWhile_line hdigit]
    · rw [List.cons_append]
      split
      · rename_i heq
        exact absurd (List.cons.inj heq).1 hc
      · split
        · rename_i heq
          exact absurd (List.cons.inj heq).1 hc
        · rfl

theorem drop_length_takeWhile (p : Char → Bool) (xs : List Char) :
    xs.drop (xs.takeWhile p).length = xs.dropWhile p := by
  induction xs with
  | nil => rfl
  | cons c cs ih =>
    rw [List.takeWhile_cons, List.dropWhile_cons]
    split
    · exact ih
    · rfl

theorem lexeme_line (c : Char) (xs ys : List Char) : lexeme c (xs ++ '\n' :: ys) = lexeme c xs := by
  have hbody : (fun d => d != '"' && d != '\n') '\n' = false := rfl
  have hword : inWord '\n' = false := by decide +kernel
  have hhead : ((xs ++ '\n' :: ys).head? == some '=') = (xs.head? == some '=') := by
    cases xs <;> rfl
  have hnumber := numberLexeme_line (c :: xs) ys
  rw [List.cons_append] at hnumber
  unfold lexeme
  dsimp only
  rw [drop_length_takeWhile, drop_length_takeWhile, takeWhile_line hbody, dropWhile_line hbody,
    takeWhile_line hword, hhead, hnumber]
  congr 1
  cases xs.dropWhile fun d => d != '"' && d != '\n' with
  | nil => rfl
  | cons d ds =>
    rw [List.cons_append]
    by_cases hd : d = '"'
    · subst hd
      rfl
    · split
      · rename_i heq
        exact absurd (List.cons.inj heq).1 hd
      · split
        · rename_i heq
          exact absurd (List.cons.inj heq).1 hd
        · rfl

theorem numberLexeme_prefix (cs : List Char) : numberLexeme cs <+: cs := by
  have hwhole : cs.takeWhile Char.isDigit <+: cs := List.takeWhile_prefix _
  have hsplit : cs.takeWhile Char.isDigit ++ cs.dropWhile Char.isDigit = cs :=
    List.takeWhile_append_dropWhile
  unfold numberLexeme
  dsimp only
  split
  · rename_i d rest heq
    split
    · rw [heq] at hsplit
      have hfraction : '.' :: d :: rest.takeWhile Char.isDigit <+: '.' :: d :: rest := by
        simpa using List.takeWhile_prefix Char.isDigit
      have hprefix := (List.prefix_append_right_inj (cs.takeWhile Char.isDigit)).mpr hfraction
      rwa [hsplit] at hprefix
    · exact hwhole
  · exact hwhole

theorem stringLexeme_prefix {cs rest : List Char}
    (h : cs.dropWhile (fun d => d != '"' && d != '\n') = '"' :: rest) :
    cs.takeWhile (fun d => d != '"' && d != '\n') ++ ['"'] <+: cs := by
  refine ⟨rest, ?_⟩
  rw [List.append_assoc, List.singleton_append, ← h]
  exact List.takeWhile_append_dropWhile

theorem lexeme_prefix {c : Char} {cs text : List Char} {kind : TokenKind}
    (h : lexeme c cs = .token kind text) : text <+: c :: cs := by
  unfold lexeme at h
  dsimp only at h
  rw [drop_length_takeWhile] at h
  split at h
  · split at h
    · rename_i heq
      cases h
      exact List.cons_prefix_cons.mpr ⟨rfl, stringLexeme_prefix heq⟩
    · cases h
  · split at h
    · cases h
      exact numberLexeme_prefix _
    · split at h
      · cases h
        exact List.cons_prefix_cons.mpr ⟨rfl, List.takeWhile_prefix _⟩
      · have hone : [c] <+: c :: cs := List.cons_prefix_cons.mpr ⟨rfl, List.nil_prefix⟩
        split at h
        · split at h
          · rename_i hhead
            cases h
            cases cs with
            | nil => cases hhead
            | cons d ds =>
              obtain rfl : d = '=' := by simpa using hhead
              exact ⟨ds, rfl⟩
          · cases h
            exact hone
        · split at h
          · cases h
            exact hone
          · cases h

/-! ### Token sequences -/

/-- What is read depends on what stands behind the layout only. -/
theorem scanFrom_eq (file : String) (p : Position) (cs : List Char) :
    scanFrom file p cs =
      match skipLayout false p cs with
      | (q, []) => ⟨[⟨.endOfInput, "", ⟨file, q, q⟩⟩], none⟩
      | (q, d :: ds) =>
        match lexeme d ds with
        | .token kind text =>
          let tail := scanFrom file (q.after text) ((d :: ds).drop text.length)
          ⟨⟨kind, String.ofList text, ⟨file, q, q.after text⟩⟩ :: tail.tokens, tail.fault⟩
        | .fault error text => ⟨[], some (error, ⟨file, q, q.after text⟩)⟩ := by
  rw [scanFrom]
  split <;> rename_i hs <;> rw [hs]
  dsimp only
  split <;> rename_i hl <;> rw [hl]

/-- What is read with all places moved. -/
def Scan.relocate (g : Span → Span) (s : Scan) : Scan :=
  ⟨s.tokens.map (Token.relocate g), s.fault.map fun f => (f.1, g f.2)⟩

theorem scanFrom_relocate {file file' : String} {g : Span → Span} {p p' : Position}
    (hg : ∀ xs ys, g ⟨file, p.after xs, p.after ys⟩ = ⟨file', p'.after xs, p'.after ys⟩)
    (cs : List Char) : scanFrom file' p' cs = (scanFrom file p cs).relocate g := by
  fun_induction scanFrom file p cs generalizing p' with
  | case1 p cs q hs =>
    obtain ⟨skipped, -, hall⟩ := skipLayout_of_other hs
    obtain ⟨rfl, -⟩ := Prod.mk.inj ((hall p).symm.trans hs)
    rw [scanFrom_eq, hall]
    simp only [Scan.relocate, Token.relocate, hg, List.map_cons, List.map_nil, Option.map_none]
  | case2 p cs q d ds hs kind text hl r tail =>
    rename_i ih
    obtain ⟨skipped, -, hall⟩ := skipLayout_of_other hs
    obtain ⟨rfl, -⟩ := Prod.mk.inj ((hall p).symm.trans hs)
    have htail := @ih ((p'.after skipped).after text) fun xs ys => by
      simp only [r, ← Position.after_append, hg]
    rw [scanFrom_eq, hall]
    simp only [hl, htail]
    simp only [Scan.relocate, Token.relocate, r, tail, ← Position.after_append, hg, List.map_cons]
  | case3 p cs q d ds hs error text hl =>
    obtain ⟨skipped, -, hall⟩ := skipLayout_of_other hs
    obtain ⟨rfl, -⟩ := Prod.mk.inj ((hall p).symm.trans hs)
    rw [scanFrom_eq, hall]
    simp only [hl, Scan.relocate, ← Position.after_append, hg, List.map_nil, Option.map_some]

theorem scanFrom_moved (file file' : String) (lines offset : Nat) (p : Position) (cs : List Char) :
    scanFrom file' (p.moved lines offset) cs =
      (scanFrom file p cs).relocate (Span.moved file' lines offset) := by
  refine scanFrom_relocate (fun xs ys => ?_) cs
  rw [Span.moved, Position.after_moved, Position.after_moved]

/-- What is read where one text is followed by another one on the next line. -/
def Scan.followedBy (front back : Scan) : Scan :=
  match front.fault with
  | none => ⟨front.tokens.dropLast ++ back.tokens, back.fault⟩
  | some _ => front

theorem Scan.followedBy_cons (t : Token) (front back : Scan)
    (h : front.fault = none → front.tokens ≠ []) :
    (Scan.mk (t :: front.tokens) front.fault).followedBy back =
      ⟨t :: (front.followedBy back).tokens, (front.followedBy back).fault⟩ := by
  obtain ⟨tokens, fault⟩ := front
  cases fault with
  | none =>
    have htokens : (t :: tokens).dropLast = t :: tokens.dropLast := List.dropLast_cons_of_ne_nil (h rfl)
    simp [followedBy, htokens]
  | some f => rfl

theorem scanFrom_line (file : String) (p : Position) (xs ys : List Char) :
    scanFrom file p (xs ++ '\n' :: ys) =
      (scanFrom file p xs).followedBy (scanFrom file ((p.after xs).next '\n') ys) := by
  fun_induction scanFrom file p xs with
  | case1 p cs q hs =>
    obtain ⟨skipped, hcs, rfl⟩ := skipLayout_eq hs
    rw [List.append_nil] at hcs
    rw [scanFrom_eq, skipLayout_line, hs, hcs, ← scanFrom_eq]
    rfl
  | case2 p cs q d ds hs kind text hl r tail ih =>
    obtain ⟨skipped, rfl, rfl⟩ := skipLayout_eq hs
    obtain ⟨rest, hrest⟩ := lexeme_prefix hl
    rw [← hrest, List.drop_left] at ih
    rw [scanFrom_eq, skipLayout_line, hs]
    simp only [List.cons_append, lexeme_line, hl]
    rw [← List.cons_append, ← hrest, List.append_assoc, List.drop_left]
    have htail : tail.fault = none → tail.tokens ≠ [] := by
      intro hf
      obtain ⟨body, last, hbody, -⟩ := ended_scanFrom file r _ hf
      rw [hbody]
      exact List.append_ne_nil_of_right_ne_nil body (List.cons_ne_nil last [])
    have hend : p.after (skipped ++ (text ++ rest)) = r.after rest := by
      rw [Position.after_append, Position.after_append]
    have hrestTokens : tail = scanFrom file r rest :=
      congrArg (scanFrom file r) (by rw [← hrest, List.drop_left])
    rw [hend, Scan.followedBy_cons _ _ _ htail, hrestTokens, ← ih]
  | case3 p cs q d ds hs error text hl =>
    rw [scanFrom_eq, skipLayout_line, hs]
    simp only [List.cons_append, lexeme_line, hl]
    rfl

theorem next_line_origin (p : Position) : p.next '\n' = Position.origin.moved p.line (p.offset + 1) := by
  rw [Position.next, if_pos rfl, Position.moved, Nat.add_comm p.line]
  exact congrArg (Position.mk _ _) (Nat.zero_add _).symm

theorem scan_lines (file file' s t : String) :
    scan file (s ++ "\n" ++ t) = (scan file s).followedBy ((scan file' t).relocate
      (Span.moved file (Position.origin.after s.toList).line (s.toList.length + 1))) := by
  have htext : (s ++ "\n" ++ t).toList = s.toList ++ '\n' :: t.toList := by simp
  have hoffset : (Position.origin.after s.toList).offset = s.toList.length := by
    rw [Position.offset_after]
    exact Nat.zero_add _
  unfold scan
  rw [htext, scanFrom_line, next_line_origin, scanFrom_moved file', hoffset]

end Lexer

end Lox
