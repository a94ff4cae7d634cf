import Lox.Proofs.Syntax.Lines

/-!
# What a token can be made of

The lexical grammar, without an order of attempts: which characters make up a token of which kind. Reading
at the front of a text gives a token of the grammar, one that is as long as any that stands there, and
fails only where none does.
-/

namespace Lox.Lexer

/-- The texts of tokens. A string has no line feed and no escapes, a number has digits on both sides of
its point, and a word is a keyword if it is spelled like one. -/
inductive IsLexeme : TokenKind → List Char → Prop where
  | whole {digits : List Char} :
    digits ≠ [] → (∀ d ∈ digits, d.isDigit = true) → IsLexeme .number digits
  | fraction {digits decimals : List Char} :
    digits ≠ [] → (∀ d ∈ digits, d.isDigit = true) →
      decimals ≠ [] → (∀ d ∈ decimals, d.isDigit = true) →
      IsLexeme .number (digits ++ '.' :: decimals)
  | string {body : List Char} :
    (∀ d ∈ body, d ≠ '"' ∧ d ≠ '\n') → IsLexeme .string ('"' :: (body ++ ['"']))
  | word {c : Char} {cs : List Char} :
    beginsWord c = true → (∀ d ∈ cs, inWord d = true) →
      IsLexeme (TokenKind.ofWord (String.ofList (c :: cs))) (c :: cs)
  | withEquals {c : Char} {kind alone : TokenKind} :
    paired? c = some (kind, alone) → IsLexeme kind [c, '=']
  | alone {c : Char} {kind withEquals : TokenKind} :
    paired? c = some (withEquals, kind) → IsLexeme kind [c]
  | single {c : Char} {kind : TokenKind} : single? c = some kind → IsLexeme kind [c]

/-! ### Reading gives a token of the grammar -/

theorem isLexeme_number {c : Char} (hc : c.isDigit = true) (cs : List Char) :
    IsLexeme .number (numberLexeme (c :: cs)) := by
  have hdigits : ∀ d ∈ (c :: cs).takeWhile Char.isDigit, d.isDigit = true := fun d hd =>
    List.all_eq_true.mp List.all_takeWhile d hd
  have hne : (c :: cs).takeWhile Char.isDigit ≠ [] := by
    rw [List.takeWhile_cons_of_pos hc]
    exact List.cons_ne_nil _ _
  unfold numberLexeme
  dsimp only
  split
  · rename_i d rest _
    split
    · rename_i hd
      have hdecimals : ∀ e ∈ d :: rest.takeWhile Char.isDigit, e.isDigit = true := by
        intro e he
        rcases List.mem_cons.mp he with rfl | hrest
        · exact hd
        · exact List.all_eq_true.mp List.all_takeWhile e hrest
      exact .fraction hne hdigits (List.cons_ne_nil _ _) hdecimals
    · exact .whole hne hdigits
  · exact .whole hne hdigits

theorem isLexeme_of_lexeme {c : Char} {cs text : List Char} {kind : TokenKind}
    (h : lexeme c cs = .token kind text) : IsLexeme kind text := by
  unfold lexeme at h
  dsimp only at h
  split at h
  · rename_i hquote
    obtain rfl : c = '"' := eq_of_beq hquote
    split at h
    · cases h
      refine .string fun d hd => ?_
      have hbody := List.all_eq_true.mp List.all_takeWhile d hd
      simpa using hbody
    · cases h
  · split at h
    · cases h
      exact isLexeme_number ‹_› cs
    · split at h
      · cases h
        exact .word ‹_› fun d hd => List.all_eq_true.mp List.all_takeWhile d hd
      · split at h
        · split at h
          · cases h
            exact .withEquals ‹_›
          · cases h
            exact .alone ‹_›
        · split at h
          · cases h
            exact .single ‹_›
          · cases h

theorem fault_prefix {c : Char} {cs text : List Char} {error : LexError}
    (h : lexeme c cs = .fault error text) : text <+: c :: cs := by
  unfold lexeme at h
  dsimp only at h
  split at h
  · split at h
    · cases h
    · cases h
      exact List.cons_prefix_cons.mpr ⟨rfl, List.takeWhile_prefix _⟩
  · split at h
    · cases h
    · split at h
      · cases h
      · split at h
        · split at h <;> cases h
        · split at h
          · cases h
          · cases h
            exact List.cons_prefix_cons.mpr ⟨rfl, List.nil_prefix⟩

/-! ### No token of the grammar is longer -/

theorem length_le_takeWhile {p : Char → Bool} {xs ys : List Char} (h : xs <+: ys)
    (hp : ∀ x ∈ xs, p x = true) : xs.length ≤ (ys.takeWhile p).length := by
  obtain ⟨zs, rfl⟩ := h
  rw [List.takeWhile_append_of_pos hp, List.length_append]
  exact Nat.le_add_right _ _

theorem length_le_numberLexeme {digits : List Char} {cs : List Char} (h : digits <+: cs)
    (hd : ∀ d ∈ digits, d.isDigit = true) : digits.length ≤ (numberLexeme cs).length := by
  have hwhole := length_le_takeWhile h hd
  unfold numberLexeme
  dsimp only
  split
  · split
    · rw [List.length_append]
      exact Nat.le_trans hwhole (Nat.le_add_right _ _)
    · exact hwhole
  · exact hwhole

theorem numberLexeme_fraction {digits : List Char} {d : Char} (rest : List Char)
    (hdigits : ∀ e ∈ digits, e.isDigit = true) (hd : d.isDigit = true) :
    numberLexeme (digits ++ '.' :: d :: rest) =
      digits ++ '.' :: d :: rest.takeWhile Char.isDigit := by
  have hpoint : Char.isDigit '.' ≠ true := by decide
  unfold numberLexeme
  rw [List.takeWhile_append_of_pos hdigits, List.dropWhile_append_of_pos hdigits,
    List.takeWhile_cons_of_neg hpoint, List.dropWhile_cons_of_neg hpoint]
  simp [hd]

/-! ### The first character decides -/

theorem beginsWord_of_isDigit {c : Char} (h : c.isDigit = true) : beginsWord c = false := by
  have hrange : 48 ≤ c.toNat ∧ c.toNat ≤ 57 := by
    simpa [Char.isDigit, UInt32.le_iff_toNat_le] using h
  have hdigits : ∀ n : Fin 10, beginsWord (Char.ofNat (48 + n)) = false := by decide
  have hc : Char.ofNat (48 + (c.toNat - 48)) = c := by
    rw [Nat.add_sub_cancel' hrange.1, Char.ofNat_toNat]
  rw [← hc]
  exact hdigits ⟨c.toNat - 48, by omega⟩

theorem lexeme_of_string {body : List Char} (h : ∀ d ∈ body, d ≠ '"' ∧ d ≠ '\n') (rest : List Char) :
    lexeme '"' (body ++ '"' :: rest) = .token .string ('"' :: (body ++ ['"'])) := by
  have hbody : ∀ d ∈ body, (d != '"' && d != '\n') = true := by
    intro d hd
    simpa using h d hd
  have htake : (body ++ '"' :: rest).takeWhile (fun d => d != '"' && d != '\n') = body := by
    rw [List.takeWhile_append_of_pos hbody, List.takeWhile_cons]
    exact List.append_nil body
  rw [lexeme, if_pos (beq_self_eq_true _)]
  dsimp only
  simp only [htake, List.drop_left]

theorem lexeme_of_isDigit {c : Char} (h : c.isDigit = true) (cs : List Char) :
    lexeme c cs = .token .number (numberLexeme (c :: cs)) := by
  have hquote : ¬ (c == '"') = true := by
    intro heq
    rw [eq_of_beq heq] at h
    cases h
  rw [lexeme, if_neg hquote, if_pos h]

theorem lexeme_of_beginsWord {c : Char} (h : beginsWord c = true) (cs : List Char) :
    lexeme c cs = .token (TokenKind.ofWord (String.ofList (c :: cs.takeWhile inWord)))
      (c :: cs.takeWhile inWord) := by
  have hquote : ¬ (c == '"') = true := by
    intro heq
    rw [eq_of_beq heq] at h
    exact absurd h (by decide)
  have hdigit : ¬ c.isDigit = true := by
    intro hd
    rw [beginsWord_of_isDigit hd] at h
    cases h
  rw [lexeme, if_neg hquote, if_neg hdigit, if_pos h]

theorem lexeme_of_paired {c : Char} {withEquals alone : TokenKind}
    (h : paired? c = some (withEquals, alone)) (cs : List Char) :
    lexeme c cs = if cs.head? == some '=' then .token withEquals [c, '='] else .token alone [c] := by
  unfold paired? at h
  split at h <;> cases h <;> rfl

theorem lexeme_of_single {c : Char} {kind : TokenKind} (h : single? c = some kind) (cs : List Char) :
    lexeme c cs = .token kind [c] := by
  unfold single? at h
  split at h <;> cases h <;> rfl

theorem exists_number {digits more cs : List Char} {c : Char} (hne : digits ≠ [])
    (hd : ∀ d ∈ digits, d.isDigit = true) (h : digits ++ more <+: c :: cs)
    (hle : (digits ++ more).length ≤ (numberLexeme (c :: cs)).length) :
    ∃ kind text, lexeme c cs = .token kind text ∧ (digits ++ more).length ≤ text.length := by
  cases digits with
  | nil => exact absurd rfl hne
  | cons d digits =>
    obtain rfl : d = c := (List.cons_prefix_cons.mp h).1
    exact ⟨.number, _, lexeme_of_isDigit (hd d List.mem_cons_self) cs, hle⟩

theorem exists_lexeme {c : Char} {cs text : List Char} {kind : TokenKind} (h : IsLexeme kind text)
    (hp : text <+: c :: cs) :
    ∃ kind' text', lexeme c cs = .token kind' text' ∧ text.length ≤ text'.length := by
  cases h with
  | whole hne hd =>
    have hle := length_le_numberLexeme hp hd
    rw [← List.append_nil text] at hp hle ⊢
    exact exists_number hne hd hp hle
  | @fraction digits decimals hne hd hdecimals hdd =>
    obtain ⟨rest, hrest⟩ := id hp
    refine exists_number hne hd hp ?_
    cases decimals with
    | nil => exact absurd rfl hdecimals
    | cons d decimals =>
      have hdecimalsLe : decimals.length ≤ ((decimals ++ rest).takeWhile Char.isDigit).length :=
        length_le_takeWhile (List.prefix_append decimals rest) fun e he =>
          hdd e (List.mem_cons_of_mem d he)
      rw [← hrest, List.append_assoc, List.cons_append, List.cons_append,
        numberLexeme_fraction _ hd (hdd d List.mem_cons_self)]
      simp only [List.length_append, List.length_cons]
      omega
  | @string body hbody =>
    obtain ⟨rest, hrest⟩ := hp
    rw [List.cons_append, List.append_assoc, List.singleton_append] at hrest
    obtain ⟨rfl, rfl⟩ := List.cons.inj hrest
    exact ⟨_, _, lexeme_of_string hbody rest, Nat.le_refl _⟩
  | @word d ds hd hds =>
    obtain ⟨rfl, hprefix⟩ := List.cons_prefix_cons.mp hp
    exact ⟨_, _, lexeme_of_beginsWord hd cs, Nat.succ_le_succ (length_le_takeWhile hprefix hds)⟩
  | @withEquals d kind alone hd =>
    obtain ⟨rest, hrest⟩ := hp
    obtain ⟨rfl, rfl⟩ := List.cons.inj hrest
    exact ⟨_, _, lexeme_of_paired hd _, Nat.le_refl 2⟩
  | @alone d kind withEquals hd =>
    obtain ⟨rfl, -⟩ := List.cons_prefix_cons.mp hp
    have hread := lexeme_of_paired hd cs
    -- the sign is read with an equals sign behind it, if there is one
    split at hread
    · exact ⟨_, _, hread, Nat.le_succ 1⟩
    · exact ⟨_, _, hread, Nat.le_refl 1⟩
  | @single d kind hd =>
    obtain ⟨rfl, -⟩ := List.cons_prefix_cons.mp hp
    exact ⟨_, _, lexeme_of_single hd cs, Nat.le_refl 1⟩

/-- No token of the grammar that stands there is longer than the one that is read. -/
theorem length_le_of_lexeme {c : Char} {cs text text' : List Char} {kind kind' : TokenKind}
    (h : lexeme c cs = .token kind text) (h' : IsLexeme kind' text') (hp : text' <+: c :: cs) :
    text'.length ≤ text.length := by
  obtain ⟨k, t, hread, hle⟩ := exists_lexeme h' hp
  obtain ⟨-, rfl⟩ := Lexeme.token.inj (h.symm.trans hread)
  exact hle

theorem lexeme_self {c : Char} {cs : List Char} {kind : TokenKind} (h : IsLexeme kind (c :: cs)) :
    lexeme c cs = .token kind (c :: cs) := by
  -- what is read is at the front and as long as the token, so it is all of the text
  have hwhole {kind' : TokenKind} {text : List Char} (hl : lexeme c cs = .token kind' text) :
      text = c :: cs := by
    have hread := lexeme_prefix hl
    exact hread.eq_of_length_le (length_le_of_lexeme hl h List.prefix_rfl)
  have hnumber (hc : c.isDigit = true) : lexeme c cs = .token .number (c :: cs) := by
    have hl := lexeme_of_isDigit hc cs
    rwa [hwhole hl] at hl
  generalize htext : c :: cs = text at h
  cases h with
  | whole hne hd =>
    subst htext
    exact hnumber (hd c List.mem_cons_self)
  | @fraction digits decimals hne hd _ _ =>
    cases digits with
    | nil => exact absurd rfl hne
    | cons d digits =>
      obtain ⟨rfl, -⟩ := List.cons.inj htext
      rw [← htext]
      exact hnumber (hd c List.mem_cons_self)
  | string hbody =>
    obtain ⟨rfl, rfl⟩ := List.cons.inj htext
    exact lexeme_of_string hbody []
  | word hc hds =>
    obtain ⟨rfl, rfl⟩ := List.cons.inj htext
    have hl := lexeme_of_beginsWord hc cs
    rwa [hwhole hl] at hl
  | withEquals hc =>
    obtain ⟨rfl, rfl⟩ := List.cons.inj htext
    exact lexeme_of_paired hc ['=']
  | alone hc =>
    obtain ⟨rfl, rfl⟩ := List.cons.inj htext
    exact lexeme_of_paired hc []
  | single hc =>
    obtain ⟨rfl, rfl⟩ := List.cons.inj htext
    exact lexeme_of_single hc []

theorem IsLexeme.kind_unique {kind kind' : TokenKind} {c : Char} {cs : List Char}
    (h : IsLexeme kind (c :: cs)) (h' : IsLexeme kind' (c :: cs)) : kind = kind' :=
  (Lexeme.token.inj ((lexeme_self h).symm.trans (lexeme_self h'))).1

theorem not_isLexeme_of_fault {c : Char} {cs text text' : List Char} {error : LexError}
    {kind : TokenKind} (h : lexeme c cs = .fault error text) (h' : IsLexeme kind text') :
    ¬ text' <+: c :: cs := by
  intro hp
  obtain ⟨k, t, hread, -⟩ := exists_lexeme h' hp
  cases h.symm.trans hread

end Lox.Lexer
