import Lox.Native
import Lox.Proofs.Numbers.Notations
import Lox.Proofs.Syntax.Excerpts

/-!
# Printed numbers

A number is printed in plain notation, with the decimal that its marked notation has, and reads back: by the
conversion of strings and, without a sign, as a token.
-/

namespace Lox

/-! ### One token -/

namespace Lexer

theorem tokenize_lexeme (file : String) {kind : TokenKind} {c : Char} {cs : List Char}
    (h : IsLexeme kind (c :: cs)) (hends : ¬ BeginsLayout (c :: cs)) :
    tokenize file (String.ofList (c :: cs)) =
      .ok [⟨kind, String.ofList (c :: cs), ⟨file, .origin, Position.origin.after (c :: cs)⟩⟩,
        ⟨.endOfInput, "", ⟨file, Position.origin.after (c :: cs), Position.origin.after (c :: cs)⟩⟩] := by
  have hfirst : ReadsFirst file .origin
      ⟨kind, String.ofList (c :: cs), ⟨file, .origin, Position.origin.after (c :: cs)⟩⟩ [] (c :: cs) [] := by
    rw [← List.append_nil (c :: cs)] at hends
    exact ⟨skipLayout_eq_self hends, ⟨c, cs, List.append_nil _, lexeme_self h⟩, rfl⟩
  have hscan := hfirst.scan
  rw [List.append_nil, List.nil_append, scanFrom_eq file _ []] at hscan
  have hall : scan file (String.ofList (c :: cs)) = scanFrom file .origin (c :: cs) := by
    rw [scan, String.toList_ofList]
  rw [hscan] at hall
  rw [tokenize_of_no_fault (by rw [hall]; rfl), hall]
  rfl

end Lexer

namespace Decimal

/-! ### Plain notation -/

/-- Digits, and behind a point further digits of which the last one is not a zero. -/
inductive IsPlain : List Char → Prop where
  | whole {digits : List Char} : Digits digits → IsPlain digits
  | fraction {digits decimals : List Char} :
    Digits digits → Digits decimals → decimals.getLast? ≠ some '0' → IsPlain (digits ++ '.' :: decimals)

namespace IsPlain

variable {body : List Char}

theorem isLexeme (h : IsPlain body) : Lexer.IsLexeme .number body := by
  cases h with
  | whole hdigits => exact .whole hdigits.ne_nil hdigits.isDigit
  | fraction hdigits hdecimals _ =>
    exact .fraction hdigits.ne_nil hdigits.isDigit hdecimals.ne_nil hdecimals.isDigit

theorem first (h : IsPlain body) : ∃ c cs, body = c :: cs ∧ c.isDigit = true := by
  cases h with
  | whole hdigits =>
    have hfirst := hdigits.first []
    rwa [List.append_nil] at hfirst
  | fraction hdigits _ _ => exact hdigits.first _

theorem ofLexeme_eq (h : IsPlain body) {d : Scaled} (hd : scaled? body = some d) :
    ofLexeme body = nearestFloat d.digits d.exponent := by
  cases h with
  | whole hdigits =>
    obtain ⟨htake, hdrop⟩ := takeWhile_digits hdigits [] rfl
    have hread := scaled?_whole hdigits exponentText_nil
    rw [List.append_nil] at htake hdrop hread
    obtain rfl := Option.some.inj (hread.symm.trans hd)
    unfold ofLexeme
    rw [htake, hdrop]
    dsimp only
    rw [List.drop_nil, List.append_nil]
    rfl
  | @fraction digits decimals hdigits hdecimals _ =>
    obtain ⟨htake, hdrop⟩ := takeWhile_digits hdigits ('.' :: decimals) rfl
    have hread := scaled?_point hdigits hdecimals exponentText_nil
    rw [List.append_nil] at hread
    obtain rfl := Option.some.inj (hread.symm.trans hd)
    unfold ofLexeme
    rw [htake, hdrop]
    dsimp only
    rw [List.drop_one, List.tail_cons, zero_sub]

end IsPlain

theorem isPlain_positionalChars {ds : List Char} (hds : Digits ds) (hlast : ds.getLast? ≠ some '0')
    (point : ℤ) : IsPlain (positionalChars [] ds point) := by
  unfold positionalChars
  split_ifs with hsmall hlarge
  · refine .fraction digits_zero (hds.zeros_append _) ?_
    rwa [List.getLast?_append_of_ne_nil _ hds.ne_nil]
  · rw [List.append_nil]
    exact .whole (hds.append_zeros _)
  · refine .fraction (hds.take (by omega)) (hds.drop (by omega)) ?_
    rwa [List.getLast?_drop, if_neg (by omega)]

theorem isPlain_unsignedChars {x : Float} {negative : Bool} {m : ℕ} {q : ℤ}
    (hx : Binary.ofFloat x = .finite negative m q) : IsPlain (unsignedChars .plain m q) := by
  have hdouble := hx ▸ double_ofFloat x
  cases hdouble with
  | zero => exact .whole digits_zero
  | finite _ hc =>
    rw [unsignedChars, if_neg hc.pos.ne']
    exact isPlain_positionalChars (digits_significantDigits (shortest_pos hc))
      (getLast?_significantDigits _) _

/-! ### Reading back -/

/-- Printed numbers read back, those that are not finite too. -/
theorem float?_plain (x : Float) : float? (plain x) = some x := by
  obtain ⟨b, hb⟩ : ∃ b, Binary.ofFloat x = b := ⟨_, rfl⟩
  have hdouble := hb ▸ double_ofFloat x
  cases b with
  | finite negative m q => rw [plain_eq, float?_write hb .plain (Or.inl rfl)]
  | nan =>
    rw [plain_eq, Style.write, hb]
    cases hdouble
    rfl
  | infinite negative =>
    rw [plain_eq, Style.write, hb]
    cases hdouble
    cases negative <;> rfl

theorem negative_eq_false {x : Float} {negative : Bool} {m : ℕ} {q : ℤ}
    (hx : Binary.ofFloat x = .finite negative m q) (hsign : x.toBits.toNat < 2 ^ 63) : negative = false := by
  have hclear : decide (Nat.pow 2 63 ≤ x.toBits.toNat) = false := decide_eq_false hsign.not_ge
  unfold Binary.ofFloat Binary.ofBits at hx
  dsimp only at hx
  rw [hclear] at hx
  split_ifs at hx <;> cases hx <;> rfl

theorem tokenize_plain {x : Float} (hx : x.isFinite = true) (hsign : x.toBits.toNat < 2 ^ 63)
    (file : String) :
    ∃ t e, Lexer.tokenize file (plain x) = .ok [t, e] ∧ t.kind = .number ∧ t.lexeme = plain x ∧
      t.numberValue = x ∧ e.kind = .endOfInput := by
  obtain ⟨negative, m, q, hb⟩ := exists_finite hx
  obtain rfl := negative_eq_false hb hsign
  obtain ⟨d, hbody, -, hread⟩ := denotes_unsignedChars hb .plain (Or.inl rfl)
  have hplain := isPlain_unsignedChars hb
  have htext : plain x = String.ofList (unsignedChars .plain m q) :=
    (plain_eq x).trans (write_finite hb .plain)
  have hvalue := hplain.ofLexeme_eq hbody.reads
  obtain ⟨c, cs, heq, hc⟩ := hplain.first
  have hlexeme := hplain.isLexeme
  -- A sign would be a token of its own; without one the text begins with a digit and is one lexeme.
  have hends : ¬ Lexer.BeginsLayout (c :: cs) := by
    refine Lexer.not_beginsLayout_cons ?_ ?_
    · exact isDigit_cases (P := fun c => ¬ Lexer.isLayout c = true) (by decide) hc
    · have hslash : c ≠ '/' := isDigit_cases (P := fun c => c ≠ '/') (by decide) hc
      rw [Bool.and_eq_true, beq_iff_eq]
      exact fun h => hslash h.1
  rw [htext, heq]
  rw [heq] at hlexeme hvalue
  refine ⟨_, _, Lexer.tokenize_lexeme file hlexeme hends, rfl, rfl, ?_, rfl⟩
  change ofLexeme (String.ofList (c :: cs)).toList = x
  rw [String.toList_ofList, hvalue]
  exact hread

/-- A finite number is printed without an exponent, a zero at the end of its decimals or a point without
decimals, and with the decimal of its marked notation, which reads back; the text of any number is converted
to the number, and that of a finite one without a sign is read as one token with its value. -/
theorem plain_reads_back (x : Float) :
    (x.isFinite = true → ∃ negative body value,
      plain x = String.ofList (signed negative body) ∧ IsPlain body ∧
        decimal? (plain x) = some (negative, value) ∧ decimal? (marked x) = some (negative, value) ∧
        float? (marked x) = some x) ∧
      (∀ now now', (Native.str.run now [.number x] >>= fun text => Native.num.run now' [text]) =
        .ok (.number x)) ∧
      (x.isFinite = true → x.toBits.toNat < 2 ^ 63 → ∀ file, ∃ t e,
        Lexer.tokenize file (plain x) = .ok [t, e] ∧ t.kind = .number ∧ t.lexeme = plain x ∧
          t.numberValue = x ∧ e.kind = .endOfInput) := by
  refine ⟨fun hx => ?_, fun now now' => ?_, tokenize_plain⟩
  · obtain ⟨negative, m, q, hb⟩ := exists_finite hx
    have hread : decimal? (plain x) = some (negative, magnitude m q) := by
      rw [plain_eq, decimal?_write hb .plain (Or.inl rfl)]
    exact ⟨negative, unsignedChars .plain m q, magnitude m q, (plain_eq x).trans (write_finite hb .plain),
      isPlain_unsignedChars hb, hread, decimal?_write hb .marked (Or.inr rfl), float?_write hb .marked (Or.inr rfl)⟩
  · change Native.num.run now' [.string (plain x)] = .ok (.number x)
    simp only [Native.num, float?_plain]

theorem plain_reads_back_small : (1e-7 : Float).isFinite = true ∧ (1e-7 : Float).toBits.toNat < 2 ^ 63 ∧
    (∃ negative body value, plain 1e-7 = String.ofList (signed negative body) ∧ IsPlain body ∧
      decimal? (plain 1e-7) = some (negative, value) ∧ decimal? (marked 1e-7) = some (negative, value) ∧
      float? (marked 1e-7) = some 1e-7) ∧
    ∃ t e, Lexer.tokenize "" (plain 1e-7) = .ok [t, e] ∧ t.kind = .number ∧ t.lexeme = plain 1e-7 ∧
      t.numberValue = 1e-7 ∧ e.kind = .endOfInput := by
  have hfinite : (1e-7 : Float).isFinite = true := by decide +kernel
  have hsign : (1e-7 : Float).toBits.toNat < 2 ^ 63 := by decide +kernel
  obtain ⟨htexts, -, htoken⟩ := plain_reads_back 1e-7
  exact ⟨hfinite, hsign, htexts hfinite, htoken hfinite hsign ""⟩

example : plain 1e-7 = "0.0000001" ∧ marked 1e-7 = "1e-07" := by decide +kernel

end Decimal

end Lox
