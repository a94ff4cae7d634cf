import Lox.Decimal.Notation
import Lox.Proofs.Numbers.Nearest

/-!
# Numerals and what they denote

The exact value of a numeral, of which the reader takes the nearest double. Digits are read by place, a point
and an exponent move the places.
-/

namespace Lox.Decimal

/-! ### Digits -/

/-- One or more digits. -/
structure Digits (cs : List Char) : Prop where
  ne_nil : cs ≠ []
  isDigit : ∀ c ∈ cs, c.isDigit = true

theorem Digits.first {cs : List Char} (h : Digits cs) (more : List Char) :
    ∃ d ds, cs ++ more = d :: ds ∧ d.isDigit = true := by
  obtain ⟨d, ds, rfl⟩ := List.exists_cons_of_ne_nil h.ne_nil
  exact ⟨d, ds ++ more, rfl, h.isDigit d List.mem_cons_self⟩

theorem natOfDigits_append (xs ys : List Char) :
    natOfDigits (xs ++ ys) = 10 ^ ys.length * natOfDigits xs + natOfDigits ys := by
  change Nat.ofDigitChars 10 (xs ++ ys) 0 = _
  rw [Nat.ofDigitChars_append, Nat.ofDigitChars_eq_ofDigitChars_zero]
  rfl

theorem natOfDigits_zeros (n : ℕ) : natOfDigits (List.replicate n '0') = 0 := by
  change Nat.ofDigitChars 10 _ 0 = _
  rw [Nat.ofDigitChars_replicate_zero, Nat.mul_zero]

theorem natOfDigits_digitChars (n : ℕ) : natOfDigits (digitChars n) = n := Nat.ofDigitChars_ten_toDigits

theorem digits_digitChars (n : ℕ) : Digits (digitChars n) where
  ne_nil := Nat.toDigits_ne_nil
  isDigit _ hc := Nat.isDigit_of_mem_toDigits (by norm_num) (by norm_num) hc

theorem allDigits?_eq {cs : List Char} (h : Digits cs) : allDigits? cs = some (natOfDigits cs) := by
  have hsome : cs.isEmpty = false := List.isEmpty_eq_false_iff.mpr h.ne_nil
  rw [allDigits?, hsome, List.all_eq_true.mpr h.isDigit]
  rfl

theorem isDigit_range {c : Char} (h : c.isDigit = true) : 48 ≤ c.toNat ∧ c.toNat ≤ 57 := by
  simpa [Char.isDigit, UInt32.le_iff_toNat_le] using h

theorem isDigit_cases {P : Char → Prop} (hP : ∀ n : Fin 10, P (Char.ofNat (48 + n))) {c : Char}
    (h : c.isDigit = true) : P c := by
  have hrange := isDigit_range h
  have hc : Char.ofNat (48 + (c.toNat - 48)) = c := by
    rw [Nat.add_sub_cancel' hrange.1, Char.ofNat_toNat]
  rw [← hc]
  exact hP ⟨c.toNat - 48, by omega⟩

/-! ### Exact values -/

def Scaled.value (d : Scaled) : ℚ := d.digits * 10 ^ d.exponent

/-- The sign and the exact magnitude that a text denotes as a decimal. -/
def decimal? (text : String) : Option (Bool × ℚ) :=
  (scaled? (splitSign text.toList).2).map fun d => ((splitSign text.toList).1, d.value)

def isNumeralChar (c : Char) : Bool := c.isDigit || c == '.' || c == '+' || c == '-' || c == 'e'

/-- What may stand behind the digits of a numeral, and the exponent that it gives. -/
structure ExponentText (rest : List Char) (e : ℤ) : Prop where
  apart : rest.takeWhile Char.isDigit = []
  not_point : rest.head? ≠ some '.'
  chars : ∀ c ∈ rest, isNumeralChar c = true
  reads : exponentPart? rest = some e

theorem exponentText_nil : ExponentText [] 0 := ⟨rfl, nofun, nofun, rfl⟩

section

variable {whole fraction : List Char} (hwhole : Digits whole)

include hwhole

theorem takeWhile_digits (rest : List Char) (hrest : rest.takeWhile Char.isDigit = []) :
    (whole ++ rest).takeWhile Char.isDigit = whole ∧ (whole ++ rest).dropWhile Char.isDigit = rest := by
  have hdrop : rest.dropWhile Char.isDigit = rest := by
    have happend := List.takeWhile_append_dropWhile (p := Char.isDigit) (l := rest)
    rwa [hrest, List.nil_append] at happend
  rw [List.takeWhile_append_of_pos hwhole.isDigit, List.dropWhile_append_of_pos hwhole.isDigit, hrest, hdrop,
    List.append_nil]
  exact ⟨rfl, rfl⟩

theorem scaled?_whole {rest : List Char} {e : ℤ} (hrest : ExponentText rest e) :
    scaled? (whole ++ rest) = some ⟨natOfDigits whole, e⟩ := by
  obtain ⟨htake, hdrop⟩ := takeWhile_digits hwhole rest hrest.apart
  have hsome : whole.isEmpty = false := List.isEmpty_eq_false_iff.mpr hwhole.ne_nil
  unfold scaled?
  dsimp only
  rw [htake, hdrop]
  split
  · exact absurd rfl hrest.not_point
  · simp [hsome, hrest.reads]

theorem scaled?_point (hfraction : Digits fraction) {rest : List Char} {e : ℤ} (hrest : ExponentText rest e) :
    scaled? (whole ++ '.' :: (fraction ++ rest)) =
      some ⟨natOfDigits (whole ++ fraction), e - fraction.length⟩ := by
  obtain ⟨htake, hdrop⟩ := takeWhile_digits hwhole ('.' :: (fraction ++ rest)) rfl
  obtain ⟨htake', hdrop'⟩ := takeWhile_digits hfraction rest hrest.apart
  have hsome : whole.isEmpty = false := List.isEmpty_eq_false_iff.mpr hwhole.ne_nil
  unfold scaled?
  dsimp only
  rw [htake, hdrop]
  change (if (whole.isEmpty && ((fraction ++ rest).takeWhile Char.isDigit).isEmpty) = true then none
    else (exponentPart? ((fraction ++ rest).dropWhile Char.isDigit)).map fun e => (⟨natOfDigits
      (whole ++ (fraction ++ rest).takeWhile Char.isDigit),
      e - ((fraction ++ rest).takeWhile Char.isDigit).length⟩ : Scaled)) = _
  rw [htake', hdrop', hsome, hrest.reads]
  rfl

end

/-! ### Characters of numerals -/

theorem isNumeralChar_cases {P : Char → Prop} (hdigit : ∀ n : Fin 10, P (Char.ofNat (48 + n)))
    (hpoint : P '.') (hplus : P '+') (hminus : P '-') (hexponent : P 'e') {c : Char}
    (h : isNumeralChar c = true) : P c := by
  simp only [isNumeralChar, Bool.or_eq_true, beq_iff_eq] at h
  rcases h with (((h | rfl) | rfl) | rfl) | rfl
  · exact isDigit_cases hdigit h
  · exact hpoint
  · exact hplus
  · exact hminus
  · exact hexponent

theorem isNumeralChar_digit {c : Char} (h : c.isDigit = true) : isNumeralChar c = true := by
  rw [isNumeralChar, h]
  rfl

theorem isBlank_numeralChar {c : Char} (h : isNumeralChar c = true) : Text.isBlank c = false :=
  isNumeralChar_cases (P := fun c => Text.isBlank c = false) (by decide) (by decide) (by decide) (by decide)
    (by decide) h

theorem asciiDigit_numeralChar {c : Char} (h : isNumeralChar c = true) : asciiDigit c = c :=
  isNumeralChar_cases (P := fun c => asciiDigit c = c) (by decide) (by decide) (by decide) (by decide)
    (by decide) h

theorem ne_underscore_numeralChar {c : Char} (h : isNumeralChar c = true) : c ≠ '_' :=
  isNumeralChar_cases (P := fun c => c ≠ '_') (by decide) (by decide) (by decide) (by decide) (by decide) h

theorem trimChars_eq_self {cs : List Char} (h : ∀ c ∈ cs, Text.isBlank c = false) :
    Text.trimChars cs = cs := by
  have hfront : cs.dropWhile Text.isBlank = cs := by
    cases cs with
    | nil => rfl
    | cons c cs => exact List.dropWhile_cons_of_neg (by rw [h c List.mem_cons_self]; decide)
  have hback : cs.reverse.dropWhile Text.isBlank = cs.reverse := by
    generalize hreverse : cs.reverse = rs
    cases rs with
    | nil => rfl
    | cons r rs =>
      have hr : r ∈ cs := List.mem_reverse.mp (hreverse ▸ List.mem_cons_self)
      exact List.dropWhile_cons_of_neg (by rw [h r hr]; decide)
  rw [Text.trimChars, hfront, hback, List.reverse_reverse]

theorem float?_ofList {cs : List Char} (h : ∀ c ∈ cs, isNumeralChar c = true) :
    float? (String.ofList cs) =
      (unsigned? (splitSign cs).2).map fun x => if (splitSign cs).1 then -x else x := by
  have hmap : cs.map asciiDigit = cs :=
    (List.map_congr_left fun c hc => asciiDigit_numeralChar (h c hc)).trans (List.map_id' cs)
  have hjoin : joinDigits false cs = some cs :=
    joinDigits_of_not_mem cs (fun hmem => ne_underscore_numeralChar (h _ hmem) rfl) false
  unfold float?
  rw [String.toList_ofList, trimChars_eq_self fun c hc => isBlank_numeralChar (h c hc), hmap, hjoin]
  rw [Option.bind_eq_bind, Option.bind_some]
  rcases splitSign cs with ⟨negative, body⟩
  dsimp only
  cases unsigned? body <;> rfl

/-- A numeral that begins with a digit, and what it denotes. -/
structure Denotes (body : List Char) (d : Scaled) : Prop where
  chars : ∀ c ∈ body, isNumeralChar c = true
  first : ∃ c cs, body = c :: cs ∧ c.isDigit = true
  reads : scaled? body = some d

/-- A minus in front of a body, or none. -/
def signed (negative : Bool) (body : List Char) : List Char := if negative then '-' :: body else body

namespace Denotes

section

variable {whole fraction rest : List Char} {e : ℤ} (hwhole : Digits whole)

include hwhole

theorem ofDigits (hrest : ExponentText rest e) : Denotes (whole ++ rest) ⟨natOfDigits whole, e⟩ where
  chars c hc :=
    (List.mem_append.mp hc).elim (fun h => isNumeralChar_digit (hwhole.isDigit c h)) (hrest.chars c)
  first := hwhole.first rest
  reads := scaled?_whole hwhole hrest

theorem withPoint (hfraction : Digits fraction) (hrest : ExponentText rest e) :
    Denotes (whole ++ '.' :: (fraction ++ rest))
      ⟨natOfDigits (whole ++ fraction), e - fraction.length⟩ where
  chars c hc := by
    simp only [List.mem_append, List.mem_cons] at hc
    rcases hc with h | rfl | h | h
    · exact isNumeralChar_digit (hwhole.isDigit c h)
    · rfl
    · exact isNumeralChar_digit (hfraction.isDigit c h)
    · exact hrest.chars c h
  first := hwhole.first _
  reads := scaled?_point hwhole hfraction hrest

end

section

variable {body : List Char} {d : Scaled} (h : Denotes body d)

include h

theorem splitSign_signed (negative : Bool) : splitSign (signed negative body) = (negative, body) := by
  cases negative with
  | true => rfl
  | false =>
    obtain ⟨c, cs, rfl, hc⟩ := h.first
    exact isDigit_cases (P := fun c => splitSign (c :: cs) = (false, c :: cs))
      (fun n => by fin_cases n <;> rfl) hc

theorem decimal?_signed (negative : Bool) :
    decimal? (String.ofList (signed negative body)) = some (negative, d.value) := by
  rw [decimal?, String.toList_ofList, h.splitSign_signed, h.reads]
  rfl

theorem unsigned?_eq : unsigned? body = some (nearestFloat d.digits d.exponent) := by
  obtain ⟨c, cs, rfl, hc⟩ := h.first
  have hlower : c.toLower = c := isDigit_cases (P := fun c => c.toLower = c) (by decide) hc
  have hfirst : c ≠ 'i' ∧ c ≠ 'n' := isDigit_cases (P := fun c => c ≠ 'i' ∧ c ≠ 'n') (by decide) hc
  have hword {w : List Char} (hw : w.head? = some 'i' ∨ w.head? = some 'n') :
      String.ofList ((c :: cs).map Char.toLower) ≠ String.ofList w := by
    intro heq
    rw [← String.ofList_inj.mp heq, List.map_cons, List.head?_cons, hlower] at hw
    rcases hw with hw | hw
    · exact hfirst.1 (Option.some.inj hw)
    · exact hfirst.2 (Option.some.inj hw)
  unfold unsigned?
  dsimp only
  rw [if_neg (not_or.mpr ⟨hword (w := ['i', 'n', 'f']) (Or.inl rfl),
      hword (w := ['i', 'n', 'f', 'i', 'n', 'i', 't', 'y']) (Or.inl rfl)⟩),
    if_neg (hword (w := ['n', 'a', 'n']) (Or.inr rfl)), h.reads]
  rfl

theorem float?_signed (negative : Bool) : float? (String.ofList (signed negative body)) =
    some (if negative then -nearestFloat d.digits d.exponent else nearestFloat d.digits d.exponent) := by
  have hchars : ∀ c ∈ signed negative body, isNumeralChar c = true := by
    cases negative with
    | true =>
      rintro c (_ | ⟨_, hc⟩)
      · rfl
      · exact h.chars c hc
    | false => exact h.chars
  rw [float?_ofList hchars, h.splitSign_signed, h.unsigned?_eq]
  rfl

end

end Denotes

end Lox.Decimal
