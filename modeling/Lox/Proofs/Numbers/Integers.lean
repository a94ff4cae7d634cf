import Lox.Proofs.Numbers.Numerals
import Mathlib.Data.List.DropRight

/-!
# Integers in texts

The texts that are read as integers, said without the reader: blanks around a sign, which may be left out,
and digits of any script, of which two may have one underscore between them. The reader takes such texts and
no others, as long as the digits are within its limit, and gives their value.
-/

namespace Lox

/-! ### Blanks around a text -/

namespace Text

/-- The text is the body with blanks around it; the body neither begins nor ends with a blank. -/
structure Wraps (blank : Char → Bool) (cs body : List Char) : Prop where
  around : ∃ front back, cs = front ++ (body ++ back) ∧ (∀ c ∈ front, blank c = true) ∧
    ∀ c ∈ back, blank c = true
  head : ∀ c ∈ body.head?, blank c = false
  last : ∀ c ∈ body.getLast?, blank c = false

variable {blank : Char → Bool} {cs body : List Char}

theorem dropWhile_eq_self_of_head? (h : ∀ c ∈ cs.head?, blank c = false) : cs.dropWhile blank = cs := by
  cases cs with
  | nil => rfl
  | cons c cs => exact List.dropWhile_cons_of_neg (by rw [h c rfl]; decide)

theorem wraps_trimmed (cs : List Char) : Wraps blank cs ((cs.dropWhile blank).rdropWhile blank) := by
  have hback : (cs.dropWhile blank).rdropWhile blank ++ (cs.dropWhile blank).rtakeWhile blank =
      cs.dropWhile blank := List.rdropWhile_append_rtakeWhile
  refine ⟨⟨cs.takeWhile blank, (cs.dropWhile blank).rtakeWhile blank, ?_, ?_, ?_⟩, fun c hc => ?_,
    fun c hc => ?_⟩
  · rw [hback, List.takeWhile_append_dropWhile]
  · exact fun c hc => List.mem_takeWhile_imp hc
  · exact fun c hc => List.mem_rtakeWhile_imp hc
  · have hhead := List.head?_dropWhile_not blank cs
    rw [← hback, List.head?_append, Option.mem_def.mp hc] at hhead
    simpa using hhead
  · have hlast := List.head?_dropWhile_not blank (cs.dropWhile blank).reverse
    rw [List.rdropWhile, List.getLast?_reverse] at hc
    rw [Option.mem_def.mp hc] at hlast
    simpa using hlast

theorem trimmed_eq_iff : (cs.dropWhile blank).rdropWhile blank = body ↔ Wraps blank cs body := by
  refine ⟨fun h => h ▸ wraps_trimmed cs, ?_⟩
  rintro ⟨⟨front, back, rfl, hfront, hback⟩, hhead, hlast⟩
  rw [List.dropWhile_append_of_pos hfront]
  cases body with
  | nil => rw [List.nil_append, List.dropWhile_eq_nil_iff.mpr hback, List.rdropWhile_nil]
  | cons b body =>
    have hdrop : (b :: body ++ back).dropWhile blank = b :: body ++ back := dropWhile_eq_self_of_head? hhead
    have hlast' : ∀ c ∈ (b :: body).reverse.head?, blank c = false := by rwa [List.head?_reverse]
    rw [hdrop, List.rdropWhile, List.reverse_append,
      List.dropWhile_append_of_pos fun c hc => hback c (List.mem_reverse.mp hc),
      dropWhile_eq_self_of_head? hlast', List.reverse_reverse]

theorem trimChars_eq_iff : trimChars cs = body ↔ Wraps isBlank cs body := trimmed_eq_iff

end Text

namespace Decimal

/-! ### The grammar -/

/-- Digits behind others, each with an underscore in front of it or without: digits with the value `m` come
before them, and `n` is the value of all together. -/
inductive MoreDigits : ℕ → List Char → ℕ → Prop where
  | none {m : ℕ} : MoreDigits m [] m
  | digit {m d n : ℕ} {c : Char} {cs : List Char} (hc : Text.digitValue? c = some d)
    (h : MoreDigits (10 * m + d) cs n) : MoreDigits m (c :: cs) n
  | underscore {m d n : ℕ} {c : Char} {cs : List Char} (hc : Text.digitValue? c = some d)
    (h : MoreDigits (10 * m + d) cs n) : MoreDigits m ('_' :: c :: cs) n

/-- An integer without a sign, and its value. -/
inductive IsMagnitude : List Char → ℕ → Prop where
  | intro {d n : ℕ} {c : Char} {cs : List Char} (hc : Text.digitValue? c = some d) (h : MoreDigits d cs n) :
    IsMagnitude (c :: cs) n

/-- An integer and its value. -/
inductive IsInteger : List Char → ℤ → Prop where
  | unsigned {cs : List Char} {n : ℕ} (h : IsMagnitude cs n) : IsInteger cs n
  | plus {cs : List Char} {n : ℕ} (h : IsMagnitude cs n) : IsInteger ('+' :: cs) n
  | minus {cs : List Char} {n : ℕ} (h : IsMagnitude cs n) : IsInteger ('-' :: cs) (-n)

/-! ### Digits of all scripts -/

section

variable {c e : Char} {d : ℕ}

theorem lt_of_digitValue? (h : Text.digitValue? c = some d) : d < 10 := by
  unfold Text.digitValue? at h
  split at h
  · split at h
    · rename_i hdigit
      have hrange := isDigit_range hdigit
      obtain rfl := Option.some.inj h
      change c.toNat - 48 < 10
      omega
    · cases h
  · obtain ⟨z, hz, rfl⟩ := Option.map_eq_some_iff.mp h
    have hrange := List.find?_some (Array.find?_toList ▸ hz)
    simp only [Bool.and_eq_true, decide_eq_true_eq] at hrange
    omega

theorem asciiDigit_of_some (h : Text.digitValue? c = some d) : asciiDigit c = Char.ofNat (48 + d) := by
  rw [asciiDigit, h]
  rfl

theorem asciiDigit_of_none (h : Text.digitValue? c = none) : asciiDigit c = c := by
  rw [asciiDigit, h]

theorem digitValue?_of_isDigit (h : c.isDigit = true) : Text.digitValue? c = some (c.toNat - 48) := by
  have hrange := isDigit_range h
  rw [Text.digitValue?, if_pos (by omega), if_pos h]
  rfl

theorem ofNat_digit : ∀ d < 10, (Char.ofNat (48 + d)).isDigit = true ∧ (Char.ofNat (48 + d)).toNat - 48 = d := by
  decide

theorem isDigit_asciiDigit (h : Text.digitValue? c = some d) :
    (asciiDigit c).isDigit = true ∧ (asciiDigit c).toNat - 48 = d := by
  rw [asciiDigit_of_some h]
  exact ofNat_digit d (lt_of_digitValue? h)

theorem isDigit_asciiDigit_iff : (asciiDigit c).isDigit = true ↔ ∃ d, Text.digitValue? c = some d := by
  refine ⟨fun h => ?_, fun ⟨d, hd⟩ => (isDigit_asciiDigit hd).1⟩
  cases hc : Text.digitValue? c with
  | some d => exact ⟨d, rfl⟩
  | none =>
    rw [asciiDigit_of_none hc] at h
    rw [digitValue?_of_isDigit h] at hc
    cases hc

theorem asciiDigit_eq_iff (he : Text.digitValue? e = none) : asciiDigit c = e ↔ c = e := by
  constructor
  · intro h
    cases hc : Text.digitValue? c with
    | none => rw [← h, asciiDigit_of_none hc]
    | some d =>
      have hdigit := (isDigit_asciiDigit hc).1
      rw [h] at hdigit
      rw [digitValue?_of_isDigit hdigit] at he
      cases he
  · rintro rfl
    exact asciiDigit_of_none he

end

/-! ### Digits and underscores -/

theorem joinDigits_cons {c : Char} (hc : c ≠ '_') (behind : Bool) (cs : List Char) :
    joinDigits behind (c :: cs) = (joinDigits c.isDigit cs).map (c :: ·) := by
  rw [joinDigits, if_neg hc]

/-- The characters are digits with the value `n` once the underscores are left out, if `m` is the value of the
digits before them. -/
def JoinsTo (behind : Bool) (cs : List Char) (m n : ℕ) : Prop :=
  ∃ ds, joinDigits behind (cs.map asciiDigit) = some ds ∧ (∀ c ∈ ds, c.isDigit = true) ∧
    Nat.ofDigitChars 10 ds m = n

section

variable {behind : Bool} {c : Char} {cs : List Char} {m n d : ℕ}

theorem joinsTo_nil : JoinsTo behind [] m n ↔ m = n := by
  constructor
  · rintro ⟨ds, hds, -, hn⟩
    obtain rfl := Option.some.inj hds
    exact hn
  · exact fun h => ⟨[], rfl, nofun, h⟩

theorem joinsTo_digit (hc : Text.digitValue? c = some d) :
    JoinsTo behind (c :: cs) m n ↔ JoinsTo true cs (10 * m + d) n := by
  obtain ⟨hdigit, hvalue⟩ := isDigit_asciiDigit hc
  have hjoin : joinDigits behind ((c :: cs).map asciiDigit) =
      (joinDigits true (cs.map asciiDigit)).map (asciiDigit c :: ·) := by
    rw [List.map_cons, joinDigits_cons, hdigit]
    intro h
    rw [h] at hdigit
    cases hdigit
  have hcons : ∀ ds, Nat.ofDigitChars 10 (asciiDigit c :: ds) m = Nat.ofDigitChars 10 ds (10 * m + d) := by
    intro ds
    rw [← hvalue]
    exact Nat.ofDigitChars_cons
  constructor
  · rintro ⟨ds, hds, hall, hn⟩
    obtain ⟨ds, hrest, rfl⟩ := Option.map_eq_some_iff.mp (hjoin ▸ hds)
    exact ⟨ds, hrest, (List.forall_mem_cons.mp hall).2, (hcons ds).symm.trans hn⟩
  · rintro ⟨ds, hds, hall, hn⟩
    exact ⟨asciiDigit c :: ds, by rw [hjoin, hds]; rfl, List.forall_mem_cons.mpr ⟨hdigit, hall⟩,
      (hcons ds).trans hn⟩

theorem joinsTo_underscore : JoinsTo behind ('_' :: cs) m n ↔
    behind = true ∧ (∃ c cs' d, cs = c :: cs' ∧ Text.digitValue? c = some d) ∧ JoinsTo true cs m n := by
  have hjoin : joinDigits behind (('_' :: cs).map asciiDigit) =
      if behind && ((cs.map asciiDigit).head?.map Char.isDigit).getD false then
        joinDigits false (cs.map asciiDigit)
      else none := by
    rw [List.map_cons, asciiDigit_of_none rfl, joinDigits, if_pos rfl]
  constructor
  · rintro ⟨ds, hds, hall, hn⟩
    rw [hjoin] at hds
    split at hds
    · rename_i hcond
      obtain ⟨hbehind, hhead⟩ := Bool.and_eq_true_iff.mp hcond
      cases cs with
      | nil => cases hhead
      | cons c cs =>
        obtain ⟨d, hc⟩ := isDigit_asciiDigit_iff.mp hhead
        refine ⟨hbehind, ⟨c, cs, d, rfl, hc⟩, ?_⟩
        rw [joinsTo_digit hc, ← joinsTo_digit hc]
        exact ⟨ds, hds, hall, hn⟩
    · cases hds
  · rintro ⟨rfl, ⟨c, cs, d, rfl, hc⟩, h⟩
    -- In front of a digit it does not matter what stands behind.
    have hfront : JoinsTo false (c :: cs) m n := (joinsTo_digit hc).mpr ((joinsTo_digit hc).mp h)
    obtain ⟨ds, hds, hall, hn⟩ := hfront
    refine ⟨ds, ?_, hall, hn⟩
    rw [hjoin, if_pos, hds]
    exact (isDigit_asciiDigit hc).1

theorem not_joinsTo (hc : Text.digitValue? c = none) (hunderscore : c ≠ '_') :
    ¬ JoinsTo behind (c :: cs) m n := by
  rintro ⟨ds, hds, hall, -⟩
  rw [List.map_cons, asciiDigit_of_none hc, joinDigits_cons hunderscore] at hds
  obtain ⟨ds, -, rfl⟩ := Option.map_eq_some_iff.mp hds
  have hdigit := hall c List.mem_cons_self
  rw [digitValue?_of_isDigit hdigit] at hc
  cases hc

theorem moreDigits_iff : MoreDigits m cs n ↔ JoinsTo true cs m n := by
  constructor
  · intro h
    induction h with
    | none => exact joinsTo_nil.mpr rfl
    | digit hc _ ih => exact (joinsTo_digit hc).mpr ih
    | underscore hc _ ih =>
      exact joinsTo_underscore.mpr ⟨rfl, ⟨_, _, _, rfl, hc⟩, (joinsTo_digit hc).mpr ih⟩
  · intro h
    induction cs generalizing m with
    | nil =>
      obtain rfl := joinsTo_nil.mp h
      exact .none
    | cons c cs ih =>
      by_cases hunderscore : c = '_'
      · subst hunderscore
        obtain ⟨-, ⟨c, cs, d, rfl, hc⟩, hrest⟩ := joinsTo_underscore.mp h
        -- What is behind the underscore begins with a digit, so it does not begin with another underscore.
        cases ih hrest with
        | digit hc h => exact .underscore hc h
        | underscore => cases hc
      · cases hc : Text.digitValue? c with
        | none => exact absurd h (not_joinsTo hc hunderscore)
        | some d => exact .digit hc (ih ((joinsTo_digit hc).mp h))

end

/-! ### The reader -/

variable {cs body : List Char}

theorem allDigits?_eq_some_iff {n : ℕ} : allDigits? cs = some n ↔ Digits cs ∧ natOfDigits cs = n := by
  constructor
  · intro h
    unfold allDigits? at h
    split at h
    · rename_i hcond
      obtain ⟨hsome, hall⟩ := Bool.and_eq_true_iff.mp hcond
      refine ⟨⟨fun hnil => ?_, List.all_eq_true.mp hall⟩, Option.some.inj h⟩
      rw [hnil] at hsome
      cases hsome
    · cases h
  · rintro ⟨hcs, rfl⟩
    exact allDigits?_eq hcs

theorem head?_of_joinDigits {ds : List Char} (h : joinDigits false cs = some ds) : ds.head? = cs.head? := by
  cases cs with
  | nil =>
    obtain rfl := Option.some.inj h
    rfl
  | cons c cs =>
    by_cases hunderscore : c = '_'
    · subst hunderscore
      cases h
    · rw [joinDigits_cons hunderscore] at h
      obtain ⟨ds, -, rfl⟩ := Option.map_eq_some_iff.mp h
      rfl

theorem joinsTo_iff {n : ℕ} : cs ≠ [] ∧ JoinsTo false cs 0 n ↔
    ∃ ds, joinDigits false (cs.map asciiDigit) = some ds ∧ allDigits? ds = some n := by
  constructor
  · rintro ⟨hne, ds, hds, hall, hn⟩
    refine ⟨ds, hds, allDigits?_eq_some_iff.mpr ⟨⟨?_, hall⟩, hn⟩⟩
    rintro rfl
    have hhead := head?_of_joinDigits hds
    rw [List.head?_map, List.head?_eq_some_head hne] at hhead
    cases hhead
  · rintro ⟨ds, hds, hall⟩
    obtain ⟨hdigits, hn⟩ := allDigits?_eq_some_iff.mp hall
    refine ⟨?_, ds, hds, hdigits.isDigit, hn⟩
    rintro rfl
    exact hdigits.ne_nil (Option.some.inj hds).symm

theorem isMagnitude_iff {n : ℕ} :
    IsMagnitude cs n ↔ ∃ ds, joinDigits false (cs.map asciiDigit) = some ds ∧ allDigits? ds = some n := by
  rw [← joinsTo_iff]
  constructor
  · rintro ⟨hc, h⟩
    refine ⟨List.cons_ne_nil _ _, (joinsTo_digit hc).mpr ?_⟩
    rw [Nat.mul_zero, Nat.zero_add]
    exact moreDigits_iff.mp h
  · rintro ⟨hne, h⟩
    obtain ⟨c, cs, rfl⟩ := List.exists_cons_of_ne_nil hne
    by_cases hunderscore : c = '_'
    · subst hunderscore
      cases (joinsTo_underscore.mp h).1
    · cases hc : Text.digitValue? c with
      | none => exact absurd h (not_joinsTo hc hunderscore)
      | some d =>
        have hmore := (joinsTo_digit hc).mp h
        rw [Nat.mul_zero, Nat.zero_add] at hmore
        exact .intro hc (moreDigits_iff.mpr hmore)

theorem splitSign_of_head? (h : ∀ c ∈ cs.head?, c ≠ '-' ∧ c ≠ '+') : splitSign cs = (false, cs) := by
  unfold splitSign
  split
  · exact absurd rfl (h '-' rfl).1
  · exact absurd rfl (h '+' rfl).2
  · rfl

theorem joinDigits_sign {c : Char} (hc : c = '-' ∨ c = '+') (cs : List Char) :
    joinDigits false ((c :: cs).map asciiDigit) =
      (joinDigits false (cs.map asciiDigit)).map (c :: ·) := by
  rcases hc with rfl | rfl <;> rfl

theorem isInteger_iff {n : ℤ} : IsInteger body n ↔
    ∃ ds, joinDigits false (body.map asciiDigit) = some ds ∧
      ∃ m : ℕ, allDigits? (splitSign ds).2 = some m ∧ (if (splitSign ds).1 then -(m : ℤ) else m) = n := by
  constructor
  · rintro (h | h | h)
    · obtain ⟨ds, hds, hm⟩ := isMagnitude_iff.mp h
      have hsign : splitSign ds = (false, ds) := by
        refine splitSign_of_head? fun c hc => ?_
        have hdigit := (allDigits?_eq_some_iff.mp hm).1.isDigit c (List.mem_of_mem_head? hc)
        constructor <;> exact fun h => absurd hdigit (h ▸ Bool.false_ne_true)
      exact ⟨ds, hds, _, by rwa [hsign], by rw [hsign]; rfl⟩
    · obtain ⟨ds, hds, hm⟩ := isMagnitude_iff.mp h
      exact ⟨'+' :: ds, by rw [joinDigits_sign (Or.inr rfl), hds]; rfl, _, hm, rfl⟩
    · obtain ⟨ds, hds, hm⟩ := isMagnitude_iff.mp h
      exact ⟨'-' :: ds, by rw [joinDigits_sign (Or.inl rfl), hds]; rfl, _, hm, rfl⟩
  · rintro ⟨ds, hds, m, hm, hn⟩
    cases body with
    | nil =>
      obtain rfl := Option.some.inj hds
      cases hm
    | cons c cs =>
      by_cases hsign : c = '-' ∨ c = '+'
      · rw [joinDigits_sign hsign] at hds
        obtain ⟨ds, hrest, rfl⟩ := Option.map_eq_some_iff.mp hds
        rcases hsign with rfl | rfl
        · exact hn ▸ .minus (isMagnitude_iff.mpr ⟨ds, hrest, hm⟩)
        · exact hn ▸ .plus (isMagnitude_iff.mpr ⟨ds, hrest, hm⟩)
      · obtain ⟨hminus, hplus⟩ := not_or.mp hsign
        have hunsigned : splitSign ds = (false, ds) := by
          refine splitSign_of_head? fun e he => ?_
          rw [head?_of_joinDigits hds] at he
          obtain rfl := Option.some.inj he
          exact ⟨fun h => hminus ((asciiDigit_eq_iff rfl).mp h), fun h => hplus ((asciiDigit_eq_iff rfl).mp h)⟩
        rw [hunsigned] at hm hn
        exact hn ▸ .unsigned (isMagnitude_iff.mpr ⟨ds, hds, hm⟩)

/-! ### How many digits -/

/-- The digits in a text. -/
def digitCount (cs : List Char) : ℕ := cs.countP fun c => (Text.digitValue? c).isSome

theorem digitCount_eq (cs : List Char) : digitCount cs = (cs.map asciiDigit).countP Char.isDigit := by
  rw [digitCount, List.countP_map]
  refine List.countP_congr fun c _ => ?_
  rw [Function.comp, isDigit_asciiDigit_iff, Option.isSome_iff_exists]

theorem countP_of_joinDigits {behind : Bool} {ds : List Char} (h : joinDigits behind cs = some ds) :
    ds.countP Char.isDigit = cs.countP Char.isDigit := by
  induction cs generalizing behind ds with
  | nil =>
    obtain rfl := Option.some.inj h
    rfl
  | cons c cs ih =>
    by_cases hunderscore : c = '_'
    · rw [joinDigits, if_pos hunderscore] at h
      have hc : ¬ c.isDigit = true := by
        rw [hunderscore]
        decide
      rw [List.countP_cons_of_neg hc]
      split at h
      · exact ih h
      · cases h
    · rw [joinDigits_cons hunderscore] at h
      obtain ⟨ds, hrest, rfl⟩ := Option.map_eq_some_iff.mp h
      rw [List.countP_cons, List.countP_cons, ih hrest]

theorem countP_splitSign (cs : List Char) : (splitSign cs).2.countP Char.isDigit = cs.countP Char.isDigit := by
  unfold splitSign
  split
  · exact (List.countP_cons_of_neg (by decide)).symm
  · exact (List.countP_cons_of_neg (by decide)).symm
  · rfl

/-- The digits that the reader finds are those of the text. -/
theorem length_of_joinDigits {ds : List Char} {n : ℕ} (h : joinDigits false (cs.map asciiDigit) = some ds)
    (hn : allDigits? (splitSign ds).2 = some n) : (splitSign ds).2.length = digitCount cs := by
  have hdigits := (allDigits?_eq_some_iff.mp hn).1.isDigit
  rw [digitCount_eq, ← countP_of_joinDigits h, ← countP_splitSign, List.countP_eq_length.mpr hdigits]

theorem natOfDigits_lt (hcs : ∀ c ∈ cs, c.isDigit = true) : natOfDigits cs < 10 ^ cs.length := by
  induction cs using List.reverseRecOn with
  | nil => exact Nat.one_pos
  | append_singleton cs c ih =>
    have hrange := isDigit_range (hcs c (List.mem_append_right _ List.mem_cons_self))
    have hrest := ih fun d hd => hcs d (List.mem_append_left _ hd)
    have hvalue : natOfDigits (cs ++ [c]) = 10 * natOfDigits cs + (c.toNat - 48) := by
      rw [natOfDigits, List.foldl_append]
      rfl
    rw [hvalue, List.length_append, List.length_singleton, pow_succ]
    omega

/-- An integer has no more digits than a text that denotes it. -/
theorem length_digitChars_le {n : ℤ} (h : IsInteger body n) :
    (digitChars n.natAbs).length ≤ digitCount body := by
  obtain ⟨ds, hds, m, hm, rfl⟩ := isInteger_iff.mp h
  have hdigits := (allDigits?_eq_some_iff.mp hm).1
  have habs : (if (splitSign ds).1 then -(m : ℤ) else m).natAbs = m := by
    split <;> simp
  rw [habs, ← length_of_joinDigits hds hm, ← (allDigits?_eq_some_iff.mp hm).2]
  exact (Nat.length_toDigits_le_iff (by norm_num) (List.length_pos_iff.mpr hdigits.ne_nil)).mpr
    (natOfDigits_lt hdigits.isDigit)

/-- A text is read as an integer just if it is one with blanks around it and its digits are within the limit. -/
theorem integer?_eq_some_iff {limit : Option ℕ} {text : String} {n : ℤ} :
    integer? limit text = some n ↔ ∃ body, Text.Wraps isIntegerBlank text.toList body ∧ IsInteger body n ∧
      Text.withinLimit limit (digitCount body) = true := by
  have hread : integer? limit text = some n ↔ IsInteger (trimInteger text.toList) n ∧
      Text.withinLimit limit (digitCount (trimInteger text.toList)) = true := by
    rw [isInteger_iff, integer?]
    simp only [Option.bind_eq_bind, Option.bind_eq_some_iff, Option.pure_def]
    constructor
    · rintro ⟨ds, hds, m, hm, h⟩
      split at h
      · rename_i hlimit
        rw [length_of_joinDigits hds hm] at hlimit
        exact ⟨⟨ds, hds, m, hm, Option.some.inj h⟩, hlimit⟩
      · cases h
    · rintro ⟨⟨ds, hds, m, hm, h⟩, hlimit⟩
      rw [← length_of_joinDigits hds hm] at hlimit
      exact ⟨ds, hds, m, hm, by rw [if_pos hlimit, h]⟩
  rw [hread]
  constructor
  · exact fun h => ⟨_, Text.trimmed_eq_iff.mp rfl, h⟩
  · rintro ⟨body, hbody, h⟩
    rwa [trimInteger, ← List.rdropWhile, Text.trimmed_eq_iff.mpr hbody]

end Decimal

end Lox
