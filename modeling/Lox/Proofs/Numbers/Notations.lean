import Lox.Proofs.Numbers.Numerals
import Lox.Proofs.Numbers.Search

/-!
# What the notations denote

Each notation of a finite double is a numeral with the sign of the double and the exact value of its shortest
decimal, which is in the rounding interval and so reads back.
-/

namespace Lox.Decimal

/-! ### Significant digits -/

theorem dropBack_append (last : Char) (cs : List Char) (n : ℕ) :
    dropBack last (cs ++ List.replicate n last) = dropBack last cs := by
  have hlast : ∀ c ∈ List.replicate n last, (c == last) = true := fun c hc =>
    beq_iff_eq.mpr (List.eq_of_mem_replicate hc)
  rw [dropBack, dropBack, List.reverse_append, List.reverse_replicate, List.dropWhile_append_of_pos hlast]

theorem dropBack_eq_self {last : Char} {cs : List Char} (h : cs.getLast? ≠ some last) :
    dropBack last cs = cs := by
  cases cs using List.reverseRecOn with
  | nil => rfl
  | append_singleton cs c =>
    have hc : ¬ (c == last) = true := by
      rw [beq_iff_eq]
      rintro rfl
      exact h List.getLast?_concat
    have hdrop : (c :: cs.reverse).dropWhile (· == last) = c :: cs.reverse := List.dropWhile_cons_of_neg hc
    rw [dropBack, List.reverse_concat, hdrop, List.reverse_cons, List.reverse_reverse]

theorem exists_dropBack_append (last : Char) (cs : List Char) :
    ∃ n, cs = dropBack last cs ++ List.replicate n last := by
  have hsplit := List.takeWhile_append_dropWhile (p := (· == last)) (l := cs.reverse)
  have hback := List.eq_replicate_of_mem (l := cs.reverse.takeWhile (· == last)) fun c hc =>
    eq_of_beq (List.all_eq_true.mp List.all_takeWhile c hc)
  refine ⟨(cs.reverse.takeWhile (· == last)).length, ?_⟩
  rw [dropBack, ← List.reverse_replicate, ← hback, ← List.reverse_append, hsplit, List.reverse_reverse]

theorem significantDigits_append (n : ℕ) :
    ∃ zeros, digitChars n = significantDigits n ++ List.replicate zeros '0' :=
  exists_dropBack_append '0' (digitChars n)

theorem getLast?_significantDigits (n : ℕ) : (significantDigits n).getLast? ≠ some '0' := by
  rw [significantDigits, dropBack, List.getLast?_reverse]
  intro h
  have hhead := List.head?_dropWhile_not (· == '0') (digitChars n).reverse
  rw [h] at hhead
  cases hhead

theorem digits_significantDigits {n : ℕ} (hn : 0 < n) : Digits (significantDigits n) := by
  obtain ⟨zeros, hzeros⟩ := significantDigits_append n
  refine ⟨fun hnil => ?_, fun c hc => (digits_digitChars n).isDigit c ?_⟩
  · have hvalue := natOfDigits_digitChars n
    rw [hzeros, hnil, List.nil_append, natOfDigits_zeros] at hvalue
    omega
  · rw [hzeros]
    exact List.mem_append_left _ hc

theorem value_significantDigits (d : Scaled) :
    (natOfDigits (significantDigits d.digits) : ℚ) *
      10 ^ ((digitChars d.digits).length + d.exponent - (significantDigits d.digits).length) = d.value := by
  obtain ⟨zeros, hzeros⟩ := significantDigits_append d.digits
  have hvalue := natOfDigits_digitChars d.digits
  rw [hzeros, natOfDigits_append, natOfDigits_zeros, List.length_replicate, add_zero] at hvalue
  have hcast : (d.digits : ℚ) = 10 ^ zeros * natOfDigits (significantDigits d.digits) := by
    exact_mod_cast hvalue.symm
  have hexponent : ((digitChars d.digits).length : ℤ) + d.exponent - (significantDigits d.digits).length =
      zeros + d.exponent := by
    rw [hzeros, List.length_append, List.length_replicate]
    omega
  rw [hexponent, zpow_add₀ (by norm_num), zpow_natCast, Scaled.value, hcast]
  ring

/-! ### Positions and exponents -/

theorem digits_zero : Digits ['0'] :=
  ⟨List.cons_ne_nil _ _, fun c hc => by
    rw [List.mem_singleton.mp hc]
    rfl⟩

theorem isDigit_of_mem_zeros {n : ℕ} {c : Char} (h : c ∈ List.replicate n '0') : c.isDigit = true := by
  rw [List.eq_of_mem_replicate h]
  rfl

theorem Digits.append_zeros {ds : List Char} (hds : Digits ds) (n : ℕ) :
    Digits (ds ++ List.replicate n '0') :=
  ⟨fun h => hds.ne_nil (List.append_eq_nil_iff.mp h).1,
    fun c hc => (List.mem_append.mp hc).elim (hds.isDigit c) isDigit_of_mem_zeros⟩

theorem Digits.zeros_append {ds : List Char} (hds : Digits ds) (n : ℕ) :
    Digits (List.replicate n '0' ++ ds) :=
  ⟨fun h => hds.ne_nil (List.append_eq_nil_iff.mp h).2,
    fun c hc => (List.mem_append.mp hc).elim isDigit_of_mem_zeros (hds.isDigit c)⟩

theorem Digits.take {ds : List Char} (hds : Digits ds) {n : ℕ} (hn : 0 < n) : Digits (ds.take n) :=
  ⟨fun h => (List.take_eq_nil_iff.mp h).elim hn.ne' hds.ne_nil,
    fun c hc => hds.isDigit c (List.mem_of_mem_take hc)⟩

theorem Digits.drop {ds : List Char} (hds : Digits ds) {n : ℕ} (hn : n < ds.length) : Digits (ds.drop n) :=
  ⟨fun h => absurd (List.drop_eq_nil_iff.mp h) hn.not_ge, fun c hc => hds.isDigit c (List.mem_of_mem_drop hc)⟩

/-- What a notation puts behind an integral value. -/
def IsTail (tail : List Char) : Prop := tail = [] ∨ tail = ['.', '0']

variable {ds tail : List Char}

theorem denotes_positionalChars (hds : Digits ds) (htail : IsTail tail) (point : ℤ) :
    ∃ d, Denotes (positionalChars tail ds point) d ∧
      d.value = natOfDigits ds * 10 ^ (point - ds.length) := by
  unfold positionalChars
  split_ifs with hsmall hlarge
  · have hbody := Denotes.withPoint digits_zero (hds.zeros_append (-point).toNat) exponentText_nil
    rw [List.append_nil] at hbody
    refine ⟨_, hbody, ?_⟩
    have hvalue : natOfDigits (['0'] ++ (List.replicate (-point).toNat '0' ++ ds)) = natOfDigits ds := by
      rw [natOfDigits_append, natOfDigits_append, natOfDigits_zeros]
      norm_num [natOfDigits]
    rw [Scaled.value, hvalue, List.length_append, List.length_replicate]
    dsimp only
    congr 2
    omega
  · have hlong := hds.append_zeros (point.toNat - ds.length)
    have hscale : ((natOfDigits (ds ++ List.replicate (point.toNat - ds.length) '0') : ℕ) : ℚ) =
        natOfDigits ds * 10 ^ (point - ds.length) := by
      rw [natOfDigits_append, natOfDigits_zeros, List.length_replicate, add_zero, Nat.cast_mul, Nat.cast_pow,
        Nat.cast_ofNat, ← zpow_natCast, mul_comm]
      congr 2
      omega
    rcases htail with rfl | rfl
    · refine ⟨_, Denotes.ofDigits hlong exponentText_nil, ?_⟩
      rw [Scaled.value, hscale, zpow_zero, mul_one]
    · refine ⟨_, Denotes.withPoint hlong digits_zero exponentText_nil, ?_⟩
      rw [Scaled.value, natOfDigits_append, ← hscale]
      norm_num [natOfDigits]
      ring
  · have hbody := Denotes.withPoint (hds.take (n := point.toNat) (by omega))
      (hds.drop (n := point.toNat) (by omega)) exponentText_nil
    rw [List.append_nil] at hbody
    refine ⟨_, hbody, ?_⟩
    rw [Scaled.value, List.take_append_drop, List.length_drop]
    dsimp only
    congr 2
    omega

theorem exponentText_written (e : ℤ) : ExponentText ('e' :: (if e < 0 then '-' else '+') ::
    (if (digitChars e.natAbs).length < 2 then '0' :: digitChars e.natAbs else digitChars e.natAbs)) e := by
  obtain ⟨magnitude, hmagnitude⟩ : ∃ cs, cs =
      if (digitChars e.natAbs).length < 2 then '0' :: digitChars e.natAbs else digitChars e.natAbs := ⟨_, rfl⟩
  have hdigits : Digits magnitude ∧ natOfDigits magnitude = e.natAbs := by
    rw [hmagnitude]
    split
    · exact ⟨(digits_digitChars _).zeros_append 1, natOfDigits_digitChars _⟩
    · exact ⟨digits_digitChars _, natOfDigits_digitChars _⟩
  rw [← hmagnitude]
  refine ⟨rfl, nofun, ?_, ?_⟩
  · intro c hc
    rcases List.mem_cons.mp hc with rfl | hc
    · rfl
    rcases List.mem_cons.mp hc with rfl | hc
    · split <;> rfl
    · exact isNumeralChar_digit (hdigits.1.isDigit c hc)
  · rw [exponentPart?, if_pos (Or.inl rfl)]
    by_cases he : e < 0
    · rw [if_pos he, splitSign]
      dsimp only
      rw [allDigits?_eq hdigits.1, hdigits.2]
      change some (-(e.natAbs : ℤ)) = some e
      congr 1
      omega
    · rw [if_neg he, splitSign]
      dsimp only
      rw [allDigits?_eq hdigits.1, hdigits.2]
      change some (e.natAbs : ℤ) = some e
      congr 1
      omega

theorem denotes_exponentChars (hds : Digits ds) (e : ℤ) :
    ∃ d, Denotes (exponentChars ds e) d ∧ d.value = natOfDigits ds * 10 ^ (e + 1 - ds.length) := by
  have hlead := hds.take one_pos
  unfold exponentChars
  dsimp only
  by_cases hone : (ds.drop 1).isEmpty = true
  · rw [if_pos hone]
    have hnil := List.isEmpty_iff.mp hone
    have hall : ds.take 1 = ds := by
      have happend := List.take_append_drop 1 ds
      rwa [hnil, List.append_nil] at happend
    have hlength : ds.length = 1 := by
      have := List.drop_eq_nil_iff.mp hnil
      have := List.length_pos_iff.mpr hds.ne_nil
      omega
    refine ⟨_, Denotes.ofDigits hlead (exponentText_written e), ?_⟩
    rw [Scaled.value, hall, hlength]
    dsimp only
    congr 2
    omega
  · rw [if_neg hone, List.append_assoc]
    have hmore : 1 < ds.length := by
      by_contra h
      exact hone (List.isEmpty_iff.mpr (List.drop_eq_nil_iff.mpr (by omega)))
    refine ⟨_, Denotes.withPoint hlead (hds.drop hmore) (exponentText_written e), ?_⟩
    rw [Scaled.value, List.take_append_drop, List.length_drop]
    dsimp only
    congr 2
    omega

theorem denotes_chars {style : Style} (htail : IsTail style.integralTail) {d : Scaled} (hd : 0 < d.digits) :
    ∃ d', Denotes (d.chars style) d' ∧ d'.value = d.value := by
  have hds := digits_significantDigits hd
  have hvalue := value_significantDigits d
  unfold Scaled.chars
  dsimp only
  split
  · obtain ⟨d', hbody, hd'⟩ := denotes_positionalChars hds htail ((digitChars d.digits).length + d.exponent)
    exact ⟨d', hbody, hd'.trans hvalue⟩
  · obtain ⟨d', hbody, hd'⟩ := denotes_exponentChars hds ((digitChars d.digits).length + d.exponent - 1)
    rw [sub_add_cancel] at hd'
    exact ⟨d', hbody, hd'.trans hvalue⟩

/-! ### Finite doubles -/

/-- The decimal that is written for a finite double. -/
def magnitude (m : ℕ) (q : ℤ) : ℚ := if m = 0 then 0 else (shortest m q).value

theorem exists_finite {x : Float} (h : x.isFinite = true) :
    ∃ negative m q, Binary.ofFloat x = .finite negative m q := by
  have hagrees : Agrees x.toModel.unpack (Binary.ofFloat x) := agrees_unpack x.toBits.toBitVec
  change x.toModel.unpack.isFinite = true at h
  generalize x.toModel.unpack = f at h hagrees
  cases f with
  | notANumber => cases h
  | infinity s => cases h
  | zero s => exact ⟨_, _, _, hagrees⟩
  | finite s m q hm => exact ⟨_, _, _, hagrees.1⟩

/-- The characters of a finite double behind its sign. -/
def unsignedChars (style : Style) (m : ℕ) (q : ℤ) : List Char :=
  if m = 0 then '0' :: style.integralTail else (shortest m q).chars style

section

variable {x : Float} {negative : Bool} {m : ℕ} {q : ℤ} (hx : Binary.ofFloat x = .finite negative m q)
  (style : Style)

include hx

theorem write_finite : style.write x = String.ofList (signed negative (unsignedChars style m q)) := by
  rw [Style.write, hx]
  rfl

/-- What is written denotes the shortest decimal, and its nearest double is the one that was written. -/
theorem denotes_unsignedChars (htail : IsTail style.integralTail) :
    ∃ d, Denotes (unsignedChars style m q) d ∧ d.value = magnitude m q ∧
      (if negative then -nearestFloat d.digits d.exponent else nearestFloat d.digits d.exponent) = x := by
  have hdouble := hx ▸ double_ofFloat x
  cases hdouble with
  | zero =>
    rcases htail with h | h
    · refine ⟨⟨0, 0⟩, ?_, ?_, rfl⟩
      · rw [unsignedChars, if_pos rfl, h]
        exact Denotes.ofDigits digits_zero exponentText_nil
      · rw [Scaled.value, Nat.cast_zero, zero_mul]
        rfl
    · refine ⟨⟨0, -1⟩, ?_, ?_, rfl⟩
      · rw [unsignedChars, if_pos rfl, h]
        exact Denotes.withPoint digits_zero digits_zero exponentText_nil
      · rw [Scaled.value, Nat.cast_zero, zero_mul]
        rfl
  | finite _ hc =>
    obtain ⟨d, hbody, hd⟩ := denotes_chars htail (shortest_pos hc)
    have hround : RoundsTo m q (d.digits * 10 ^ d.exponent) := by
      have hshortest := shortest_roundsTo hc
      change RoundsTo m q (Scaled.value _) at hshortest
      rwa [← hd] at hshortest
    refine ⟨d, ?_, ?_, ?_⟩
    · rwa [unsignedChars, if_neg hc.pos.ne']
    · rw [hd, magnitude, if_neg hc.pos.ne']
    · rw [nearestFloat_eq hc hround]

theorem decimal?_write (htail : IsTail style.integralTail) :
    decimal? (style.write x) = some (negative, magnitude m q) := by
  obtain ⟨d, hbody, hd, -⟩ := denotes_unsignedChars hx style htail
  rw [write_finite hx, hbody.decimal?_signed, hd]

theorem float?_write (htail : IsTail style.integralTail) : float? (style.write x) = some x := by
  obtain ⟨d, hbody, -, hread⟩ := denotes_unsignedChars hx style htail
  rw [write_finite hx, hbody.float?_signed, hread]

end

/-! ### Decimals without idle zeros -/

/-- Never an exponent, and no point in integral values. -/
def Style.plain : Style where
  positional _ := true
  integralTail := []
  nan := "NaN"

theorem digitChars_scale {n : ℕ} (hn : 0 < n) (k : ℕ) :
    digitChars (n * 10 ^ k) = digitChars n ++ List.replicate k '0' := by
  induction k with
  | zero => rw [pow_zero, mul_one, List.replicate_zero, List.append_nil]
  | succ k ih =>
    have happend : digitChars (10 * (n * 10 ^ k) + 0) = digitChars (n * 10 ^ k) ++ digitChars 0 :=
      (Nat.toDigits_append_toDigits (by norm_num) (Nat.mul_pos hn (by positivity)) (by norm_num)).symm
    have hpower : n * 10 ^ (k + 1) = 10 * (n * 10 ^ k) + 0 := by ring
    rw [hpower, happend, ih, List.append_assoc, List.replicate_succ']
    rfl

theorem significantDigits_scale {n : ℕ} (hn : 0 < n) (k : ℕ) :
    significantDigits (n * 10 ^ k) = significantDigits n := by
  rw [significantDigits, digitChars_scale hn, dropBack_append, significantDigits]

/-- What is written of a decimal without an exponent depends on its value alone. -/
theorem chars_plain_congr {d d' : Scaled} (hd : 0 < d.digits) (hd' : 0 < d'.digits)
    (h : d'.value = d.value) : d'.chars .plain = d.chars .plain := by
  wlog hle : d'.exponent ≤ d.exponent generalizing d d'
  · exact (this hd' hd h.symm (le_of_not_ge hle)).symm
  obtain ⟨k, hk⟩ := Int.eq_ofNat_of_zero_le (sub_nonneg.mpr hle)
  have hexponent : d.exponent = d'.exponent + k := by omega
  have hdigits : d'.digits = d.digits * 10 ^ k := by
    have hpos : (0 : ℚ) < 10 ^ d'.exponent := by positivity
    rw [Scaled.value, Scaled.value, hexponent, zpow_add₀ (by norm_num), zpow_natCast] at h
    have hcast : (d'.digits : ℚ) = d.digits * 10 ^ k := by
      refine mul_right_cancel₀ hpos.ne' (h.trans ?_)
      ring
    exact_mod_cast hcast
  have hpoint : ((digitChars d'.digits).length : ℤ) + d'.exponent = (digitChars d.digits).length + d.exponent := by
    rw [hdigits, digitChars_scale hd, List.length_append, List.length_replicate]
    omega
  rw [Scaled.chars, Scaled.chars, hpoint, hdigits, significantDigits_scale hd]

theorem dropBack_digits {digits : List Char} (h : Digits digits) (front : List Char) :
    dropBack '.' (front ++ digits) = front ++ digits := by
  refine dropBack_eq_self fun hlast => ?_
  rw [List.getLast?_append_of_ne_nil _ h.ne_nil] at hlast
  cases h.isDigit _ (List.mem_of_getLast? hlast)

section

variable (front : List Char) {digits : List Char} (hdigits : Digits digits)

include hdigits

theorem withoutIdleZeros_decimals (hlast : digits.getLast? ≠ some '0') (k : ℕ) :
    withoutIdleZeros (front ++ '.' :: (digits ++ List.replicate k '0')) = front ++ '.' :: digits := by
  have hassoc : ∀ cs : List Char, front ++ '.' :: cs = front ++ ['.'] ++ cs := by simp
  have hback : (front ++ ['.'] ++ digits).getLast? ≠ some '0' := by
    rwa [List.getLast?_append_of_ne_nil _ hdigits.ne_nil]
  rw [withoutIdleZeros, if_pos (by simp), hassoc (digits ++ _), ← List.append_assoc, dropBack_append,
    dropBack_eq_self hback, dropBack_digits hdigits, hassoc digits]

theorem withoutIdleZeros_point (k : ℕ) :
    withoutIdleZeros (front ++ digits ++ '.' :: List.replicate k '0') = front ++ digits := by
  have hassoc : front ++ digits ++ '.' :: List.replicate k '0' =
      front ++ digits ++ ['.'] ++ List.replicate k '0' := by simp
  have hback : (front ++ digits ++ ['.']).getLast? ≠ some '0' := by
    rw [List.getLast?_concat]
    decide
  rw [withoutIdleZeros, if_pos (by simp), hassoc, dropBack_append, dropBack_eq_self hback]
  exact (dropBack_append '.' _ 1).trans (dropBack_digits hdigits front)

theorem withoutIdleZeros_whole (hfront : '.' ∉ front) :
    withoutIdleZeros (front ++ digits) = front ++ digits := by
  rw [withoutIdleZeros, if_neg]
  rw [List.contains_iff_mem, List.mem_append, not_or]
  refine ⟨hfront, fun h => ?_⟩
  cases hdigits.isDigit _ h

end

/-- Zeros that say nothing are taken away from a decimal at its places, whatever stands in front of it. -/
theorem withoutIdleZeros_fixedChars {front : List Char} (hfront : '.' ∉ front) {d : Scaled}
    (hd : 0 < d.digits) : withoutIdleZeros (front ++ d.fixedChars) = front ++ d.chars .plain := by
  obtain ⟨k, hk⟩ := significantDigits_append d.digits
  have hds := digits_significantDigits hd
  have hlast := getLast?_significantDigits d.digits
  have hplain : d.chars .plain =
      positionalChars [] (significantDigits d.digits) ((digitChars d.digits).length + d.exponent) := by
    rw [Scaled.chars]
    exact if_pos rfl
  rw [hplain, Scaled.fixedChars]
  generalize ((digitChars d.digits).length : ℤ) + d.exponent = point
  rw [hk]
  generalize significantDigits d.digits = ds at hds hlast
  have hlength : (ds ++ List.replicate k '0').length = ds.length + k := by
    rw [List.length_append, List.length_replicate]
  by_cases hsmall : point ≤ 0
  · -- All digits are decimals.
    have hdecimals := withoutIdleZeros_decimals (front ++ ['0']) (hds.zeros_append (-point).toNat)
      (by rwa [List.getLast?_append_of_ne_nil _ hds.ne_nil]) k
    rw [positionalChars, positionalChars, if_pos hsmall, if_pos hsmall]
    simpa only [List.append_assoc, List.singleton_append] using hdecimals
  rw [positionalChars, positionalChars, if_neg hsmall, if_neg hsmall, hlength, List.append_nil, List.append_nil]
  by_cases hwhole : ((ds.length + k : ℕ) : ℤ) ≤ point
  · -- There is no point, and all zeros stay.
    have hmore : (ds.length : ℤ) ≤ point := by omega
    have hzeros : List.replicate k '0' ++ List.replicate (point.toNat - (ds.length + k)) '0' =
        List.replicate (point.toNat - ds.length) '0' := by
      rw [List.replicate_append_replicate]
      congr 1
      omega
    rw [if_pos hwhole, if_pos hmore, List.append_assoc, hzeros,
      withoutIdleZeros_whole front (hds.append_zeros _) hfront]
  rw [if_neg hwhole]
  by_cases hmore : (ds.length : ℤ) ≤ point
  · -- All decimals are zeros.
    obtain ⟨n, hn⟩ : ∃ n, point.toNat = ds.length + n := ⟨point.toNat - ds.length, by omega⟩
    have htake : (ds ++ List.replicate k '0').take point.toNat = ds ++ List.replicate n '0' := by
      rw [hn, List.take_append, List.take_of_length_le (by omega), Nat.add_sub_cancel_left, List.take_replicate]
      congr 2
      omega
    have hdrop : (ds ++ List.replicate k '0').drop point.toNat = List.replicate (k - n) '0' := by
      rw [hn, List.drop_append, List.drop_of_length_le (by omega), Nat.add_sub_cancel_left, List.drop_replicate,
        List.nil_append]
    rw [if_pos hmore, htake, hdrop, hn, Nat.add_sub_cancel_left, ← List.append_assoc front,
      withoutIdleZeros_point front (hds.append_zeros n)]
  · -- The point is among the significant digits.
    have hbetween : point.toNat < ds.length := by omega
    have htake : (ds ++ List.replicate k '0').take point.toNat = ds.take point.toNat :=
      List.take_append_of_le_length hbetween.le
    have hdrop : (ds ++ List.replicate k '0').drop point.toNat = ds.drop point.toNat ++ List.replicate k '0' :=
      List.drop_append_of_le_length hbetween.le
    rw [if_neg hmore, htake, hdrop, ← List.append_assoc front, withoutIdleZeros_decimals _ (hds.drop hbetween)
      (by rwa [List.getLast?_drop, if_neg (by omega)]), List.append_assoc]

/-- A number is printed with its shortest decimal, without an exponent and with a point only before decimals. -/
theorem plain_eq (x : Float) : plain x = Style.plain.write x := by
  obtain ⟨b, hb⟩ : ∃ b, Binary.ofFloat x = b := ⟨_, rfl⟩
  have hdouble := hb ▸ double_ofFloat x
  cases b with
  | nan | infinite negative => simp only [plain, Style.write, hb, Style.plain]
  | finite negative m q =>
    obtain ⟨d, hbody, hvalue, -⟩ := denotes_unsignedChars hb .marked (Or.inr rfl)
    have htext : (marked x).toList = signed negative (unsignedChars .marked m q) := by
      rw [marked, write_finite hb, String.toList_ofList]
    have hplain : plain x = String.ofList (withoutIdleZeros (signed negative d.fixedChars)) := by
      rw [plain, hb, htext, hbody.splitSign_signed]
      dsimp only
      rw [hbody.reads]
      rfl
    have hsigned : ∀ cs, signed negative cs = signed negative [] ++ cs := by
      intro cs
      cases negative <;> rfl
    have hfront : '.' ∉ signed negative [] := by
      cases negative <;> decide
    rw [hplain, write_finite hb]
    congr 1
    cases hdouble with
    | zero =>
      obtain rfl : (⟨0, -1⟩ : Scaled) = d := Option.some.inj hbody.reads
      cases negative <;> rfl
    | finite _ hc =>
      have hpos := shortest_pos hc
      rw [magnitude, if_neg hc.pos.ne'] at hvalue
      have hd : 0 < d.digits := by
        refine Nat.pos_of_ne_zero fun hzero => ?_
        rw [Scaled.value, hzero, Nat.cast_zero, zero_mul, Scaled.value] at hvalue
        have hpower : (0 : ℚ) < 10 ^ (shortest m q).exponent := by positivity
        have hdigits : (0 : ℚ) < (shortest m q).digits := by exact_mod_cast hpos
        exact (mul_pos hdigits hpower).ne hvalue
      rw [hsigned, hsigned (unsignedChars _ _ _), withoutIdleZeros_fixedChars hfront hd,
        chars_plain_congr hpos hd hvalue, unsignedChars, if_neg hc.pos.ne']

end Lox.Decimal
