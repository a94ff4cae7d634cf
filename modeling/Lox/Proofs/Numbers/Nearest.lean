import Lox.Proofs.Numbers.Doubles

/-!
# Reading the nearest double

A decimal is read by way of a product or a quotient that is rounded once, and so as the double in whose
rounding interval it lies.
-/

namespace Lox.Decimal

open Float.Model Float.Model.UnpackedFloat

/-! ### Bounds of intervals -/

namespace RoundsTo

variable {m : ℕ} {q : ℤ} {v : ℚ}

theorem self (hm : 0 < m) (q : ℤ) : RoundsTo m q (m * 2 ^ q) := by
  have hunit := two_zpow_pos (q - 2)
  have hlow : (roundingInterval m q).low < 4 * m := (roundingInterval_low m q).2.trans_lt (by omega)
  have hlow : ((roundingInterval m q).low : ℚ) < 4 * m := by exact_mod_cast hlow
  have hhigh : (4 * m : ℚ) < (roundingInterval m q).high := by
    unfold roundingInterval
    push_cast
    linarith
  have hlow := mul_lt_mul_of_pos_right hlow hunit
  have hhigh := mul_lt_mul_of_pos_right hhigh hunit
  unfold RoundsTo
  rw [two_zpow_quarter q]
  split
  · constructor <;> linarith
  · constructor <;> linarith

theorem below (h : RoundsTo m q v) (hc : Canonical m q) : v < 2 ^ (1024 : ℤ) :=
  (h.lt hc).trans_le (zpow_le_zpow_right₀ (by norm_num) (by have := hc.greatest; omega))

theorem above (h : RoundsTo m q v) (hc : Canonical m q) : (2 : ℚ) ^ (-1075 : ℤ) ≤ v := by
  have hhalf := (h.nearest hc.pos).bounds.1
  have hone : (1 : ℚ) ≤ m := by exact_mod_cast hc.pos
  have hleast : (2 : ℚ) ^ (-1074 : ℤ) ≤ 2 ^ q := zpow_le_zpow_right₀ (by norm_num) hc.least
  have hsplit : (2 : ℚ) ^ (-1074 : ℤ) = 2 * 2 ^ (-1075 : ℤ) := by
    rw [← zpow_one_add₀ (by norm_num)]
    rfl
  rw [le_div_iff₀ (two_zpow_pos q)] at hhalf
  nlinarith [two_zpow_pos q]

theorem digits_pos {d : ℕ} {e : ℤ} (h : RoundsTo m q (d * 10 ^ e)) (hc : Canonical m q) : 0 < d := by
  have habove := h.above hc
  by_contra hzero
  rw [Nat.eq_zero_of_not_pos hzero, Nat.cast_zero, zero_mul] at habove
  exact absurd habove (two_zpow_pos _).not_ge

end RoundsTo

/-! ### Products and quotients -/

section

variable {n : ℕ} {q : ℤ} (hc : Canonical n q) {m₁ m₂ : ℕ} {e₁ e₂ : ℤ} (s : Sign)

include hc

theorem round_product (hm : 2 ^ 52 ≤ m₁ * m₂)
    (hv : RoundsTo n q ((m₁ * 2 ^ e₁ : ℚ) * (m₂ * 2 ^ e₂))) :
    roundWithAccuracy .binary64 s (m₁ * m₂) (e₁ + e₂) .exact = .finite s n q hc.pos := by
  have hpos : m₁ * m₂ ≠ 0 := by omega
  have hlog : 52 ≤ (m₁ * m₂).log2 := (Nat.le_log2 hpos).mpr hm
  have htells : Tells (.ofMantissaAndAccuracy (m₁ * m₂) .exact)
      ((m₁ * 2 ^ e₁ : ℚ) * (m₂ * 2 ^ e₂) / 2 ^ (e₁ + e₂)) := by
    have hquotient : (m₁ * 2 ^ e₁ : ℚ) * (m₂ * 2 ^ e₂) / 2 ^ (e₁ + e₂) = (m₁ * m₂ : ℕ) := by
      rw [div_eq_iff (two_zpow_pos _).ne', zpow_add₀ (by norm_num)]
      push_cast
      ring
    rw [hquotient]
    exact tells_exact _
  refine roundWithAccuracy_eq hc hv htells ?_ (fun h => absurd h hpos) s
  rw [targetExponent_eq]
  omega

/-- The quotient has at least as many bits as a double, or it is counted in the least unit. -/
theorem round_quotient (hm₁ : 0 < m₁) (hm₂ : 0 < m₂) (he : -1074 ≤ e₁ - e₂)
    (hv : RoundsTo n q ((m₁ * 2 ^ e₁ : ℚ) / (m₂ * 2 ^ e₂))) :
    roundWithAccuracy .binary64 s (divCore .binary64 m₁ e₁ m₂ e₂).1 (divCore .binary64 m₁ e₁ m₂ e₂).2.1
      (divCore .binary64 m₁ e₁ m₂ e₂).2.2 = .finite s n q hc.pos := by
  -- The exponent of the quotient: low enough for 53 bits, but not below the least unit.
  obtain ⟨t, ht⟩ : ∃ t, t = min (e₁ - e₂) (max ((m₁.log2 : ℤ) - m₂.log2 + (e₁ - e₂) - 53) (-1074)) :=
    ⟨_, rfl⟩
  have hcore : divCore .binary64 m₁ e₁ m₂ e₂ =
      ((m₁ <<< (e₁ - e₂ - t).toNat) / m₂, t,
        accuracyOfFraction ((m₁ <<< (e₁ - e₂ - t).toNat) % m₂) m₂) := by
    have htarget : Format.binary64.targetExponent (totalExponent m₁ e₁ - totalExponent m₂ e₂) =
        max ((m₁.log2 : ℤ) - m₂.log2 + (e₁ - e₂) - 53) (-1074) := by
      simp only [Format.targetExponent, totalExponent, Format.mantissaBits, Format.minExponent]
      norm_num
      omega
    rw [divCore, htarget, ht]
  have hquotient : (m₁ * 2 ^ e₁ : ℚ) / (m₂ * 2 ^ e₂) / 2 ^ t =
      ((m₁ <<< (e₁ - e₂ - t).toNat : ℕ) : ℚ) / m₂ := by
    have hshift : (2 : ℚ) ^ e₁ = 2 ^ (e₁ - e₂ - t).toNat * 2 ^ e₂ * 2 ^ t := by
      rw [← zpow_natCast, ← zpow_add₀ (by norm_num), ← zpow_add₀ (by norm_num)]
      congr 1
      omega
    have hm₂' : (m₂ : ℚ) ≠ 0 := by exact_mod_cast hm₂.ne'
    rw [Nat.shiftLeft_eq, hshift]
    push_cast
    field_simp
  -- unless it was cut at the least unit, the quotient has at least 53 bits
  have hbits : t ≠ -1074 → 2 ^ 52 ≤ (m₁ <<< (e₁ - e₂ - t).toNat) / m₂ := by
    intro hne
    have hfirst : 2 ^ m₁.log2 ≤ m₁ := Nat.log2_self_le hm₁.ne'
    have hlast : m₂ < 2 ^ (m₂.log2 + 1) := Nat.lt_log2_self
    rw [Nat.le_div_iff_mul_le hm₂, Nat.shiftLeft_eq]
    calc 2 ^ 52 * m₂ ≤ 2 ^ 52 * 2 ^ (m₂.log2 + 1) := Nat.mul_le_mul_left _ hlast.le
      _ = 2 ^ (52 + (m₂.log2 + 1)) := (pow_add ..).symm
      _ ≤ 2 ^ (m₁.log2 + (e₁ - e₂ - t).toNat) := Nat.pow_le_pow_right two_pos (by omega)
      _ = 2 ^ m₁.log2 * 2 ^ (e₁ - e₂ - t).toNat := pow_add ..
      _ ≤ m₁ * 2 ^ (e₁ - e₂ - t).toNat := Nat.mul_le_mul_right _ hfirst
  rw [hcore]
  dsimp only
  refine roundWithAccuracy_eq hc hv (hquotient ▸ tells_quotient _ hm₂) ?_ (fun hzero => ?_) s
  · rw [targetExponent_eq]
    by_cases hleast : t = -1074
    · omega
    · have hsize := hbits hleast
      have hlog := (Nat.le_log2 (by omega)).mpr hsize
      omega
  · by_contra hne
    have hsize := hbits hne
    rw [hzero] at hsize
    exact absurd hsize (by norm_num)

end

/-! ### Powers of ten -/

/-- The double is `10 ^ i`, told by its parts. -/
def IsPowerOfTen (i : ℕ) (x : Float) : Bool :=
  match x.toModel.unpack with
  | .finite .positive m q _ =>
    decide (2 ^ 52 ≤ m ∧ -52 ≤ q ∧ q ≤ 21 ∧ m * 2 ^ (q + 52).toNat = 10 ^ i * 2 ^ 52)
  | _ => false

theorem isPowerOfTen_table : ∀ i : Fin 23, IsPowerOfTen i Float.exactlyRepresentablePowersOfTen[i] := by
  decide +kernel

theorem unpack_power {i : ℕ} (hi : i < Float.exactlyRepresentablePowersOfTen.size) : ∃ m q, ∃ hm : 0 < m,
    Float.exactlyRepresentablePowersOfTen[i].toModel.unpack = .finite .positive m q hm ∧
      2 ^ 52 ≤ m ∧ -52 ≤ q ∧ q ≤ 21 ∧ (m * 2 ^ q : ℚ) = 10 ^ i := by
  have htable := isPowerOfTen_table ⟨i, hi⟩
  unfold IsPowerOfTen at htable
  split at htable
  · rename_i m q hm hunpack
    obtain ⟨hsize, hlow, hhigh, hvalue⟩ := of_decide_eq_true htable
    refine ⟨m, q, hm, hunpack, hsize, hlow, hhigh, ?_⟩
    have hcast : (m * 2 ^ (q + 52).toNat : ℚ) = 10 ^ i * 2 ^ 52 := by exact_mod_cast hvalue
    rw [← zpow_natCast, Int.toNat_of_nonneg (by omega), zpow_add₀ (by norm_num), ← mul_assoc] at hcast
    exact mul_right_cancel₀ (by norm_num) hcast
  · cases htable

/-! ### Whole numbers -/

theorem canonical_shifted {d : ℕ} (hpos : 0 < d) (hd : d < 2 ^ 53) :
    Canonical (d * 2 ^ (52 - d.log2)) ((d.log2 : ℤ) - 52) := by
  have hlog : d.log2 < 53 := (Nat.log2_lt hpos.ne').mpr hd
  have hfirst : 2 ^ d.log2 ≤ d := Nat.log2_self_le hpos.ne'
  have hlast : d < 2 ^ (d.log2 + 1) := Nat.lt_log2_self
  have hlow : 2 ^ 52 ≤ d * 2 ^ (52 - d.log2) := by
    calc 2 ^ 52 = 2 ^ d.log2 * 2 ^ (52 - d.log2) := by
          rw [← pow_add]
          congr 1
          omega
      _ ≤ d * 2 ^ (52 - d.log2) := Nat.mul_le_mul_right _ hfirst
  have hhigh : d * 2 ^ (52 - d.log2) < 2 ^ 53 := by
    calc d * 2 ^ (52 - d.log2) < 2 ^ (d.log2 + 1) * 2 ^ (52 - d.log2) :=
          Nat.mul_lt_mul_of_pos_right hlast (Nat.two_pow_pos _)
      _ = 2 ^ 53 := by
          rw [← pow_add]
          congr 1
          omega
  exact ⟨by omega, hhigh, by omega, by omega, Or.inl hlow⟩

theorem value_shifted {d : ℕ} (hpos : 0 < d) (hd : d < 2 ^ 53) :
    ((d * 2 ^ (52 - d.log2) : ℕ) : ℚ) * 2 ^ ((d.log2 : ℤ) - 52) = d := by
  have hlog : d.log2 < 53 := (Nat.log2_lt hpos.ne').mpr hd
  push_cast
  rw [mul_assoc, ← zpow_natCast, ← zpow_add₀ (by norm_num),
    show (((52 - d.log2 : ℕ) : ℤ) + ((d.log2 : ℤ) - 52)) = 0 by omega, zpow_zero, mul_one]

theorem round_whole {d : ℕ} (hpos : 0 < d) (hd : d < 2 ^ 53) : UnpackedFloat.round .binary64 .positive d 0 =
    .finite .positive (d * 2 ^ (52 - d.log2)) ((d.log2 : ℤ) - 52) (canonical_shifted hpos hd).pos := by
  have hlog : d.log2 < 53 := (Nat.log2_lt hpos.ne').mpr hd
  have hc := canonical_shifted hpos hd
  have hfirst : (d * 2 ^ (52 - d.log2)).log2 = 52 := by
    rw [Nat.log2_eq_iff hc.pos.ne']
    exact ⟨hc.normal.resolve_right (by omega), hc.bits⟩
  have hround : UnpackedFloat.round .binary64 .positive d 0 =
      roundWithAccuracy .binary64 .positive (d * 2 ^ (52 - d.log2)) ((d.log2 : ℤ) - 52) .exact := by
    unfold UnpackedFloat.round decreaseExponent
    rw [targetExponent_eq]
    have hshift : (0 - max ((d.log2 : ℤ) + 0 - 52) (-1074)).toNat = 52 - d.log2 := by omega
    dsimp only
    rw [Nat.shiftLeft_eq, hshift]
    congr 1
    omega
  have htells : Tells (.ofMantissaAndAccuracy (d * 2 ^ (52 - d.log2)) .exact)
      (((d * 2 ^ (52 - d.log2) : ℕ) : ℚ) * 2 ^ ((d.log2 : ℤ) - 52) / 2 ^ ((d.log2 : ℤ) - 52)) := by
    rw [mul_div_cancel_right₀ _ (two_zpow_pos _).ne']
    exact tells_exact _
  rw [hround]
  refine roundWithAccuracy_eq hc (.self hc.pos _) htells ?_ (fun h => absurd h hc.pos.ne') _
  rw [targetExponent_eq, hfirst]
  omega

theorem toFloat_eq {d : ℕ} (hpos : 0 < d) (hd : d < 2 ^ 53) : d.toUInt64.toFloat =
    ofParts .positive (d * 2 ^ (52 - d.log2)) ((d.log2 : ℤ) - 52) (canonical_shifted hpos hd).pos := by
  have hnat : d.toUInt64.toNat = d := Nat.mod_eq_of_lt (by omega)
  have hround : UnpackedFloat.ofUInt64 .binary64 d.toUInt64 =
      .finite .positive (d * 2 ^ (52 - d.log2)) ((d.log2 : ℤ) - 52) (canonical_shifted hpos hd).pos := by
    unfold UnpackedFloat.ofUInt64 UnpackedFloat.ofNat UnpackedFloat.ofInt UnpackedFloat.normalize
    rw [hnat, Int.compare_eq_gt.mpr (by omega)]
    dsimp only
    rw [Int.toNat_natCast]
    exact round_whole hpos hd
  change Float.ofModel (Float.Model.pack (UnpackedFloat.ofUInt64 .binary64 d.toUInt64)) = _
  rw [hround]
  rfl

/-! ### Decimals -/

theorem range_of_powers :
    (2 : ℚ) ^ (1024 : ℤ) < 10 ^ (310 : ℤ) ∧ (10 : ℚ) ^ (-330 : ℤ) < 2 ^ (-1075 : ℤ) := by
  have htop : (2 : ℕ) ^ 1024 < 10 ^ 310 := by decide +kernel
  have hbottom : (2 : ℕ) ^ 1075 < 10 ^ 330 := by decide +kernel
  have htop : (2 : ℚ) ^ 1024 < 10 ^ 310 := by exact_mod_cast htop
  have hbottom : (2 : ℚ) ^ 1075 < 10 ^ 330 := by exact_mod_cast hbottom
  rw [zpow_neg, zpow_neg, zpow_ofNat, zpow_ofNat, zpow_ofNat, zpow_ofNat]
  exact ⟨htop, inv_strictAnti₀ (by positivity) hbottom⟩

section

variable {m : ℕ} {q : ℤ} (hc : Canonical m q) {d : ℕ}

include hc

/-- Few digits and a small power of ten are doubles both, so that their product or quotient is rounded
once. -/
theorem ofScientific_exact {k : ℕ} (hpos : 0 < d) (hd : d < 2 ^ 53) (hk : k ≤ 22) :
    (RoundsTo m q (d * 10 ^ k) → Float.ofScientific d false k = ofParts .positive m q hc.pos) ∧
      (RoundsTo m q (d / 10 ^ k) → Float.ofScientific d true k = ofParts .positive m q hc.pos) := by
  have hk' : k < Float.exactlyRepresentablePowersOfTen.size := Nat.lt_succ_of_le hk
  obtain ⟨mp, qp, hmp, hunpack, hsize, hlow, hhigh, hpower⟩ := unpack_power hk'
  have hd' := canonical_shifted hpos hd
  have hdigits : d.toUInt64.toFloat.toModel.unpack =
      .finite .positive (d * 2 ^ (52 - d.log2)) ((d.log2 : ℤ) - 52) hd'.pos := by
    rw [toFloat_eq hpos hd]
    exact unpack_ofParts _ hd'
  have hvalue := value_shifted hpos hd
  have hlog : d.log2 < 53 := (Nat.log2_lt hpos.ne').mpr hd
  unfold Float.ofScientific
  rw [dif_pos ⟨hd, hk⟩, dif_pos ⟨hd, hk⟩]
  constructor <;> intro hv
  · rw [← hvalue, ← hpower] at hv
    have hround := round_product hc .positive (hsize.trans (Nat.le_mul_of_pos_left mp hd'.pos)) hv
    change Float.ofModel (Float.Model.pack (UnpackedFloat.mul .binary64 d.toUInt64.toFloat.toModel.unpack
      Float.exactlyRepresentablePowersOfTen[k].toModel.unpack)) = _
    rw [hdigits, hunpack]
    exact congrArg (fun f => Float.ofModel (Float.Model.pack f)) hround
  · rw [← hvalue, ← hpower] at hv
    have hround := round_quotient hc .positive hd'.pos hmp (by omega) hv
    change Float.ofModel (Float.Model.pack (UnpackedFloat.div .binary64 d.toUInt64.toFloat.toModel.unpack
      Float.exactlyRepresentablePowersOfTen[k].toModel.unpack)) = _
    rw [hdigits, hunpack]
    exact congrArg (fun f => Float.ofModel (Float.Model.pack f)) hround

/-- Within the range that is formed, a product or a quotient of whole numbers is rounded once. -/
theorem ofScientific_model {e : ℤ} (hpos : 0 < d) (hlow : -(2 ^ 11 + d.log2 : ℤ) ≤ e) (hhigh : e ≤ 2 ^ 11)
    (hv : RoundsTo m q (d * 10 ^ e)) :
    UnpackedFloat.ofScientific .binary64 d e = .finite .positive m q hc.pos := by
  unfold UnpackedFloat.ofScientific
  rw [dif_neg hpos.ne', if_neg (by change ¬ e > 2 ^ 11; omega),
    if_neg (by change ¬ e < -(2 ^ 11 + (d.log2 : ℤ)); omega)]
  split
  · rename_i he
    obtain ⟨k, rfl⟩ := Int.eq_ofNat_of_zero_le he
    have hproduct : (d * 10 ^ (k : ℤ) : ℚ) =
        ((d <<< 53 : ℕ) : ℚ) * 2 ^ (-53 : ℤ) * (((10 ^ k : ℕ) : ℚ) * 2 ^ (0 : ℤ)) := by
      have hunit : (2 : ℚ) ^ 53 * 2 ^ (-53 : ℤ) = 1 := by norm_num
      rw [Nat.shiftLeft_eq, zpow_natCast, zpow_zero, mul_one, Nat.cast_mul, Nat.cast_pow, Nat.cast_pow,
        Nat.cast_ofNat, Nat.cast_ofNat, mul_assoc (d : ℚ), hunit, mul_one]
    have hsize : 2 ^ 52 ≤ (d <<< 53) * 10 ^ k := by
      rw [Nat.shiftLeft_eq]
      nlinarith [Nat.pow_pos (n := k) (show 0 < 10 by norm_num)]
    rw [hproduct] at hv
    exact round_product hc .positive hsize hv
  · rename_i he
    obtain ⟨k, rfl⟩ := Int.eq_negSucc_of_lt_zero (by omega : e < 0)
    have hquotient : (d * 10 ^ Int.negSucc k : ℚ) =
        (d : ℚ) * 2 ^ (0 : ℤ) / (((10 ^ (k + 1) : ℕ) : ℚ) * 2 ^ (0 : ℤ)) := by
      rw [zpow_negSucc, zpow_zero]
      push_cast
      ring
    rw [hquotient] at hv
    exact round_quotient hc .positive hpos (Nat.pow_pos (by norm_num)) (by omega) hv

/-- A decimal in the rounding interval of a double is read as this double. -/
theorem nearestFloat_eq {e : ℤ} (hv : RoundsTo m q (d * 10 ^ e)) :
    nearestFloat d e = ofParts .positive m q hc.pos := by
  have hten : (1 : ℚ) < 10 := by norm_num
  have hscale : (0 : ℚ) < 10 ^ e := zpow_pos (by norm_num) e
  have habove := hv.above hc
  have hbelow := hv.below hc
  have hpos := hv.digits_pos hc
  obtain ⟨l, hl⟩ : ∃ l, l + 1 = (Nat.toDigits 10 d).length :=
    ⟨_, Nat.sub_add_cancel Nat.length_toDigits_pos⟩
  have hlast : d < 10 ^ (l + 1) := (Nat.length_toDigits_le_iff (by norm_num) l.succ_pos).mp hl.ge
  have hfirst : 10 ^ l ≤ d := by
    rcases l with _ | l
    · rwa [pow_zero]
    · by_contra hlt
      have := (Nat.length_toDigits_le_iff (b := 10) (by norm_num) l.succ_pos).mpr (Nat.lt_of_not_le hlt)
      omega
  have hlow : (10 : ℚ) ^ (l + e) ≤ d * 10 ^ e := by
    rw [zpow_add₀ (by norm_num), zpow_natCast]
    exact mul_le_mul_of_nonneg_right (by exact_mod_cast hfirst) hscale.le
  have hhigh : (d : ℚ) * 10 ^ e < 10 ^ (l + 1 + e) := by
    rw [zpow_add₀ (by norm_num)]
    exact mul_lt_mul_of_pos_right (by exact_mod_cast hlast) hscale
  have htop : l + e < 310 := by
    rw [← zpow_lt_zpow_iff_right₀ hten]
    exact (hlow.trans_lt hbelow).trans range_of_powers.1
  have hbottom : -330 < l + 1 + e := by
    rw [← zpow_lt_zpow_iff_right₀ hten]
    exact range_of_powers.2.trans (habove.trans_lt hhigh)
  have hlog : l ≤ d.log2 := by
    rw [Nat.le_log2 hpos.ne']
    exact (Nat.pow_le_pow_left (by norm_num) l).trans hfirst
  unfold nearestFloat
  dsimp only
  rw [if_neg hpos.ne', if_neg (by omega), if_neg (by omega)]
  -- Both ways round the exact product or quotient once, so the same double comes out of them.
  by_cases hexact : d < 2 ^ 53 ∧ e.natAbs ≤ 22
  · have hsmall := ofScientific_exact hc hpos hexact.1 hexact.2
    by_cases he : e < 0
    · rw [decide_eq_true he]
      refine hsmall.2 ?_
      rwa [div_eq_mul_inv, ← zpow_natCast, ← zpow_neg, show -(e.natAbs : ℤ) = e by omega]
    · rw [decide_eq_false he]
      refine hsmall.1 ?_
      rwa [← zpow_natCast, show (e.natAbs : ℤ) = e by omega]
  · have hmodel := ofScientific_model hc hpos (e := e) (by omega) (by omega) hv
    have hsign : (if decide (e < 0) = true then Int.negOfNat e.natAbs else Int.ofNat e.natAbs) = e := by
      simp only [Int.negOfNat_eq, Int.ofNat_eq_natCast, decide_eq_true_eq]
      omega
    unfold Float.ofScientific
    rw [dif_neg hexact]
    dsimp only
    rw [hsign]
    exact congrArg (fun f => Float.ofModel (Float.Model.pack f)) hmodel

end

end Lox.Decimal
