import Lox.Decimal.Shortest
import Mathlib

/-!
# Rounding to doubles

A number is rounded to a double by way of a mantissa with two more bits, which say where in the unit above
the mantissa the number lies. The mantissa is shifted until it has no more digits than a double, and then
rounded to the nearest one, in the middle to the even one. So a number in the rounding interval of a double
is rounded to this double.
-/

namespace Lox.Decimal

open Float.Model Float.Model.UnpackedFloat

/-! ### Mantissas with more bits -/

/-- The bits behind a mantissa tell where in the unit above it a number lies. -/
def Tells (em : ExtendedMantissa) (y : ℚ) : Prop :=
  match em.roundBit, em.stickyBit with
  | false, false => y = em.mantissa
  | false, true => (em.mantissa : ℚ) < y ∧ y < em.mantissa + 1 / 2
  | true, false => y = em.mantissa + 1 / 2
  | true, true => (em.mantissa : ℚ) + 1 / 2 < y ∧ y < em.mantissa + 1

theorem mantissa_ofMantissaAndAccuracy (m : ℕ) (acc : Accuracy) :
    (ExtendedMantissa.ofMantissaAndAccuracy m acc).mantissa = m := by
  cases acc with
  | exact => rfl
  | inexact o => cases o <;> rfl

theorem tells_exact (m : ℕ) : Tells (.ofMantissaAndAccuracy m .exact) m := rfl

theorem tells_quotient (a : ℕ) {b : ℕ} (hb : 0 < b) :
    Tells (.ofMantissaAndAccuracy (a / b) (accuracyOfFraction (a % b) b)) (a / b) := by
  have hb' : (0 : ℚ) < b := by exact_mod_cast hb
  have hlt : ((a % b : ℕ) : ℚ) < b := by exact_mod_cast Nat.mod_lt a hb
  have hdivide : (a : ℚ) / b = (a / b : ℕ) + ((a % b : ℕ) : ℚ) / b := by
    have hcast : (a : ℚ) = b * (a / b : ℕ) + (a % b : ℕ) := by exact_mod_cast (Nat.div_add_mod a b).symm
    rw [eq_comm, ← sub_eq_zero]
    field_simp
    linarith
  rw [hdivide, accuracyOfFraction]
  by_cases hzero : a % b = 0
  · rw [if_pos hzero, hzero, Nat.cast_zero, zero_div, add_zero]
    exact tells_exact _
  · have hpos : (0 : ℚ) < (a % b : ℕ) := by exact_mod_cast Nat.pos_of_ne_zero hzero
    have hquotient : 0 < ((a % b : ℕ) : ℚ) / b := div_pos hpos hb'
    rw [if_neg hzero]
    rcases Nat.lt_trichotomy (2 * (a % b)) b with h | h | h
    · have hhalf : 2 * ((a % b : ℕ) : ℚ) < b := by exact_mod_cast h
      rw [Nat.compare_eq_lt.mpr h]
      refine ⟨lt_add_of_pos_right _ hquotient, add_lt_add_right ?_ _⟩
      rw [div_lt_iff₀ hb']
      linarith
    · have hhalf : 2 * ((a % b : ℕ) : ℚ) = b := by exact_mod_cast h
      rw [Nat.compare_eq_eq.mpr h]
      refine congrArg _ ?_
      rw [div_eq_iff hb'.ne']
      linarith
    · have hhalf : (b : ℚ) < 2 * (a % b : ℕ) := by exact_mod_cast h
      rw [Nat.compare_eq_gt.mpr h]
      refine ⟨add_lt_add_right ?_ _, add_lt_add_right ?_ _⟩
      · rw [lt_div_iff₀ hb']
        linarith
      · rwa [div_lt_one hb']

namespace Tells

variable {em : ExtendedMantissa} {y : ℚ}

theorem bounds (h : Tells em y) : (em.mantissa : ℚ) ≤ y ∧ y < em.mantissa + 1 := by
  obtain ⟨m, r, s⟩ := em
  cases r <;> cases s <;> simp only [Tells] at h <;> constructor <;> linarith

theorem shiftRightOne (h : Tells em y) : Tells em.shiftRightOne (y / 2) := by
  obtain ⟨m, r, s⟩ := em
  have hhalves : (m : ℚ) = 2 * (m / 2 : ℕ) + (m % 2 : ℕ) := by exact_mod_cast (Nat.div_add_mod m 2).symm
  rcases Nat.mod_two_eq_zero_or_one m with hm | hm <;> rw [hm] at hhalves <;>
    cases r <;> cases s <;> simp only [Tells, ExtendedMantissa.shiftRightOne, hm, Nat.reduceBNe] at h ⊢ <;>
    norm_num at h hhalves ⊢ <;> first | linarith | constructor <;> linarith

theorem shiftRight (h : Tells em y) (n : ℕ) : Tells (em >>> n) (y / 2 ^ n) := by
  change Tells (n.repeat ExtendedMantissa.shiftRightOne em) _
  induction n with
  | zero => rwa [Nat.repeat, pow_zero, div_one]
  | succ n ih =>
    rw [Nat.repeat, pow_succ, ← div_div]
    exact ih.shiftRightOne

end Tells

/-! ### Nearest numbers -/

/-- A number is nearest to a whole one, which is even if another one is as near. -/
def Nearest (n : ℕ) (y : ℚ) : Prop :=
  ((n : ℚ) - 1 / 2 < y ∧ y < n + 1 / 2) ∨ n % 2 = 0 ∧ (n : ℚ) - 1 / 2 ≤ y ∧ y ≤ n + 1 / 2

theorem Nearest.bounds {n : ℕ} {y : ℚ} (h : Nearest n y) : (n : ℚ) - 1 / 2 ≤ y ∧ y ≤ n + 1 / 2 := by
  rcases h with h | h <;> constructor <;> linarith

theorem Tells.roundedMantissa {em : ExtendedMantissa} {y : ℚ} (h : Tells em y) {n : ℕ}
    (hn : Nearest n y) : em.roundedMantissa = n := by
  obtain ⟨m, r, s⟩ := em
  obtain ⟨hlow, hhigh⟩ := hn.bounds
  cases r with
  | false =>
    have hwithin : (m : ℚ) ≤ y ∧ y < m + 1 / 2 := by
      cases s <;> simp only [Tells] at h <;> constructor <;> linarith
    have h₁ : (n : ℚ) < m + 1 := by linarith
    have h₂ : (m : ℚ) < n + 1 := by linarith
    have h₁ : n < m + 1 := by exact_mod_cast h₁
    have h₂ : m < n + 1 := by exact_mod_cast h₂
    have hround : n = m := by omega
    cases s <;> exact hround.symm
  | true =>
    have hwithin : (m : ℚ) + 1 / 2 ≤ y ∧ y < m + 1 := by
      cases s <;> simp only [Tells] at h <;> constructor <;> linarith
    have h₁ : (m : ℚ) ≤ n := by linarith
    have h₂ : (n : ℚ) < m + 2 := by linarith
    have h₁ : m ≤ n := by exact_mod_cast h₁
    have h₂ : n < m + 2 := by exact_mod_cast h₂
    cases s with
    | false =>
      -- In the middle between two whole numbers, only the even one of them can be nearest.
      have hmiddle : y = m + 1 / 2 := h
      have heven : n % 2 = 0 := by
        rcases hn with ⟨hbelow, habove⟩ | ⟨heven, -⟩
        · have hbelow : (n : ℚ) < m + 1 := by linarith
          have habove : (m : ℚ) < n := by linarith
          have hbelow : n < m + 1 := by exact_mod_cast hbelow
          have habove : m < n := by exact_mod_cast habove
          omega
        · exact heven
      show m + m % 2 = n
      omega
    | true =>
      have hmiddle : (m : ℚ) + 1 / 2 < y := h.1
      have habove : (m : ℚ) < n := by linarith
      have habove : m < n := by exact_mod_cast habove
      show m + 1 = n
      omega

/-! ### Intervals -/

/-- The number lies in the interval of those that round to `m · 2 ^ q`. -/
def RoundsTo (m : ℕ) (q : ℤ) (v : ℚ) : Prop :=
  if (roundingInterval m q).closed then
    ((roundingInterval m q).low : ℚ) * 2 ^ (q - 2) ≤ v ∧ v ≤ (roundingInterval m q).high * 2 ^ (q - 2)
  else
    ((roundingInterval m q).low : ℚ) * 2 ^ (q - 2) < v ∧ v < (roundingInterval m q).high * 2 ^ (q - 2)

theorem roundingInterval_low (m : ℕ) (q : ℤ) :
    4 * m - 2 ≤ (roundingInterval m q).low ∧ (roundingInterval m q).low ≤ 4 * m - 1 := by
  unfold roundingInterval
  dsimp only
  split <;> omega

/-- The mantissa and the exponent of a finite double other than zero: no more than 53 bits, and no fewer
either but for the least exponent. -/
structure Canonical (m : ℕ) (q : ℤ) : Prop where
  pos : 0 < m
  bits : m < 2 ^ 53
  least : -1074 ≤ q
  greatest : q ≤ 971
  normal : 2 ^ 52 ≤ m ∨ q = -1074

theorem two_zpow_pos (q : ℤ) : (0 : ℚ) < 2 ^ q := zpow_pos (by norm_num) q

theorem two_zpow_quarter (q : ℤ) : (2 : ℚ) ^ q = 4 * 2 ^ (q - 2) := by
  rw [zpow_sub₀ (by norm_num)]
  norm_num
  ring

namespace RoundsTo

variable {m : ℕ} {q : ℤ} {v : ℚ}

theorem nearest (h : RoundsTo m q v) (hm : 0 < m) : Nearest m (v / 2 ^ q) := by
  have hunit := two_zpow_pos (q - 2)
  have hlow := (roundingInterval_low m q).1
  have hlow : (4 * m - 2 : ℚ) ≤ (roundingInterval m q).low := by
    have hcast : ((4 * m - 2 : ℕ) : ℚ) = 4 * m - 2 := by
      rw [Nat.cast_sub (by omega)]
      push_cast
      ring
    rw [← hcast]
    exact_mod_cast hlow
  have hlow := mul_le_mul_of_nonneg_right hlow hunit.le
  have hhigh : ((roundingInterval m q).high : ℚ) = 4 * m + 2 := by
    unfold roundingInterval
    push_cast
    rfl
  unfold RoundsTo at h
  rw [hhigh] at h
  rw [two_zpow_quarter q]
  have hpos : (0 : ℚ) < 4 * 2 ^ (q - 2) := by linarith
  split at h
  · rename_i hclosed
    refine Or.inr ⟨beq_iff_eq.mp hclosed, ?_, ?_⟩
    · rw [le_div_iff₀ hpos]
      linarith
    · rw [div_le_iff₀ hpos]
      linarith
  · refine Or.inl ⟨?_, ?_⟩
    · rw [lt_div_iff₀ hpos]
      linarith
    · rw [div_lt_iff₀ hpos]
      linarith

theorem lt (h : RoundsTo m q v) (hc : Canonical m q) : v < 2 ^ (q + 53) := by
  have hhalf := (h.nearest hc.pos).bounds.2
  have hbits : (m : ℚ) + 1 ≤ 2 ^ 53 := by exact_mod_cast hc.bits
  rw [zpow_add₀ (by norm_num), ← div_lt_iff₀' (two_zpow_pos q)]
  norm_num at hbits ⊢
  linarith

theorem gt (h : RoundsTo m q v) (hm : 2 ^ 52 < m) : (2 : ℚ) ^ (q + 52) < v := by
  have hhalf := (h.nearest (Nat.zero_lt_of_lt hm)).bounds.1
  have hbits : (2 : ℚ) ^ 52 + 1 ≤ m := by exact_mod_cast hm
  have hsplit : (2 : ℚ) ^ (q + 52) = 2 ^ q * 2 ^ 52 := by
    rw [zpow_add₀ (by norm_num)]
    rfl
  rw [hsplit, ← lt_div_iff₀' (two_zpow_pos q)]
  linarith

/-- A number below all doubles but zero can round to the least of these only. -/
theorem eq_least (h : RoundsTo m q v) (hc : Canonical m q) (hv : v / (2 : ℚ) ^ (-1074 : ℤ) < 1) :
    q = -1074 := by
  refine hc.normal.resolve_left fun hm => ?_
  have hhalf := (h.nearest hc.pos).bounds.1
  have hbits : (2 : ℚ) ^ 52 ≤ m := by exact_mod_cast hm
  have hone : (1 : ℚ) ≤ v / 2 ^ q := by linarith
  rw [le_div_iff₀ (two_zpow_pos q), one_mul] at hone
  rw [div_lt_one (two_zpow_pos _)] at hv
  exact absurd (zpow_le_zpow_right₀ (by norm_num) hc.least) (hone.trans_lt hv).not_ge

theorem below_power (h : RoundsTo (2 ^ 52) q v) (hq : q ≠ -1074) :
    2 ^ 53 - 1 / 2 ≤ v / (2 : ℚ) ^ (q - 1) := by
  have hlow : (roundingInterval (2 ^ 52) q).low = 4 * 2 ^ 52 - 1 := if_pos ⟨rfl, hq⟩
  have hunit : (2 : ℚ) ^ (q - 1) = 2 * 2 ^ (q - 2) := by
    rw [← zpow_one_add₀ (by norm_num)]
    congr 1
    ring
  unfold RoundsTo at h
  rw [hlow] at h
  rw [hunit, le_div_iff₀ (mul_pos two_pos (two_zpow_pos _))]
  norm_num at h ⊢
  split at h <;> linarith

/-- The number is rounded at the last place of the double, or one place further if it is in the half below a
power of two. -/
theorem place (h : RoundsTo m q v) (hc : Canonical m q) {l : ℤ} (hlow : (2 : ℚ) ^ l ≤ v)
    (hhigh : v < 2 ^ (l + 1)) :
    max (l - 52) (-1074) = q ∨
      max (l - 52) (-1074) = q - 1 ∧ m = 2 ^ 52 ∧ q ≠ -1074 ∧ v < 2 ^ (q + 52) := by
  have hbase : (1 : ℚ) < 2 := by norm_num
  have hle : l < q + 53 := (zpow_lt_zpow_iff_right₀ hbase).mp (hlow.trans_lt (h.lt hc))
  have hleast := hc.least
  rcases hc.normal with hnormal | rfl
  · by_cases hq : q = -1074
    · left
      omega
    rcases Nat.lt_or_eq_of_le hnormal with hgt | rfl
    · have hge : q + 52 < l + 1 := (zpow_lt_zpow_iff_right₀ hbase).mp ((h.gt hgt).trans hhigh)
      left
      omega
    · have hhalf := h.below_power hq
      rw [le_div_iff₀ (two_zpow_pos _)] at hhalf
      have hunit := two_zpow_pos (q - 1)
      -- the interval reaches half a unit down, so the number has one bit less at the most
      have hbelow : (2 : ℚ) ^ (q + 51) < v := by
        have hsplit : (2 : ℚ) ^ (q + 51) = 2 ^ 52 * 2 ^ (q - 1) := by
          rw [← zpow_natCast, ← zpow_add₀ (by norm_num)]
          congr 1
          ring
        rw [hsplit]
        norm_num at hhalf ⊢
        linarith
      have hge : q + 51 < l + 1 := (zpow_lt_zpow_iff_right₀ hbase).mp (hbelow.trans hhigh)
      by_cases hl : l = q + 51
      · right
        rw [hl] at hhigh
        refine ⟨by omega, rfl, hq, ?_⟩
        rwa [show q + 52 = q + 51 + 1 by ring]
      · left
        omega
  · left
    omega

end RoundsTo

/-! ### Rounding -/

theorem targetExponent_eq (m : ℕ) (e : ℤ) :
    Format.binary64.targetExponent (totalExponent m e) = max (m.log2 + e - 52) (-1074) := by
  simp only [Format.targetExponent, totalExponent, Format.mantissaBits, Format.minExponent]
  norm_num
  omega

theorem Tells.binade {m : ℕ} {acc : Accuracy} {e : ℤ} {v : ℚ}
    (h : Tells (.ofMantissaAndAccuracy m acc) (v / 2 ^ e)) (hm : m ≠ 0) :
    (2 : ℚ) ^ (m.log2 + e) ≤ v ∧ v < 2 ^ (m.log2 + e + 1) := by
  obtain ⟨hlow, hhigh⟩ := h.bounds
  rw [mantissa_ofMantissaAndAccuracy] at hlow hhigh
  have hunit := two_zpow_pos e
  rw [le_div_iff₀ hunit] at hlow
  rw [div_lt_iff₀ hunit] at hhigh
  have hfirst : (2 : ℚ) ^ m.log2 ≤ m := by exact_mod_cast Nat.log2_self_le hm
  have hlast : (m : ℚ) + 1 ≤ 2 ^ (m.log2 + 1) := by exact_mod_cast Nat.lt_log2_self
  rw [zpow_add₀ (by norm_num), zpow_natCast, add_right_comm, zpow_add₀ (by norm_num)]
  refine ⟨(mul_le_mul_of_nonneg_right hfirst hunit.le).trans hlow, hhigh.trans_le ?_⟩
  exact_mod_cast mul_le_mul_of_nonneg_right hlast hunit.le

theorem shiftToExponent_eq {m : ℕ} {e t : ℤ} (he : e ≤ t) (acc : Accuracy) :
    shiftToExponent m e acc t = (ExtendedMantissa.ofMantissaAndAccuracy m acc >>> (t - e).toNat, t) := by
  unfold shiftToExponent
  dsimp only
  congr 1
  omega

theorem Tells.shifted {m : ℕ} {acc : Accuracy} {e t : ℤ} {v : ℚ}
    (h : Tells (ExtendedMantissa.ofMantissaAndAccuracy m acc) (v / 2 ^ e)) (he : e ≤ t) :
    Tells (ExtendedMantissa.ofMantissaAndAccuracy m acc >>> (t - e).toNat) (v / 2 ^ t) := by
  have hshift := h.shiftRight (t - e).toNat
  rwa [div_div, ← zpow_natCast, ← zpow_add₀ (by norm_num), Int.toNat_of_nonneg (by omega),
    add_sub_cancel] at hshift

/-- A mantissa that has been rounded is shifted once more if it has got one bit too many. -/
theorem shift_rounded {m : ℕ} {q : ℤ} (hc : Canonical m q) :
    shiftToTargetExponent .binary64 m q .exact = (⟨m, false, false⟩, q) ∧
      (q ≠ -1074 → shiftToTargetExponent .binary64 (2 ^ 53) (q - 1) .exact =
        (⟨2 ^ 52, false, false⟩, q)) := by
  have hlog : m.log2 < 53 := (Nat.log2_lt hc.pos.ne').mpr hc.bits
  have hleast := hc.least
  constructor
  · rw [shiftToTargetExponent, targetExponent_eq]
    unfold shiftToExponent
    have hshift : (max ((m.log2 : ℤ) + q - 52) (-1074) - q).toNat = 0 := by omega
    dsimp only
    rw [hshift, Nat.cast_zero, add_zero]
    rfl
  · intro hq
    rw [shiftToTargetExponent, targetExponent_eq, Nat.log2_two_pow]
    unfold shiftToExponent
    have hshift : (max (((53 : ℕ) : ℤ) + (q - 1) - 52) (-1074) - (q - 1)).toNat = 1 := by omega
    dsimp only
    rw [hshift, Nat.cast_one, sub_add_cancel]
    rfl

/-- A number in the rounding interval of a double is rounded to it, if it is told by a mantissa that has
enough bits. -/
theorem roundWithAccuracy_eq {m : ℕ} {e : ℤ} {acc : Accuracy} {n : ℕ} {q : ℤ} {v : ℚ}
    (hc : Canonical n q) (hv : RoundsTo n q v)
    (ht : Tells (ExtendedMantissa.ofMantissaAndAccuracy m acc) (v / 2 ^ e))
    (he : e ≤ Format.binary64.targetExponent (totalExponent m e)) (hzero : m = 0 → e = -1074)
    (s : Sign) : roundWithAccuracy .binary64 s m e acc = .finite s n q hc.pos := by
  rw [targetExponent_eq] at he
  have hfirst : shiftToTargetExponent .binary64 m e acc =
      (ExtendedMantissa.ofMantissaAndAccuracy m acc >>> (max (m.log2 + e - 52) (-1074) - e).toNat,
        max (m.log2 + e - 52) (-1074)) := by
    rw [shiftToTargetExponent, targetExponent_eq]
    exact shiftToExponent_eq he acc
  have hshifted := ht.shifted he
  generalize (ExtendedMantissa.ofMantissaAndAccuracy m acc >>> (max (m.log2 + e - 52) (-1074) - e).toNat) = em
    at hfirst hshifted
  -- the first shift ends at the last place of the double, or one further just below a power of two
  have hplace : max (m.log2 + e - 52) (-1074) = q ∨
      max (m.log2 + e - 52) (-1074) = q - 1 ∧ n = 2 ^ 52 ∧ q ≠ -1074 ∧ v < 2 ^ (q + 52) := by
    by_cases hm : m = 0
    · obtain rfl := hzero hm
      have hsmall := ht.bounds.2
      rw [mantissa_ofMantissaAndAccuracy, hm, Nat.cast_zero, zero_add] at hsmall
      rw [hv.eq_least hc hsmall, hm]
      exact Or.inl rfl
    · obtain ⟨hlow, hhigh⟩ := ht.binade hm
      exact hv.place hc hlow hhigh
  obtain ⟨hstay, hcarry⟩ := shift_rounded hc
  unfold roundWithAccuracy
  rcases hplace with hplace | ⟨hplace, rfl, hq, hlt⟩
  · rw [hplace] at hfirst hshifted
    rw [hfirst]
    dsimp only
    rw [hshifted.roundedMantissa (hv.nearest hc.pos), hstay]
    exact dif_neg hc.pos.ne'
  · rw [hplace] at hfirst hshifted
    rw [hfirst]
    dsimp only
    -- the mantissa comes out as 2 ^ 53 and is shifted once more
    have hnearest : Nearest (2 ^ 53) (v / 2 ^ (q - 1)) := by
      refine Or.inr ⟨rfl, ?_, ?_⟩
      · exact_mod_cast hv.below_power hq
      · have hsplit : (2 : ℚ) ^ (q + 52) = 2 ^ 53 * 2 ^ (q - 1) := by
          rw [← zpow_natCast, ← zpow_add₀ (by norm_num)]
          congr 1
          ring
        rw [hsplit, ← div_lt_iff₀ (two_zpow_pos _)] at hlt
        push_cast
        linarith
    rw [hshifted.roundedMantissa hnearest, hcarry hq]
    exact dif_neg hc.pos.ne'

end Lox.Decimal
