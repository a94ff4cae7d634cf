import Lox.Proofs.Numbers.Nearest

/-!
# What the search for digits finds

A point of a decimal grid is compared with the interval of a double in whole numbers. Each hit lies in the
interval, and there is one as soon as the grid is finer than half a unit of the last place.
-/

namespace Lox.Decimal

variable {m : ℕ} {q : ℤ}

/-! ### Grids -/

/-- What one unit of the interval is on a grid, in whole numbers. -/
def gridUnit (q e : ℤ) : ℕ := positivePower 2 (q - 2) * positivePower 10 (-e)

/-- The distance of two points of a grid, in whole numbers. -/
def gridStep (q e : ℤ) : ℕ := positivePower 2 (2 - q) * positivePower 10 e

theorem positivePower_div {b : ℕ} (hb : 0 < b) (e : ℤ) :
    (positivePower b e : ℚ) / positivePower b (-e) = (b : ℚ) ^ e := by
  have hb' : (b : ℚ) ≠ 0 := by exact_mod_cast hb.ne'
  rw [div_eq_iff (by exact_mod_cast (Nat.pow_pos hb).ne')]
  change ((b ^ e.toNat : ℕ) : ℚ) = (b : ℚ) ^ e * ((b ^ (-e).toNat : ℕ) : ℚ)
  rw [Nat.cast_pow, Nat.cast_pow, ← zpow_natCast, ← zpow_natCast, ← zpow_add₀ hb']
  congr 1
  omega

theorem grid_scale (q e : ℤ) :
    ∃ c : ℚ, 0 < c ∧ gridUnit q e / c = 2 ^ (q - 2) ∧ gridStep q e / c = 10 ^ e := by
  have hunit : (0 : ℚ) < positivePower 2 (2 - q) := by exact_mod_cast Nat.two_pow_pos _
  have hstep : (0 : ℚ) < positivePower 10 (-e) := by exact_mod_cast Nat.pow_pos (by norm_num)
  refine ⟨positivePower 2 (2 - q) * positivePower 10 (-e), mul_pos hunit hstep, ?_, ?_⟩
  · rw [gridUnit, Nat.cast_mul, mul_div_mul_right _ _ hstep.ne', ← neg_sub q 2]
    exact positivePower_div two_pos _
  · rw [gridStep, Nat.cast_mul, mul_div_mul_left _ _ hunit.ne']
    exact positivePower_div (by norm_num) _

theorem units_le_steps (a b : ℕ) (q e : ℤ) :
    a * gridUnit q e ≤ b * gridStep q e ↔ (a : ℚ) * 2 ^ (q - 2) ≤ b * 10 ^ e := by
  obtain ⟨c, hc, hunit, hstep⟩ := grid_scale q e
  rw [← hunit, ← hstep, mul_div_assoc', mul_div_assoc', div_le_div_iff_of_pos_right hc]
  exact_mod_cast Iff.rfl

theorem steps_le_units (a b : ℕ) (q e : ℤ) :
    b * gridStep q e ≤ a * gridUnit q e ↔ (b : ℚ) * 10 ^ e ≤ a * 2 ^ (q - 2) := by
  obtain ⟨c, hc, hunit, hstep⟩ := grid_scale q e
  rw [← hunit, ← hstep, mul_div_assoc', mul_div_assoc', div_le_div_iff_of_pos_right hc]
  exact_mod_cast Iff.rfl

/-! ### Hits -/

/-- The comparison of whole numbers tells whether a decimal rounds to the double. -/
theorem holds_iff (d : ℕ) (e : ℤ) :
    (roundingInterval m q).holds (gridUnit q e) (gridStep q e) d = true ↔ RoundsTo m q (d * 10 ^ e) := by
  unfold RoundingInterval.holds RoundsTo
  split
  · rw [Bool.and_eq_true, decide_eq_true_eq, decide_eq_true_eq, units_le_steps, steps_le_units]
  · rw [Bool.and_eq_true, decide_eq_true_eq, decide_eq_true_eq, ← not_le, ← not_le, units_le_steps,
      steps_le_units, not_le, not_le]

theorem holds_of_nearest? {i : RoundingInterval} {unit grid d : ℕ} (h : i.nearest? unit grid = some d) :
    i.holds unit grid d = true := by
  unfold RoundingInterval.nearest? at h
  dsimp only at h
  split at h
  case h_1 => cases h
  case h_2 hbelow _ =>
    cases h
    exact (Bool.and_eq_true_iff.mp hbelow).2
  case h_3 _ habove =>
    cases h
    exact habove
  case h_4 hbelow habove =>
    have hbelow := (Bool.and_eq_true_iff.mp hbelow).2
    split at h
    · cases h
      exact hbelow
    split at h
    · cases h
      exact habove
    split at h
    · cases h
      exact hbelow
    · cases h
      exact habove

theorem roundsTo_of_firstHit {count : ℕ} {e : ℤ} {d : Scaled}
    (h : firstHit (roundingInterval m q) q count e = some d) : RoundsTo m q (d.digits * 10 ^ d.exponent) := by
  induction count generalizing e with
  | zero => cases h
  | succ count ih =>
    unfold firstHit at h
    dsimp only at h
    split at h
    · rename_i hit
      cases h
      exact (holds_iff _ _).mp (holds_of_nearest? hit)
    · exact ih h

/-! ### The end of the search -/

/-- The point behind the centre is a hit where two points are nearer to each other than half a unit of the
last place. -/
theorem nearest?_isSome {unit grid : ℕ} (hgrid : 0 < grid) (hfine : grid < 2 * unit) :
    ((roundingInterval m q).nearest? unit grid).isSome = true := by
  have hafter : 4 * m * unit < (4 * m * unit / grid + 1) * grid := by
    have := Nat.lt_mul_div_succ (4 * m * unit) hgrid
    linarith
  have hnear : (4 * m * unit / grid + 1) * grid ≤ 4 * m * unit + grid := by
    have := Nat.div_mul_le_self (4 * m * unit) grid
    linarith
  have hhigh : (4 * m * unit / grid + 1) * grid < (roundingInterval m q).high * unit := by
    change _ < (4 * m + 2) * unit
    linarith
  have hlow : (roundingInterval m q).low * unit < (4 * m * unit / grid + 1) * grid := by
    have hcentre : (roundingInterval m q).low ≤ 4 * m := (roundingInterval_low m q).2.trans (by omega)
    exact (Nat.mul_le_mul_right unit hcentre).trans_lt hafter
  have habove : (roundingInterval m q).holds unit grid (4 * m * unit / grid + 1) = true := by
    unfold RoundingInterval.holds
    split
    · exact Bool.and_eq_true_iff.mpr ⟨decide_eq_true hlow.le, decide_eq_true hhigh.le⟩
    · exact Bool.and_eq_true_iff.mpr ⟨decide_eq_true hlow, decide_eq_true hhigh⟩
  unfold RoundingInterval.nearest?
  dsimp only [roundingInterval] at habove ⊢
  rw [habove]
  split
  case h_1 _ hnone => cases hnone
  case h_2 => rfl
  case h_3 => rfl
  case h_4 => split <;> [rfl; split <;> [rfl; split <;> rfl]]

theorem firstHit_isSome {count : ℕ} {e : ℤ} {j : ℕ} (hj : j < count)
    (hfine : gridStep q (e - j) < 2 * gridUnit q (e - j)) :
    (firstHit (roundingInterval m q) q count e).isSome = true := by
  induction count generalizing e j with
  | zero => omega
  | succ count ih =>
    unfold firstHit
    dsimp only
    split
    · rfl
    · rename_i hnone
      rcases j with _ | j
      · have hstep : 0 < gridStep q e := Nat.mul_pos (Nat.two_pow_pos _) (Nat.pow_pos (by norm_num))
        rw [Nat.cast_zero, sub_zero] at hfine
        have hsome := nearest?_isSome (m := m) (q := q) hstep hfine
        rw [gridStep, gridUnit, hnone] at hsome
        cases hsome
      · refine ih (j := j) (by omega) ?_
        rwa [show e - 1 - (j : ℤ) = e - (j + 1 : ℕ) by omega]

/-! ### Powers of ten and of two -/

theorem ten_pow_le (n : ℕ) : 10 ^ n ≤ 2 ^ (10 * ((n + 2) / 3)) := by
  calc 10 ^ n ≤ 10 ^ (3 * ((n + 2) / 3)) := Nat.pow_le_pow_right (by norm_num) (by omega)
    _ = (10 ^ 3) ^ ((n + 2) / 3) := pow_mul ..
    _ ≤ (2 ^ 10) ^ ((n + 2) / 3) := Nat.pow_le_pow_left (by norm_num) _
    _ = 2 ^ (10 * ((n + 2) / 3)) := (pow_mul ..).symm

theorem le_ten_pow (n : ℕ) : 2 ^ (93 * (n / 28) + 3 * (n % 28)) ≤ 10 ^ n := by
  calc 2 ^ (93 * (n / 28) + 3 * (n % 28)) = (2 ^ 93) ^ (n / 28) * (2 ^ 3) ^ (n % 28) := by
        rw [pow_add, pow_mul, pow_mul]
    _ ≤ (10 ^ 28) ^ (n / 28) * 10 ^ (n % 28) :=
        Nat.mul_le_mul (Nat.pow_le_pow_left (by norm_num) _) (Nat.pow_le_pow_left (by norm_num) _)
    _ = 10 ^ n := by rw [← pow_mul, ← pow_add, Nat.div_add_mod]

theorem finest_grid (hc : Canonical m q) :
    (10 : ℚ) ^ (coarsestGrid m q - (23 : ℕ)) < 2 * 2 ^ (q - 2) := by
  have hlog : m.log2 < 53 := (Nat.log2_lt hc.pos.ne').mpr hc.bits
  have hleast := hc.least
  have hgreatest := hc.greatest
  have hhalf : (2 : ℚ) * 2 ^ (q - 2) = 2 ^ (q - 1) := by
    rw [← zpow_one_add₀ (by norm_num)]
    congr 1
    ring
  rw [hhalf, coarsestGrid, Int.fdiv_eq_ediv_of_nonneg _ (by norm_num)]
  generalize he : ((m.log2 : ℤ) + q + 2) * 30103 / 100000 + 1 - (23 : ℕ) = e
  have hbase : (1 : ℚ) < 2 := by norm_num
  -- So far below the first digit some 18 bits are to spare, more than the bounds on powers of ten lose.
  rcases le_or_gt 0 e with hsign | hsign
  · obtain ⟨n, rfl⟩ := Int.eq_ofNat_of_zero_le hsign
    calc (10 : ℚ) ^ (n : ℤ) = (10 ^ n : ℕ) := by push_cast; rfl
      _ ≤ (2 ^ (10 * ((n + 2) / 3)) : ℕ) := by exact_mod_cast ten_pow_le n
      _ = (2 : ℚ) ^ ((10 * ((n + 2) / 3) : ℕ) : ℤ) := by rw [zpow_natCast, Nat.cast_pow, Nat.cast_ofNat]
      _ < 2 ^ (q - 1) := zpow_lt_zpow_right₀ hbase (by omega)
  · obtain ⟨n, hn⟩ : ∃ n : ℕ, e = -n := ⟨(-e).toNat, by omega⟩
    subst hn
    calc (10 : ℚ) ^ (-n : ℤ) = ((10 ^ n : ℕ) : ℚ)⁻¹ := by
          rw [zpow_neg, zpow_natCast, Nat.cast_pow, Nat.cast_ofNat]
      _ ≤ ((2 ^ (93 * (n / 28) + 3 * (n % 28)) : ℕ) : ℚ)⁻¹ :=
          inv_anti₀ (by exact_mod_cast Nat.two_pow_pos _) (by exact_mod_cast le_ten_pow n)
      _ = (2 : ℚ) ^ (-((93 * (n / 28) + 3 * (n % 28) : ℕ) : ℤ)) := by
          rw [zpow_neg, zpow_natCast, Nat.cast_pow, Nat.cast_ofNat]
      _ < 2 ^ (q - 1) := zpow_lt_zpow_right₀ hbase (by omega)

theorem shortest_roundsTo (hc : Canonical m q) :
    RoundsTo m q ((shortest m q).digits * 10 ^ (shortest m q).exponent) := by
  have hfine : gridStep q (coarsestGrid m q - (23 : ℕ)) < 2 * gridUnit q (coarsestGrid m q - (23 : ℕ)) := by
    have hcast := finest_grid hc
    rw [← not_le, ← one_mul (gridStep _ _), units_le_steps, not_le, Nat.cast_one, one_mul]
    exact_mod_cast hcast
  obtain ⟨d, hd⟩ := Option.isSome_iff_exists.mp (firstHit_isSome (m := m) (by norm_num : 23 < 24) hfine)
  rw [shortest, hd]
  exact roundsTo_of_firstHit hd

theorem shortest_pos (hc : Canonical m q) : 0 < (shortest m q).digits :=
  (shortest_roundsTo hc).digits_pos hc

end Lox.Decimal
