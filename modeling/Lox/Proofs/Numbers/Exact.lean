import Lox.Proofs.Numbers.Notations

/-!
# Numbers in full

The tree printer writes integral numbers in full and all others in marked notation. What it writes for a
finite number without a sign, as those of programs are, denotes the number exactly or reads back as its
nearest double.
-/

namespace Lox.Decimal

open Float.Model Float.Model.UnpackedFloat

/-! ### Numbers without a sign -/

def IsUnsigned : UnpackedFloat → Prop
  | .infinity s | .zero s | .finite s _ _ _ => s = .positive
  | .notANumber => False

theorem isUnsigned_roundWithAccuracy (spec : Format) (m : ℕ) (e : ℤ) (acc : Accuracy) :
    IsUnsigned (roundWithAccuracy spec .positive m e acc) := by
  unfold roundWithAccuracy
  dsimp only
  split <;> rfl

theorem isUnsigned_ofScientific (spec : Format) (d : ℕ) (e : ℤ) :
    IsUnsigned (UnpackedFloat.ofScientific spec d e) := by
  unfold UnpackedFloat.ofScientific
  split
  · rfl
  · split_ifs
    · rfl
    · rfl
    · exact isUnsigned_roundWithAccuracy spec _ _ _
    · exact isUnsigned_roundWithAccuracy spec _ _ _

theorem isUnsigned_packComponents {e : BitVec 11} (he : e ≠ -1#11) (f : BitVec 52) :
    IsUnsigned (UnpackedFloat.unpack .binary64 (packComponents .binary64 .positive e f)) := by
  unfold UnpackedFloat.unpack
  simp only [unpackExponent_packComponents, unpackMantissa_packComponents, unpackSign_packComponents,
    Sign.ofBitVec_toBitVec]
  rw [if_neg he]
  split_ifs <;> rfl

/-- Packing rounds once more where the parts do not fit, and keeps the sign. -/
theorem isUnsigned_pack {f : UnpackedFloat} (hf : IsUnsigned f) :
    IsUnsigned (Float.Model.pack f).unpack := by
  change IsUnsigned (UnpackedFloat.unpack .binary64 (UnpackedFloat.pack .binary64 f))
  cases f with
  | notANumber => exact hf.elim
  | infinity s =>
    obtain rfl : s = .positive := hf
    rfl
  | zero s =>
    obtain rfl : s = .positive := hf
    rfl
  | finite s m e hm =>
    obtain rfl : s = .positive := hf
    unfold UnpackedFloat.pack
    dsimp only
    generalize (e + (Format.binary64.exponentBias : ℤ) +
      (Format.binary64.mantissaBitsWithoutImplicit : ℤ)).toNat = biased
    split_ifs with hroom
    · rfl
    · refine isUnsigned_packComponents (fun h => ?_) _
      have hbiased := congrArg BitVec.toNat h
      change biased % 2 ^ 11 = 2047 at hbiased
      change ¬ 2 ^ 11 ≤ biased + 1 at hroom
      omega
    · exact isUnsigned_packComponents (by decide) _

/-- A double without a sign is infinite or finite, and no other is read from a numeral. -/
def Unsigned (x : Float) : Prop :=
  Binary.ofFloat x = .infinite false ∨ ∃ m q, Binary.ofFloat x = .finite false m q

theorem unsigned_pack {f : UnpackedFloat} (hf : IsUnsigned f) : Unsigned ⟨Float.Model.pack f⟩ := by
  have hagrees := agrees_unpack (Float.toBits ⟨Float.Model.pack f⟩).toBitVec
  have hunsigned := isUnsigned_pack hf
  change Agrees (Float.Model.pack f).unpack (Binary.ofFloat ⟨Float.Model.pack f⟩) at hagrees
  cases hunpack : (Float.Model.pack f).unpack with
  | notANumber =>
    rw [hunpack] at hunsigned
    exact hunsigned.elim
  | infinity s =>
    rw [hunpack] at hunsigned hagrees
    obtain rfl : s = .positive := hunsigned
    exact Or.inl hagrees
  | zero s =>
    rw [hunpack] at hunsigned hagrees
    obtain rfl : s = .positive := hunsigned
    exact Or.inr ⟨_, _, hagrees⟩
  | finite s m q hm =>
    rw [hunpack] at hunsigned hagrees
    obtain rfl : s = .positive := hunsigned
    exact Or.inr ⟨_, _, hagrees.1⟩

theorem unsigned_floatOfScientific {d : ℕ} (hd : 0 < d) (negative : Bool) (k : ℕ) :
    Unsigned (Float.ofScientific d negative k) := by
  unfold Float.ofScientific
  split
  · rename_i h
    have hk : k < Float.exactlyRepresentablePowersOfTen.size := Nat.lt_succ_of_le h.2
    obtain ⟨mp, qp, hmp, hpower, -⟩ := unpack_power hk
    have hdigits := unpack_ofParts .positive (canonical_shifted hd h.1)
    rw [← toFloat_eq hd h.1] at hdigits
    cases negative with
    | true =>
      refine unsigned_pack (f := UnpackedFloat.div .binary64 d.toUInt64.toFloat.toModel.unpack
        Float.exactlyRepresentablePowersOfTen[k].toModel.unpack) ?_
      rw [hdigits, hpower]
      exact isUnsigned_roundWithAccuracy _ _ _ _
    | false =>
      refine unsigned_pack (f := UnpackedFloat.mul .binary64 d.toUInt64.toFloat.toModel.unpack
        Float.exactlyRepresentablePowersOfTen[k].toModel.unpack) ?_
      rw [hdigits, hpower]
      exact isUnsigned_roundWithAccuracy _ _ _ _
  · exact unsigned_pack (isUnsigned_ofScientific _ _ _)

theorem unsigned_nearestFloat (d : ℕ) (e : ℤ) : Unsigned (nearestFloat d e) := by
  have hzero : Unsigned 0.0 := Or.inr ⟨0, -1074, by decide +kernel⟩
  have hinfinity : Unsigned infinity := Or.inl (by decide +kernel)
  unfold nearestFloat
  dsimp only
  split_ifs with hd
  · exact hzero
  · exact hinfinity
  · exact hzero
  · exact unsigned_floatOfScientific (Nat.pos_of_ne_zero hd) _ _

theorem unsigned_ofLexeme (cs : List Char) : Unsigned (ofLexeme cs) := unsigned_nearestFloat _ _

theorem isInf_iff {x : Float} : x.isInf = true ↔ ∃ negative, Binary.ofFloat x = .infinite negative := by
  have hagrees : Agrees x.toModel.unpack (Binary.ofFloat x) := agrees_unpack x.toBits.toBitVec
  change x.toModel.unpack.isInf = true ↔ _
  generalize x.toModel.unpack = f at hagrees ⊢
  cases f with
  | infinity s => exact ⟨fun _ => ⟨_, hagrees⟩, fun _ => rfl⟩
  | notANumber | zero s =>
    rw [show Binary.ofFloat x = _ from hagrees]
    exact ⟨nofun, nofun⟩
  | finite s m q hm =>
    rw [hagrees.1]
    exact ⟨nofun, nofun⟩

theorem Unsigned.finite {x : Float} (h : Unsigned x) (hx : x.isInf = false) :
    ∃ m q, Binary.ofFloat x = .finite false m q := by
  refine h.resolve_left fun hinfinite => ?_
  rw [isInf_iff.mpr ⟨_, hinfinite⟩] at hx
  cases hx

/-! ### Integral numbers -/

theorem nearestFloat_of_integerValue? {x : Float} {m : ℕ} {q : ℤ} {n : ℤ}
    (hx : Binary.ofFloat x = .finite false m q) (h : integerValue? x = some n) :
    ∃ k : ℕ, n = k ∧ x = nearestFloat k 0 := by
  have hvalue : ∃ k : ℕ, n = k ∧ (k : ℚ) = m * 2 ^ q := by
    simp only [integerValue?, hx, Bool.false_eq_true, if_false] at h
    split_ifs at h with hq hdvd
    · obtain rfl := Option.some.inj h
      obtain ⟨e, rfl⟩ := Int.eq_ofNat_of_zero_le hq
      exact ⟨_, rfl, by push_cast; norm_num⟩
    · obtain rfl := Option.some.inj h
      obtain ⟨e, rfl⟩ : ∃ e : ℕ, q = -e := ⟨(-q).toNat, by omega⟩
      refine ⟨_, rfl, ?_⟩
      rw [neg_neg, Int.toNat_natCast, Nat.pow_eq] at hdvd ⊢
      rw [Nat.cast_div (Nat.dvd_of_mod_eq_zero hdvd) (by positivity), Nat.cast_pow, zpow_neg,
        zpow_natCast, div_eq_mul_inv]
      rfl
    · cases h
  obtain ⟨k, rfl, hk⟩ := hvalue
  refine ⟨k, rfl, ?_⟩
  have hdouble := hx ▸ double_ofFloat x
  cases hdouble with
  | zero =>
    rw [Nat.cast_zero, zero_mul, Nat.cast_eq_zero] at hk
    rw [hk]
    rfl
  | finite _ hc =>
    have hround := RoundsTo.self hc.pos q
    rw [← hk, ← mul_one (k : ℚ), ← zpow_zero (10 : ℚ)] at hround
    rw [nearestFloat_eq hc hround]
    rfl

/-- What is written of a finite number without a sign denotes a decimal whose nearest double it is. -/
theorem denotes_exact {x : Float} {m : ℕ} {q : ℤ} (hx : Binary.ofFloat x = .finite false m q) :
    ∃ body d, exact x = String.ofList body ∧ Denotes body d ∧ nearestFloat d.digits d.exponent = x := by
  unfold exact
  split
  · rename_i n hn
    obtain ⟨k, rfl, rfl⟩ := nearestFloat_of_integerValue? hx hn
    refine ⟨digitChars k, ⟨natOfDigits (digitChars k), 0⟩, rfl, ?_, ?_⟩
    · have hdenotes := Denotes.ofDigits (digits_digitChars k) exponentText_nil
      rwa [List.append_nil] at hdenotes
    · rw [natOfDigits_digitChars]
  · obtain ⟨d, hbody, -, hread⟩ := denotes_unsignedChars hx .marked (Or.inr rfl)
    exact ⟨_, d, write_finite hx .marked, hbody, hread⟩

theorem exact_infinity {x : Float} (h : Unsigned x) (hx : x.isInf = true) : exact x = "inf" := by
  obtain ⟨negative, hinfinite⟩ := isInf_iff.mp hx
  obtain hpositive | ⟨m, q, hfinite⟩ := h
  · rw [exact, integerValue?, hpositive]
    change Style.marked.write x = "inf"
    rw [Style.write, hpositive]
    rfl
  · rw [hinfinite] at hfinite
    cases hfinite

theorem float?_exact {x : Float} {m : ℕ} {q : ℤ} (hx : Binary.ofFloat x = .finite false m q) :
    float? (exact x) = some x := by
  obtain ⟨body, d, htext, hbody, hread⟩ := denotes_exact hx
  have hfloat := hbody.float?_signed false
  rwa [signed, if_neg Bool.false_ne_true, if_neg Bool.false_ne_true, hread, ← htext] at hfloat

end Lox.Decimal
