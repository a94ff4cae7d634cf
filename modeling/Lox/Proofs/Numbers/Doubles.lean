import Lox.Decimal.Reader
import Lox.Proofs.Numbers.Rounding

/-!
# Doubles and their parts

A double is not a number, an infinity, a zero, or a sign with a mantissa and an exponent in canonical form,
and made of these parts again.
-/

namespace Lox.Decimal

open Float.Model Float.Model.UnpackedFloat

/-! ### Packing -/

theorem append_implicit {w : ℕ} (m : BitVec w) : (1#1 ++ m).toNat = 2 ^ w + m.toNat := by
  rw [BitVec.toNat_append, BitVec.toNat_ofNat, ← Nat.shiftLeft_add_eq_or_of_lt m.isLt, Nat.shiftLeft_eq]
  norm_num

theorem unpack_normal (s : Sign) {e f : ℕ} (hfirst : 0 < e) (hlast : e < 2047) (hf : f < 2 ^ 52)
    (hpos : 0 < 2 ^ 52 + f) :
    UnpackedFloat.unpack .binary64 (packComponents .binary64 s (.ofNat 11 e) (.ofNat 52 f)) =
      .finite s (2 ^ 52 + f) ((e : ℤ) - 1075) hpos := by
  have he : (BitVec.ofNat 11 e).toNat = e := Nat.mod_eq_of_lt (by omega)
  have hmantissa : (1#1 ++ BitVec.ofNat 52 f).toNat = 2 ^ 52 + f := by
    rw [append_implicit, BitVec.toNat_ofNat, Nat.mod_eq_of_lt hf]
  have hall : BitVec.ofNat 11 e ≠ -1#11 := fun h => by
    have := congrArg BitVec.toNat h
    rw [he] at this
    exact absurd this hlast.ne
  have hnone : BitVec.ofNat 11 e ≠ 0#11 := fun h => by
    have := congrArg BitVec.toNat h
    rw [he] at this
    exact absurd this hfirst.ne'
  unfold UnpackedFloat.unpack
  simp only [unpackExponent_packComponents, unpackMantissa_packComponents, unpackSign_packComponents,
    Sign.ofBitVec_toBitVec]
  rw [if_neg hall, if_neg hnone]
  simp only [hmantissa, he]
  rfl

theorem unpack_subnormal (s : Sign) {f : ℕ} (hf : f < 2 ^ 52) (hpos : 0 < f) :
    UnpackedFloat.unpack .binary64 (packComponents .binary64 s 0#11 (.ofNat 52 f)) =
      .finite s f (-1074) hpos := by
  have hmantissa : (BitVec.ofNat 52 f).toNat = f := Nat.mod_eq_of_lt hf
  have hsome : BitVec.ofNat 52 f ≠ 0#52 := fun h => by
    have := congrArg BitVec.toNat h
    rw [hmantissa] at this
    exact absurd this hpos.ne'
  unfold UnpackedFloat.unpack
  simp only [unpackExponent_packComponents, unpackMantissa_packComponents, unpackSign_packComponents,
    Sign.ofBitVec_toBitVec]
  rw [if_neg (by decide), if_pos trivial, dif_neg hsome]
  simp only [hmantissa]
  rfl

/-- A canonical mantissa with its exponent is packed without loss. -/
theorem unpack_pack (s : Sign) {m : ℕ} {q : ℤ} (hc : Canonical m q) :
    (Float.Model.pack (.finite s m q hc.pos)).unpack = .finite s m q hc.pos := by
  obtain ⟨hpos, hbits, hleast, hgreatest, hnormal⟩ := hc
  have hbiased : q + (Format.binary64.exponentBias : ℤ) +
      (Format.binary64.mantissaBitsWithoutImplicit : ℤ) = ((q + 1075).toNat : ℤ) := by
    rw [show (Format.binary64.exponentBias : ℤ) = 1023 from rfl,
      show (Format.binary64.mantissaBitsWithoutImplicit : ℤ) = 52 from rfl]
    omega
  have hroom : ¬ 2 ^ Format.binary64.exponentBits ≤ (q + 1075).toNat + 1 := by
    rw [show 2 ^ Format.binary64.exponentBits = 2048 from rfl]
    omega
  change UnpackedFloat.unpack .binary64 (UnpackedFloat.pack .binary64 _) = _
  unfold UnpackedFloat.pack
  dsimp only
  rw [hbiased, Int.toNat_natCast, if_neg hroom]
  by_cases hsize : 2 ^ 52 ≤ m
  · have hlog : m.log2 + 1 = Format.binary64.mantissaBits :=
      congrArg (· + 1) ((Nat.log2_eq_iff hpos.ne').mpr ⟨hsize, hbits⟩)
    obtain ⟨f, rfl⟩ := Nat.exists_eq_add_of_le hsize
    have hrest : BitVec.ofNat 52 (2 ^ 52 + f) = BitVec.ofNat 52 f := by
      rw [BitVec.ofNat_add, show BitVec.ofNat 52 (2 ^ 52) = 0#52 from rfl, BitVec.zero_add]
    rw [if_pos hlog, hrest, unpack_normal s (by omega) (by omega) (by omega) (by omega)]
    congr 1
    omega
  · have hlog : ¬ m.log2 + 1 = Format.binary64.mantissaBits := fun h => by
      have := (Nat.log2_lt hpos.ne').mpr (Nat.lt_of_not_le hsize)
      rw [show Format.binary64.mantissaBits = 53 from rfl] at h
      omega
    obtain rfl := hnormal.resolve_left hsize
    rw [if_neg hlog]
    exact unpack_subnormal s (Nat.lt_of_not_le hsize) hpos

/-! ### Parts -/

/-- The double that is made of a sign, a mantissa and an exponent. -/
def ofParts (s : Sign) (m : ℕ) (q : ℤ) (hm : 0 < m) : Float := ⟨Float.Model.pack (.finite s m q hm)⟩

theorem unpack_ofParts (s : Sign) {m : ℕ} {q : ℤ} (hc : Canonical m q) :
    (ofParts s m q hc.pos).toModel.unpack = .finite s m q hc.pos := unpack_pack s hc

theorem neg_ofParts (s : Sign) {m : ℕ} {q : ℤ} (hc : Canonical m q) :
    -(ofParts s m q hc.pos) = ofParts (-s) m q hc.pos := by
  change Float.neg _ = _
  unfold Float.neg
  change Float.ofModel (Float.Model.pack (ofParts s m q hc.pos).toModel.unpack.neg) = _
  rw [unpack_ofParts s hc]
  rfl

theorem eq_pack_unpack (x : Float) : x = ⟨Float.Model.pack x.toModel.unpack⟩ := by
  obtain ⟨⟨bits, valid⟩⟩ := x
  have hpack := pack_unpack_of_valid valid
  simp only [Float.Model.pack, Float.Model.unpack, hpack]

def isNegative : Sign → Bool
  | .negative => true
  | .positive => false

/-- The bits of a double are taken for what they are unpacked to. -/
def Agrees : UnpackedFloat → Binary → Prop
  | .notANumber, b => b = .nan
  | .infinity s, b => b = .infinite (isNegative s)
  | .zero s, b => b = .finite (isNegative s) 0 (-1074)
  | .finite s m q _, b => b = .finite (isNegative s) m q ∧ Canonical m q

section

variable (b : BitVec Format.binary64.numBits)

theorem toNat_unpackExponent : (unpackExponent b).toNat = b.toNat / 2 ^ 52 % 2 ^ 11 := by
  rw [unpackExponent_def, BitVec.extractLsb'_toNat, Nat.shiftRight_eq_div_pow]

theorem toNat_unpackMantissa : (unpackMantissa b).toNat = b.toNat % 2 ^ 52 := by
  rw [unpackMantissa_def, BitVec.extractLsb'_toNat, Nat.shiftRight_zero]

theorem isNegative_unpackSign :
    isNegative (Sign.ofBitVec (unpackSign b)) = decide (2 ^ 63 ≤ b.toNat) := by
  have hbit : (unpackSign b).toNat = b.toNat / 2 ^ 63 % 2 := by
    rw [unpackSign_def, BitVec.extractLsb'_toNat, Nat.shiftRight_eq_div_pow]
    rfl
  have hlt : b.toNat < 2 ^ 64 := b.isLt
  rw [Sign.ofBitVec]
  split
  · rename_i hzero
    rw [hzero, BitVec.toNat_zero] at hbit
    exact (decide_eq_false (by omega)).symm
  · rename_i hone
    have hone : (unpackSign b).toNat ≠ 0 := fun h => hone (BitVec.eq_of_toNat_eq h)
    exact (decide_eq_true (by omega)).symm

theorem agrees_unpack : Agrees (UnpackedFloat.unpack .binary64 b) (Binary.ofBits ⟨b⟩) := by
  have hbits : Binary.ofBits ⟨b⟩ =
      if (unpackExponent b).toNat = 2047 then
        if (unpackMantissa b).toNat = 0 then .infinite (isNegative (Sign.ofBitVec (unpackSign b)))
        else .nan
      else if (unpackExponent b).toNat = 0 then
        .finite (isNegative (Sign.ofBitVec (unpackSign b))) (unpackMantissa b).toNat (-1074)
      else
        .finite (isNegative (Sign.ofBitVec (unpackSign b))) (2 ^ 52 + (unpackMantissa b).toNat)
          ((unpackExponent b).toNat - 1075) := by
    rw [toNat_unpackExponent, toNat_unpackMantissa, isNegative_unpackSign]
    rfl
  have hlt : (unpackMantissa b).toNat < 2 ^ 52 := (unpackMantissa b).isLt
  have hlt' : (unpackExponent b).toNat < 2 ^ 11 := (unpackExponent b).isLt
  have hall : unpackExponent b = -1#_ ↔ (unpackExponent b).toNat = 2047 := BitVec.toNat_inj.symm
  have hnone : unpackExponent b = 0#_ ↔ (unpackExponent b).toNat = 0 := BitVec.toNat_inj.symm
  have hblank : unpackMantissa b = 0#_ ↔ (unpackMantissa b).toNat = 0 := BitVec.toNat_inj.symm
  rw [hbits]
  fun_cases UnpackedFloat.unpack .binary64 b with
  | case1 mantissa exponent signBit sign hexponent hmantissa =>
    rw [if_pos (hall.mp hexponent), if_pos (hblank.mp hmantissa)]
    rfl
  | case2 mantissa exponent hexponent hmantissa =>
    rw [if_pos (hall.mp hexponent), if_neg (mt hblank.mpr hmantissa)]
    rfl
  | case3 mantissa exponent signBit sign hexponent hexponent' hmantissa =>
    rw [if_neg (mt hall.mpr hexponent), if_pos (hnone.mp hexponent'), hblank.mp hmantissa]
    rfl
  | case4 mantissa exponent offset signBit sign hexponent hexponent' hmantissa =>
    have hzero := hnone.mp hexponent'
    have hpos : 0 < (unpackMantissa b).toNat := Nat.pos_of_ne_zero (mt hblank.mpr hmantissa)
    have hleast : offset + 1 = -1074 := by
      dsimp only [offset, exponent]
      rw [hzero]
      rfl
    rw [if_neg (mt hall.mpr hexponent), if_pos hzero, hleast]
    exact ⟨rfl, hpos, hlt.trans (by norm_num), le_refl _, by norm_num, Or.inr rfl⟩
  | case5 mantissa exponent offset signBit sign hexponent hexponent' =>
    have hpos : 0 < (unpackExponent b).toNat := Nat.pos_of_ne_zero (mt hnone.mpr hexponent')
    have hlast : (unpackExponent b).toNat ≠ 2047 := mt hall.mpr hexponent
    have hoffset : offset = ((unpackExponent b).toNat : ℤ) - 1075 := rfl
    have hmantissa : (1#1 ++ mantissa).toNat = 2 ^ 52 + (unpackMantissa b).toNat :=
      append_implicit (unpackMantissa b)
    rw [if_neg hlast, if_neg hpos.ne']
    simp only [hmantissa, hoffset]
    exact ⟨rfl, by omega, by omega, by omega, by omega, Or.inl (Nat.le_add_right _ _)⟩

end

/-! ### Kinds of doubles -/

/-- A double with what its bits are taken for. -/
inductive Double : Float → Binary → Prop where
  | nan : Double (0.0 / 0.0) .nan
  | infinite (negative : Bool) :
    Double (if negative then -infinity else infinity) (.infinite negative)
  | zero (negative : Bool) : Double (if negative then -0.0 else 0.0) (.finite negative 0 (-1074))
  | finite (negative : Bool) {m : ℕ} {q : ℤ} (hc : Canonical m q) :
    Double (if negative then -(ofParts .positive m q hc.pos) else ofParts .positive m q hc.pos)
      (.finite negative m q)

theorem double_ofFloat (x : Float) : Double x (Binary.ofFloat x) := by
  have hagrees : Agrees x.toModel.unpack (Binary.ofFloat x) := agrees_unpack x.toBits.toBitVec
  have hx := eq_pack_unpack x
  generalize Binary.ofFloat x = b at hagrees ⊢
  generalize x.toModel.unpack = f at hagrees hx
  rw [hx]
  cases f with
  | notANumber =>
    obtain rfl : b = .nan := hagrees
    have hnan : (⟨Float.Model.pack .notANumber⟩ : Float) = 0.0 / 0.0 := by
      rw [← Float.toBits_inj]
      decide +kernel
    rw [hnan]
    exact .nan
  | infinity s =>
    obtain rfl : b = .infinite (isNegative s) := hagrees
    have hinfinite : (⟨Float.Model.pack (.infinity s)⟩ : Float) =
        if isNegative s then -infinity else infinity := by
      rw [← Float.toBits_inj]
      cases s <;> decide +kernel
    rw [hinfinite]
    exact .infinite _
  | zero s =>
    obtain rfl : b = .finite (isNegative s) 0 (-1074) := hagrees
    have hzero : (⟨Float.Model.pack (.zero s)⟩ : Float) = if isNegative s then -0.0 else 0.0 := by
      rw [← Float.toBits_inj]
      cases s <;> decide +kernel
    rw [hzero]
    exact .zero _
  | finite s m q hm =>
    obtain ⟨rfl, hc⟩ : b = .finite (isNegative s) m q ∧ Canonical m q := hagrees
    have hparts : (⟨Float.Model.pack (.finite s m q hm)⟩ : Float) =
        if isNegative s then -(ofParts .positive m q hc.pos) else ofParts .positive m q hc.pos := by
      cases s with
      | positive => rfl
      | negative => exact (neg_ofParts .positive hc).symm
    rw [hparts]
    exact .finite _ hc

end Lox.Decimal
