import Mathlib
import Patchbay.Decimal.Basic

/-! Numbers that stay far from the largest one. The exponent of a product bounds that of its
rounding, so that 64-bit natural numbers are finite. -/
namespace Patchbay.Decimal
open Float.Model UnpackedFloat

/-- A number without infinity, with a short mantissa and an exponent no larger than told. -/
def Below (bound : Int) : UnpackedFloat → Prop
  | .infinity _ | .notANumber => False
  | .zero _ => True
  | .finite _ mantissa exponent _ => mantissa < 2 ^ 53 ∧ exponent ≤ bound

theorem targetExponent_eq (total : Int) :
    Format.binary64.targetExponent total = max (total - 53) (-1074) := by
  rw [Format.targetExponent]
  rfl

theorem mantissa_repeat (n : Nat) (em : ExtendedMantissa) :
    (Nat.repeat ExtendedMantissa.shiftRightOne n em).mantissa = em.mantissa / 2 ^ n := by
  induction n with
  | zero => simp [Nat.repeat]
  | succ n ih =>
    rw [Nat.repeat, ExtendedMantissa.shiftRightOne, ih, Nat.div_div_eq_div_mul, Nat.pow_succ]

theorem mantissa_shiftToExponent (mantissa : Nat) (exponent : Int) (accuracy : Accuracy)
    (target : Int) : (shiftToExponent mantissa exponent accuracy target).1.mantissa =
      mantissa / 2 ^ (target - exponent).toNat := by
  rw [shiftToExponent]
  refine (mantissa_repeat _ _).trans ?_
  rcases accuracy with _ | _ | _ | _ <;> rfl

theorem roundedMantissa_le (em : ExtendedMantissa) : em.roundedMantissa ≤ em.mantissa + 1 := by
  rw [ExtendedMantissa.roundedMantissa, Accuracy.roundToNearestEven.eq_def]
  split <;> omega

theorem mantissa_shift_lt (mantissa : Nat) (exponent : Int) (accuracy : Accuracy) :
    (shiftToTargetExponent Format.binary64 mantissa exponent accuracy).1.mantissa < 2 ^ 53 := by
  rw [shiftToTargetExponent, mantissa_shiftToExponent, targetExponent_eq, totalExponent]
  have hlt := Nat.lt_log2_self (n := mantissa)
  generalize mantissa.log2 = top at hlt
  rw [Nat.div_lt_iff_lt_mul (Nat.two_pow_pos _), ← Nat.pow_add]
  exact Nat.lt_of_lt_of_le hlt (Nat.pow_le_pow_right (by decide) (by omega))

theorem exponent_shift (mantissa : Nat) (exponent : Int) (accuracy : Accuracy) :
    (shiftToTargetExponent Format.binary64 mantissa exponent accuracy).2 =
      max exponent (max (mantissa.log2 + exponent - 52) (-1074)) := by
  rw [shiftToTargetExponent, shiftToExponent, targetExponent_eq, totalExponent]
  dsimp only
  omega

/-- Rounding adds at most one to the exponent. -/
theorem below_round {bound : Int} (hbound : -1074 ≤ bound) {mantissa : Nat} {exponent : Int}
    (hexponent : exponent ≤ bound) (hmantissa : mantissa.log2 + exponent - 52 ≤ bound)
    (sign : UnpackedFloat.Sign) (accuracy : Accuracy) :
    Below (bound + 1) (roundWithAccuracy Format.binary64 sign mantissa exponent accuracy) := by
  have hlt := mantissa_shift_lt mantissa exponent accuracy
  have hfirst := exponent_shift mantissa exponent accuracy
  rw [roundWithAccuracy]
  generalize shiftToTargetExponent Format.binary64 mantissa exponent accuracy = shifted at *
  obtain ⟨em, first⟩ := shifted
  have hrounded := roundedMantissa_le em
  dsimp only at *
  generalize em.roundedMantissa = rounded at hrounded
  have hlog : rounded.log2 ≤ 53 := by
    by_cases hzero : rounded = 0
    · simp [hzero]
    · exact Nat.le_of_lt_succ ((Nat.log2_lt hzero).mpr (by omega))
  have hagain := mantissa_shift_lt rounded first .exact
  have hsecond := exponent_shift rounded first .exact
  generalize shiftToTargetExponent Format.binary64 rounded first .exact = again at *
  obtain ⟨em', second⟩ := again
  dsimp only at *
  split
  · trivial
  · exact ⟨hagain, by omega⟩

theorem round_ne_notANumber (sign : UnpackedFloat.Sign) (mantissa : Nat) (exponent : Int)
    (accuracy : Accuracy) :
    roundWithAccuracy Format.binary64 sign mantissa exponent accuracy ≠ .notANumber := by
  rw [roundWithAccuracy]
  dsimp only
  split <;> simp

/-- What is packed with an exponent that stands for neither infinity nor NaN. -/
theorem below_packComponents {bound : Int} {exponent : BitVec 11} (hne : exponent ≠ -1#11)
    (hbound : -1074 ≤ bound) (hexponent : (exponent.toNat : Int) - 1075 ≤ bound)
    (sign : UnpackedFloat.Sign) (mantissa : BitVec 52) :
    Below bound (unpack Format.binary64
      (packComponents Format.binary64 sign exponent mantissa)) := by
  have hbias : Format.binary64.exponentBias = 1023 := rfl
  rw [UnpackedFloat.unpack]
  simp only [unpackExponent_packComponents, unpackMantissa_packComponents, hne, ↓reduceIte, hbias]
  split
  · next hzero =>
    split
    · trivial
    · refine ⟨Nat.lt_trans mantissa.isLt (by decide), ?_⟩
      rw [hzero, BitVec.toNat_zero]
      omega
  · exact ⟨(1#1 ++ mantissa).isLt, by omega⟩

theorem below_unpack_pack {bound : Int} (hlow : -1074 ≤ bound) (hhigh : bound ≤ 971)
    {f : UnpackedFloat} (h : Below bound f) :
    Below bound (unpack Format.binary64 (pack Format.binary64 f)) := by
  have hbias : Format.binary64.exponentBias = 1023 := rfl
  cases f with
  | infinity _ => exact h.elim
  | notANumber => exact h.elim
  | zero sign => exact below_packComponents (by decide) hlow (by simp; omega) sign 0#52
  | finite sign mantissa exponent hpos =>
    have hexponent := h.2
    have hbiased : ((exponent + (1023 : Nat) + (52 : Nat)).toNat : Int) ≤ bound + 1075 := by omega
    rw [UnpackedFloat.pack]
    simp only [hbias]
    generalize (exponent + (1023 : Nat) + (52 : Nat)).toNat = biased at hbiased
    rw [if_neg (by omega)]
    split
    · have htop : (BitVec.ofNat 11 biased).toNat = biased := by
        rw [BitVec.toNat_ofNat]
        omega
      refine below_packComponents (fun hall => ?_) hlow (by omega) sign _
      rw [hall, show (-1#11 : BitVec 11).toNat = 2047 from rfl] at htop
      omega
    · exact below_packComponents (by decide) hlow (by simp; omega) sign _

theorem Below.isFinite {bound : Int} {f : UnpackedFloat} (h : Below bound f) :
    f.isFinite = true ∧ f.isInf = false ∧ f.isNaN = false := by
  cases f with
  | infinity _ => exact h.elim
  | notANumber => exact h.elim
  | _ => exact ⟨rfl, rfl, rfl⟩

theorem isFinite_pack {bound : Int} (hlow : -1074 ≤ bound) (hhigh : bound ≤ 971) {f : UnpackedFloat}
    (h : Below bound f) : (Float.ofModel (Float.Model.pack f)).isFinite = true :=
  (below_unpack_pack hlow hhigh h).isFinite.1

theorem isNaN_pack {f : UnpackedFloat} (h : f ≠ .notANumber) :
    (Float.ofModel (Float.Model.pack f)).isNaN = false := by
  show (unpack Format.binary64 (pack Format.binary64 f)).isNaN = false
  have infinite : ∀ sign,
      (unpack Format.binary64 (packedInfinity Format.binary64 sign)).isNaN = false := by
    intro sign
    cases sign <;> decide +kernel
  have packed : ∀ (sign : UnpackedFloat.Sign) (exponent : BitVec 11) (mantissa : BitVec 52),
      exponent ≠ -1#11 →
        (unpack Format.binary64 (packComponents Format.binary64 sign exponent mantissa)).isNaN =
          false := by
    intro sign exponent mantissa hne
    have htop : (exponent.toNat : Int) - 1075 ≤ 973 := by omega
    exact (below_packComponents hne (by decide) htop sign mantissa).isFinite.2.2
  cases f with
  | notANumber => exact absurd rfl h
  | infinity sign => exact infinite sign
  | zero sign => exact packed sign 0#11 0#52 (by decide)
  | finite sign mantissa exponent hpos =>
    rw [UnpackedFloat.pack]
    simp only
    split
    · exact infinite sign
    · next hsmall =>
      split
      · refine packed sign _ _ fun hall => ?_
        have htop := congrArg BitVec.toNat hall
        rw [BitVec.toNat_ofNat, show (-1#11 : BitVec 11).toNat = 2047 from rfl] at htop
        omega
      · exact packed sign 0#11 _ (by decide)

/-- All finite numbers have exponents below those of infinity and NaN. -/
theorem below_of_isFinite {x : Float} (h : x.isFinite = true) : Below 971 x.toModel.unpack := by
  have hbias : Format.binary64.exponentBias = 1023 := rfl
  rw [Float.isFinite, Float.Model.isFinite] at h
  rw [Float.Model.unpack, UnpackedFloat.unpack] at h ⊢
  simp only [hbias] at h ⊢
  split at h
  · split at h <;> cases h
  · next hne =>
    have htop : (@unpackExponent Format.binary64 x.toModel.toBits.toBitVec).toNat ≠ 2047 :=
      fun htop => hne (BitVec.eq_of_toNat_eq htop)
    have hlt : (@unpackExponent Format.binary64 x.toModel.toBits.toBitVec).toNat < 2048 :=
      BitVec.isLt _
    rw [if_neg hne]
    split
    · next hzero =>
      split
      · trivial
      · refine ⟨Nat.lt_trans (BitVec.isLt _) (by decide), ?_⟩
        rw [hzero, BitVec.toNat_zero]
        omega
    · exact ⟨BitVec.isLt _, by omega⟩

theorem isFinite_iff {x : Float} : x.isFinite = true ↔ x.isNaN = false ∧ x.isInf = false := by
  rw [Float.isFinite, Float.isNaN, Float.isInf, Float.Model.isFinite, Float.Model.isNaN,
    Float.Model.isInf]
  cases x.toModel.unpack <;>
    simp [UnpackedFloat.isFinite, UnpackedFloat.isNaN, UnpackedFloat.isInf]

theorem isFinite_neg {x : Float} (h : x.isFinite = true) : (-x).isFinite = true := by
  have hbelow := below_of_isFinite h
  refine isFinite_pack (show (-1074 : Int) ≤ 971 by decide) (by decide) ?_
  generalize x.toModel.unpack = f at hbelow
  cases f with
  | infinity _ => exact hbelow.elim
  | notANumber => exact hbelow.elim
  | zero _ => trivial
  | finite sign mantissa exponent hpos => exact hbelow

theorem log2_mul_two_pow {n : Nat} (h : n ≠ 0) (k : Nat) : (n * 2 ^ k).log2 = n.log2 + k := by
  induction k with
  | zero => simp
  | succ k ih =>
    have hne : n * 2 ^ k ≠ 0 := Nat.mul_ne_zero h (Nat.ne_of_gt (Nat.two_pow_pos k))
    rw [Nat.pow_succ, ← Nat.mul_assoc, Nat.mul_comm _ 2, Nat.log2_two_mul hne, ih, Nat.add_assoc]

theorem below_ofUInt64 (n : UInt64) : Below 12 n.toFloat.toModel.unpack := by
  refine below_unpack_pack (by decide) (by decide) ?_
  rw [UnpackedFloat.ofUInt64, UnpackedFloat.ofNat, UnpackedFloat.ofInt,
    UnpackedFloat.normalize]
  have hlt := n.toNat_lt
  generalize n.toNat = m at hlt
  cases m with
  | zero => trivial
  | succ m =>
    have hgt : compare ((m + 1 : Nat) : Int) 0 = .gt := by
      rw [Int.compare_eq_gt]
      omega
    rw [hgt]
    dsimp only
    rw [UnpackedFloat.round, UnpackedFloat.decreaseExponent]
    dsimp only
    rw [Nat.shiftLeft_eq]
    have hlog := (Nat.log2_lt (Nat.succ_ne_zero m)).mpr hlt
    refine below_round (show (-1074 : Int) ≤ 11 by decide) (by omega) ?_ _ _
    rw [Int.toNat_natCast, log2_mul_two_pow (Nat.succ_ne_zero m)]
    omega

/-- Whether a number is finite and not zero. -/
def isProper : UnpackedFloat → Bool
  | .finite _ _ _ _ => true
  | .infinity _ | .notANumber | .zero _ => false

/-- The powers of ten that small numbers are scaled with. -/
theorem isProper_powerOfTen :
    ∀ e : Fin Float.exactlyRepresentablePowersOfTen.size,
      isProper (Float.exactlyRepresentablePowersOfTen[e]).toModel.unpack = true := by
  decide +kernel

theorem scaled_ne_notANumber {f g : UnpackedFloat} (hf : Below 12 f) (hg : isProper g = true) :
    UnpackedFloat.mul Format.binary64 f g ≠ .notANumber ∧
      UnpackedFloat.div Format.binary64 f g ≠ .notANumber := by
  cases g with
  | finite sign mantissa exponent hpos =>
    cases f with
    | infinity _ => exact hf.elim
    | notANumber => exact hf.elim
    | zero _ => simp [UnpackedFloat.mul, UnpackedFloat.div]
    | finite sign' mantissa' exponent' hpos' =>
      exact ⟨round_ne_notANumber _ _ _ _, round_ne_notANumber _ _ _ _⟩
  | _ => cases hg

theorem ofScientific_ne_notANumber (digits : Nat) (power : Int) :
    UnpackedFloat.ofScientific Format.binary64 digits power ≠ .notANumber := by
  rw [UnpackedFloat.ofScientific]
  split
  · simp
  · split
    · simp
    · split
      · simp
      · split
        · exact round_ne_notANumber _ _ _ _
        · exact round_ne_notANumber _ _ _ _

/-- Digits never stand for NaN. -/
theorem isNaN_ofScientific (digits : Nat) (negative : Bool) (e : Nat) :
    (Float.ofScientific digits negative e).isNaN = false := by
  rw [Float.ofScientific]
  split
  · next hsmall =>
    have hpower := isProper_powerOfTen ⟨e, Nat.lt_succ_of_le hsmall.2⟩
    obtain ⟨hmul, hdiv⟩ := scaled_ne_notANumber (below_ofUInt64 digits.toUInt64) hpower
    dsimp only
    split
    · exact isNaN_pack hdiv
    · exact isNaN_pack hmul
  · exact isNaN_pack (ofScientific_ne_notANumber _ _)

/-- The value one, which small numbers are multiplied with. -/
theorem unpack_one : (Float.ofBits 4607182418800017408).toModel.unpack =
    .finite .positive (2 ^ 52) (-52) (by decide) := rfl

theorem isFinite_mul_one {f : UnpackedFloat} (h : Below 12 f) :
    (Float.ofModel (Float.Model.pack (UnpackedFloat.mul Format.binary64 f
      (Float.ofBits 4607182418800017408).toModel.unpack))).isFinite = true := by
  rw [unpack_one]
  cases f with
  | infinity _ => exact h.elim
  | notANumber => exact h.elim
  | zero _ => exact isFinite_pack (show (-1074 : Int) ≤ 0 by decide) (by decide) trivial
  | finite sign mantissa exponent hpos =>
    obtain ⟨hmantissa, hexponent⟩ := h
    have hne := Nat.ne_of_gt hpos
    have hlog := (Nat.log2_lt hne).mpr hmantissa
    refine isFinite_pack (show (-1074 : Int) ≤ 13 by decide) (by decide) ?_
    refine below_round (show (-1074 : Int) ≤ 12 by decide) (by omega) ?_ _ _
    rw [log2_mul_two_pow hne]
    omega

theorem isFinite_natural {n : Nat} (h : n < UInt64.size) :
    (Float.ofScientific n false 0).isFinite = true := by
  rw [Float.ofScientific]
  split
  · exact isFinite_mul_one (below_ofUInt64 n.toUInt64)
  · next hlarge =>
    have hne : n ≠ 0 := by
      rintro rfl
      exact hlarge ⟨by decide, by decide⟩
    have hlog : n.log2 < 64 := (Nat.log2_lt hne).mpr h
    show (Float.ofModel (Float.Model.pack
      (UnpackedFloat.ofScientific Format.binary64 n 0))).isFinite = true
    have hsmall : ¬ (0 : Int) < -(2 ^ 11 + (n.log2 : Int)) := by omega
    rw [UnpackedFloat.ofScientific, dif_neg hne, if_neg (by decide), if_neg hsmall,
      if_pos (by decide), UnpackedFloat.mul]
    simp only [Nat.shiftLeft_eq, Format.mantissaBits, Int.toNat_zero, Nat.pow_zero, Nat.mul_one]
    refine isFinite_pack (show (-1074 : Int) ≤ 12 by decide) (by decide) ?_
    refine below_round (show (-1074 : Int) ≤ 11 by decide) (by decide) ?_ _ _
    rw [log2_mul_two_pow hne]
    omega

end Patchbay.Decimal
