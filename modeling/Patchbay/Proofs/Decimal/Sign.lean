import Patchbay.Decimal.Text
import Patchbay.Proofs.Decimal.Finite

/-! Numbers read from digits have no sign. Rounding, scaling and packing keep the sign of what they
are given. -/
namespace Patchbay.Decimal
open Float.Model UnpackedFloat

/-- A number without a sign, or none at all. -/
def isUnsigned : UnpackedFloat → Bool
  | .infinity .negative | .zero .negative | .finite .negative _ _ _ => false
  | .infinity .positive | .zero .positive | .finite .positive _ _ _ | .notANumber => true

theorem isUnsigned_round (mantissa : Nat) (exponent : Int) (accuracy : Accuracy) :
    isUnsigned (roundWithAccuracy Format.binary64 .positive mantissa exponent accuracy) = true := by
  rw [roundWithAccuracy]
  dsimp only
  split <;> rfl

theorem isUnsigned_mul {f g : UnpackedFloat} (hf : isUnsigned f = true) (hg : isUnsigned g = true) :
    isUnsigned (UnpackedFloat.mul Format.binary64 f g) = true := by
  rcases f with (_ | _) | _ | (_ | _) | ⟨(_ | _), _, _, _⟩ <;> cases hf <;>
    rcases g with (_ | _) | _ | (_ | _) | ⟨(_ | _), _, _, _⟩ <;> cases hg <;> try rfl
  exact isUnsigned_round _ _ _

theorem isUnsigned_div {f g : UnpackedFloat} (hf : isUnsigned f = true) (hg : isUnsigned g = true) :
    isUnsigned (UnpackedFloat.div Format.binary64 f g) = true := by
  rcases f with (_ | _) | _ | (_ | _) | ⟨(_ | _), _, _, _⟩ <;> cases hf <;>
    rcases g with (_ | _) | _ | (_ | _) | ⟨(_ | _), _, _, _⟩ <;> cases hg <;> try rfl
  exact isUnsigned_round _ _ _

theorem unpackSign_pack {f : UnpackedFloat} (h : isUnsigned f = true) :
    unpackSign (pack Format.binary64 f) = 0#1 := by
  rcases f with (_ | _) | _ | (_ | _) | ⟨(_ | _), _, _, _⟩ <;> cases h
  · exact unpackSign_packComponents _ _ _
  · exact unpackSign_packComponents _ _ _
  · exact unpackSign_packComponents _ _ _
  · rw [UnpackedFloat.pack]
    dsimp only
    split
    · exact unpackSign_packComponents _ _ _
    · split <;> exact unpackSign_packComponents _ _ _

theorem isUnsigned_unpack {bits : BitVec Format.binary64.numBits} (h : unpackSign bits = 0#1) :
    isUnsigned (unpack Format.binary64 bits) = true := by
  rw [UnpackedFloat.unpack]
  simp only [h]
  split
  · split <;> rfl
  · split
    · split <;> rfl
    · rfl

/-- The sign that is shown is the one that is packed. -/
theorem isNegative_eq_false {x : Float}
    (h : @unpackSign Format.binary64 x.toBits.toBitVec = 0#1) : isNegative x = false := by
  refine decide_eq_false fun hone => ?_
  have hbits : x.toBits.toNat >>> 63 = 1 := congrArg UInt64.toNat hone
  have htop : BitVec.ofNat 1 (x.toBits.toNat >>> 63) = 0#1 := (unpackSign_def _).symm.trans h
  rw [hbits] at htop
  cases htop

theorem isNegative_pack {f : UnpackedFloat} (h : isUnsigned f = true) :
    isNegative (Float.ofModel (Float.Model.pack f)) = false :=
  isNegative_eq_false (unpackSign_pack h)

theorem isUnsigned_ofUInt64 (n : UInt64) : isUnsigned n.toFloat.toModel.unpack = true := by
  refine isUnsigned_unpack (unpackSign_pack ?_)
  rw [UnpackedFloat.ofUInt64, UnpackedFloat.ofNat, UnpackedFloat.ofInt, UnpackedFloat.normalize]
  split
  · next hlt => exact absurd (compare_lt_iff_lt.mp hlt) (by omega)
  · rfl
  · exact isUnsigned_round _ _ _

theorem isUnsigned_powerOfTen :
    ∀ f ∈ Float.exactlyRepresentablePowersOfTen, isUnsigned f.toModel.unpack = true := by
  decide +kernel

theorem isUnsigned_ofScientific (digits : Nat) (power : Int) :
    isUnsigned (UnpackedFloat.ofScientific Format.binary64 digits power) = true := by
  rw [UnpackedFloat.ofScientific]
  split
  · rfl
  · split
    · rfl
    · split
      · rfl
      · split
        · exact isUnsigned_round _ _ _
        · exact isUnsigned_round _ _ _

theorem isNegative_ofScientific (digits : Nat) (negative : Bool) (e : Nat) :
    isNegative (Float.ofScientific digits negative e) = false := by
  rw [Float.ofScientific]
  split
  · next hsmall =>
    have hdigits := isUnsigned_ofUInt64 digits.toUInt64
    have hpower := isUnsigned_powerOfTen _ (Array.getElem_mem (Nat.lt_succ_of_le hsmall.2))
    dsimp only
    split
    · exact isNegative_pack (isUnsigned_div hdigits hpower)
    · exact isNegative_pack (isUnsigned_mul hdigits hpower)
  · exact isNegative_pack (isUnsigned_ofScientific _ _)

/-- What is read from digits has no sign. -/
theorem isNegative_toFloat (d : Decimal) : isNegative d.toFloat = false := by
  rw [toFloat]
  split
  · decide +kernel
  · split
    · decide +kernel
    · split
      · decide +kernel
      · exact isNegative_ofScientific _ _ _

end Patchbay.Decimal
