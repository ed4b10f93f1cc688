import SignalFlow.Proofs.Binary64Order
import SignalFlow.Proofs.ExactArithmetic

/-!
# The sign of binary floating-point numbers

The sign of a number of the 64-bit binary format is a bit of its own, next to the exponent
and the fraction.  Negation changes this bit alone, so nothing is rounded: the value of a
negated number is the negated value.

**Results.**
* `unpack_neg`: the parts of a negated number.
* `exactValue_neg`, `extendedReading_negates`: its value, in a field and among the extended
  reals.
-/

namespace SignalFlow

/-- Negation of scalars is that of the values they stand for. -/
structure ExtendedReading.Negates {R : Type} [Scalar R]
    (ρ : ExtendedReading R) : Prop where
  defined : ∀ {a : R}, Scalar.Defined a → Scalar.Defined (-a)
  lit_neg : ∀ {a : R}, Scalar.Defined a → ρ.lit (-a) = -ρ.lit a

namespace Binary64

open Float.Model

/-- The bits with the sign changed and all other parts kept. -/
def flipSign (b : BitVec Format.binary64.numBits) : BitVec Format.binary64.numBits :=
  UnpackedFloat.packComponents Format.binary64 (-.ofBitVec (UnpackedFloat.unpackSign b))
    (UnpackedFloat.unpackExponent b) (UnpackedFloat.unpackMantissa b)

theorem unpack_flipSign (b : BitVec Format.binary64.numBits) :
    UnpackedFloat.unpack Format.binary64 (flipSign b) =
      (UnpackedFloat.unpack Format.binary64 b).neg := by
  unfold UnpackedFloat.unpack flipSign
  simp only [UnpackedFloat.unpackSign_packComponents,
    UnpackedFloat.unpackExponent_packComponents,
    UnpackedFloat.unpackMantissa_packComponents, UnpackedFloat.Sign.ofBitVec_toBitVec]
  split
  · split <;> rfl
  · split
    · split <;> rfl
    · rfl

theorem valid_flipSign {b : BitVec Format.binary64.numBits}
    (h : UnpackedFloat.unpack Format.binary64 b ≠ .notANumber) :
    Format.binary64.Valid (flipSign b) := by
  refine ⟨fun hexponent hmantissa => absurd ?_ h⟩
  rw [flipSign, UnpackedFloat.unpackExponent_packComponents] at hexponent
  rw [flipSign, UnpackedFloat.unpackMantissa_packComponents] at hmantissa
  rw [UnpackedFloat.unpack, if_pos hexponent, if_neg hmantissa]

/-- The bits of a negated number differ in the sign. -/
theorem toBitVec_neg {x : Float} (h : x.toModel.unpack ≠ .notANumber) :
    (-x).toBits.toBitVec = flipSign x.toBits.toBitVec := by
  have hpack := UnpackedFloat.pack_unpack_of_valid (valid_flipSign h)
  rw [unpack_flipSign] at hpack
  exact hpack

/-- The parts of a negated number; one that is undefined stays as it is. -/
theorem unpack_neg (x : Float) : (-x).toModel.unpack = x.toModel.unpack.neg := by
  by_cases hnan : x.toModel.unpack = .notANumber
  · have hneg : (-x).toModel = Float.Model.pack x.toModel.unpack.neg := rfl
    rw [hneg, hnan]
    rfl
  · exact (congrArg (UnpackedFloat.unpack Format.binary64) (toBitVec_neg hnan)).trans
      (unpack_flipSign _)

section Field

variable {K : Type*} [Field K]

theorem unpackedValue_neg (u : UnpackedFloat) :
    (unpackedValue u.neg : K) = -unpackedValue u := by
  cases u with
  | finite s m e hm =>
      cases s <;> simp [UnpackedFloat.neg, unpackedValue, UnpackedFloat.Sign.apply]
  | _ => simp [UnpackedFloat.neg, unpackedValue]

theorem exactValue_neg (x : Float) : (exactValue (-x) : K) = -exactValue x := by
  rw [exactValue, unpack_neg, unpackedValue_neg]
  rfl

end Field

theorem unpackedExtended_neg (u : UnpackedFloat) :
    unpackedExtended u.neg = -unpackedExtended u := by
  cases u with
  | finite s m e hm =>
      show ((unpackedValue (UnpackedFloat.finite s m e hm).neg : ℝ) : EReal) = _
      rw [unpackedValue_neg, EReal.coe_neg]
      rfl
  | infinity s => cases s <;> rfl
  | _ => exact neg_zero.symm

/-- Numbers are negated without rounding. -/
theorem extendedReading_negates (pow : EReal → EReal → EReal) :
    (extendedReading pow).Negates where
  defined {x} hx := by
    rw [defined_iff, unpack_neg]
    rw [defined_iff] at hx
    cases h : x.toModel.unpack <;> simp_all [UnpackedFloat.neg]
  lit_neg {x} _ := by
    show extendedValue (-x) = -extendedValue x
    rw [extendedValue, unpack_neg, unpackedExtended_neg]
    rfl

theorem extendedValue_two : extendedValue 2 = ((2 : ℝ) : EReal) := by
  have hvalue : extendedValue 2 = (((2 ^ 52 : ℕ) : ℤ) * 2 ^ (-51 : ℤ) : ℝ) := rfl
  rw [hvalue]
  norm_num

theorem extendedValue_neg_two : extendedValue (-2) = ((-2 : ℝ) : EReal) := by
  have hdefined : Scalar.Defined (2 : Float) := by decide
  have hneg : extendedValue (-2) = -extendedValue 2 :=
    (extendedReading_negates fun _ _ => 0).lit_neg hdefined
  rw [hneg, extendedValue_two, EReal.coe_neg]

end Binary64
end SignalFlow
