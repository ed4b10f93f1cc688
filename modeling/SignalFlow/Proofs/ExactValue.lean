import Mathlib
import SignalFlow.Proofs.Meaning
import SignalFlow.Scalar.Binary64

/-!
# Exact values of binary floating-point literals

A finite number of the 64-bit binary format stands for an integer times a power of two.
Equal numbers have equal values, the two zeros included, so that the format has a reading
in every field of characteristic zero.  Numbers that are not finite have no value; they are
read as zero.

**Results.**
* `exactValue_eq_of_beq`: equal numbers have one value.
* `exactReading`: the reading by exact values.
-/

namespace SignalFlow
namespace Binary64

open Float.Model

variable {K : Type*} [Field K]

/-- Value of an unpacked number. -/
def unpackedValue : UnpackedFloat → K
  | .finite sign mantissa exponent _ => ((sign.apply mantissa : ℤ) : K) * 2 ^ exponent
  | .infinity _ => 0
  | .notANumber => 0
  | .zero _ => 0

/-- Exact value of a number. -/
def exactValue (x : Float) : K :=
  unpackedValue x.toModel.unpack

theorem unpackedValue_eq_of_beq {a b : UnpackedFloat} (h : a.beq b = true) :
    (unpackedValue a : K) = unpackedValue b := by
  cases a with
  | notANumber => simp [UnpackedFloat.beq, UnpackedFloat.compare] at h
  | infinity s =>
      cases b with
      | finite s' m' e' hm' =>
          cases s <;> simp [UnpackedFloat.beq, UnpackedFloat.compare] at h
      | infinity s' => rfl
      | notANumber => rfl
      | zero s' => rfl
  | zero s =>
      cases b with
      | finite s' m' e' hm' =>
          cases s' <;> simp [UnpackedFloat.beq, UnpackedFloat.compare] at h
      | infinity s' => rfl
      | notANumber => rfl
      | zero s' => rfl
  | finite s m e hm =>
      cases b with
      | infinity s' =>
          cases s <;> cases s' <;> simp [UnpackedFloat.beq, UnpackedFloat.compare] at h
      | notANumber => simp [UnpackedFloat.beq, UnpackedFloat.compare] at h
      | zero s' => cases s <;> simp [UnpackedFloat.beq, UnpackedFloat.compare] at h
      | finite s' m' e' hm' =>
          -- Numbers of one sign are equal if exponent and mantissa are.
          have hparts : s = s' ∧ e = e' ∧ m = m' := by
            cases s <;> cases s' <;>
              simp_all [UnpackedFloat.beq, UnpackedFloat.compare, Ordering.then_eq_eq]
          obtain ⟨rfl, rfl, rfl⟩ := hparts
          rfl

/-- Equal numbers have one value. -/
theorem exactValue_eq_of_beq {x y : Float} (h : (x == y) = true) :
    (exactValue x : K) = exactValue y :=
  unpackedValue_eq_of_beq h

theorem exactValue_zero : (exactValue 0 : K) = 0 :=
  rfl

theorem exactValue_one [CharZero K] : (exactValue 1 : K) = 1 := by
  have htwo : (2 : K) ^ 52 ≠ 0 := pow_ne_zero 52 (OfNat.ofNat_ne_zero 2)
  calc (exactValue 1 : K) = (((2 ^ 52 : ℕ) : ℤ) : K) * 2 ^ (-52 : ℤ) := rfl
    _ = 2 ^ 52 * (2 ^ 52)⁻¹ := by
        rw [Int.cast_natCast, Nat.cast_pow, Nat.cast_ofNat, zpow_neg, zpow_ofNat]
    _ = 1 := mul_inv_cancel₀ htwo

/-- Literals by their exact values; powers are left open. -/
def exactReading [CharZero K] (pow : K → K → K) : Reading Float K where
  lit := exactValue
  pow := pow
  lit_zero := exactValue_zero
  lit_one := exactValue_one
  lit_eq_of_beq := exactValue_eq_of_beq

end Binary64
end SignalFlow
