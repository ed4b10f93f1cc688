import Mathlib.Algebra.Order.Field.Power
import Mathlib.Tactic.Positivity
import Mathlib.Tactic.Ring
import SignalFlow.Decimal.Shortest

/-!
# What shortest decimals stand for

The search for the shortest decimal of a number compares multiples of a common measure of
the decimal grid and of the quarters of the last binary place.  Here these comparisons are
those of rationals: `reads_iff` says that a grid point passes the test exactly if it lies
in the interval of the number.  The search ends with a point of that interval,
`reads_shortest`, since the number itself is a point of the finest grid.
-/

namespace SignalFlow
namespace Decimal

/-- A power with an integer exponent as a quotient of two powers with natural exponents. -/
theorem pow_toNat_eq {a : ℚ} (ha : a ≠ 0) (k : ℤ) :
    a ^ k.toNat = a ^ k * a ^ (-k).toNat := by
  rw [← zpow_natCast a k.toNat, ← zpow_natCast a (-k).toNat, ← zpow_add₀ ha]
  congr 1
  omega

namespace Dyadic

variable (d : Dyadic)

/-- The number. -/
def value : ℚ :=
  d.mantissa * 2 ^ d.exponent

/-- A number of quarters of the last place. -/
def ofQuarters (n : ℕ) : ℚ :=
  n * 2 ^ (d.exponent - 2)

/-- The rationals that are read as the number; the ends belong to numbers with an even
mantissa. -/
def Reads (y : ℚ) : Prop :=
  if d.mantissa % 2 = 0 then d.ofQuarters d.lowQuarters ≤ y ∧
    y ≤ d.ofQuarters d.highQuarters
  else d.ofQuarters d.lowQuarters < y ∧ y < d.ofQuarters d.highQuarters

theorem ofQuarters_quarters : d.ofQuarters d.quarters = d.value := by
  rw [ofQuarters, quarters, value, zpow_sub₀ two_ne_zero]
  push_cast
  ring

theorem quarterMeasure_pos (k : ℤ) : 0 < d.quarterMeasure k := by
  rw [quarterMeasure, Nat.shiftLeft_eq, Nat.pow_eq]
  positivity

/-- Both measures are multiples of one. -/
theorem gridMeasure_mul (k : ℤ) :
    (d.gridMeasure k : ℚ) * 2 ^ (d.exponent - 2) = d.quarterMeasure k * 10 ^ k := by
  have hten := pow_toNat_eq (a := 10) (by norm_num) k
  have htwo := pow_toNat_eq (a := 2) (by norm_num) (d.exponent - 2)
  rw [neg_sub] at htwo
  rw [gridMeasure, quarterMeasure, Nat.shiftLeft_eq, Nat.shiftLeft_eq]
  push_cast
  simp only [Nat.pow_eq, Nat.cast_pow, Nat.cast_ofNat]
  rw [hten, htwo]
  ring

theorem cast_grid_mul (k : ℤ) (c : ℕ) :
    ((c * d.gridMeasure k : ℕ) : ℚ) * 2 ^ (d.exponent - 2) = c * 10 ^ k *
      d.quarterMeasure k := by
  rw [Nat.cast_mul, mul_assoc, d.gridMeasure_mul k]
  ring

theorem cast_quarters_mul (k : ℤ) (n : ℕ) :
    ((n * d.quarterMeasure k : ℕ) : ℚ) * 2 ^ (d.exponent - 2) = d.ofQuarters n *
      d.quarterMeasure k := by
  rw [Nat.cast_mul, ofQuarters]
  ring

section Comparison

variable (k : ℤ) (c n : ℕ)

theorem measure_pos : (0 : ℚ) < d.quarterMeasure k ∧ (0 : ℚ) < 2 ^ (d.exponent - 2) :=
  ⟨by exact_mod_cast d.quarterMeasure_pos k, by positivity⟩

theorem grid_le_iff : c * d.gridMeasure k ≤ n * d.quarterMeasure k ↔
      (c : ℚ) * 10 ^ k ≤ d.ofQuarters n := by
  obtain ⟨hmeasure, hunit⟩ := d.measure_pos k
  rw [← Nat.cast_le (α := ℚ), ← mul_le_mul_iff_left₀ hunit, cast_grid_mul,
    cast_quarters_mul, mul_le_mul_iff_left₀ hmeasure]

theorem le_grid_iff : n * d.quarterMeasure k ≤ c * d.gridMeasure k ↔
      d.ofQuarters n ≤ (c : ℚ) * 10 ^ k := by
  obtain ⟨hmeasure, hunit⟩ := d.measure_pos k
  rw [← Nat.cast_le (α := ℚ), ← mul_le_mul_iff_left₀ hunit, cast_grid_mul,
    cast_quarters_mul, mul_le_mul_iff_left₀ hmeasure]

end Comparison

/-- A grid point passes the test if it is read as the number. -/
theorem reads_iff (k : ℤ) (c : ℕ) : d.reads k c = true ↔ d.Reads (c * 10 ^ k) := by
  rw [reads, Reads]
  split
  · simp only [Bool.and_eq_true, decide_eq_true_eq]
    rw [le_grid_iff, grid_le_iff]
  · simp only [Bool.and_eq_true, decide_eq_true_eq]
    rw [← not_le, ← not_le, grid_le_iff, le_grid_iff, not_le, not_le]

theorem reads_value (hmantissa : 0 < d.mantissa) : d.Reads d.value := by
  have hunit : (0 : ℚ) < 2 ^ (d.exponent - 2) := by positivity
  have hlow : d.ofQuarters d.lowQuarters < d.value := by
    rw [← ofQuarters_quarters, ofQuarters, ofQuarters, mul_lt_mul_iff_left₀ hunit,
      Nat.cast_lt, lowQuarters, quarters]
    split <;> omega
  have hhigh : d.value < d.ofQuarters d.highQuarters := by
    rw [← ofQuarters_quarters, ofQuarters, ofQuarters, mul_lt_mul_iff_left₀ hunit,
      Nat.cast_lt, highQuarters, quarters]
    omega
  rw [Reads]
  split
  · exact ⟨hlow.le, hhigh.le⟩
  · exact ⟨hlow, hhigh⟩

/-! ### The search -/

theorem reads_of_onGrid? {k : ℤ} {c : ℕ} (h : d.onGrid? k = some c) :
    d.Reads (c * 10 ^ k) := by
  rw [← reads_iff]
  rw [onGrid?] at h
  cases hlower : d.reads k (d.floorAt k) <;> cases hupper : d.reads k (d.floorAt k + 1) <;>
    simp only [hlower, hupper, Option.some.injEq, reduceCtorEq] at h
  · rwa [← h]
  · rwa [← h]
  · rw [← h]
    split <;> assumption

theorem gridMeasure_finest_dvd : d.gridMeasure d.finest ∣ d.quarterMeasure d.finest := by
  rw [gridMeasure, quarterMeasure, finest, Nat.shiftLeft_eq, Nat.shiftLeft_eq]
  obtain hle | hlt := le_or_gt 2 d.exponent
  · have hgrid : (2 - d.exponent).toNat = 0 := by omega
    have hfinest : min (d.exponent - 2) 0 = 0 := by omega
    simp [hgrid, hfinest]
  · have hfinest : min (d.exponent - 2) 0 = d.exponent - 2 := by omega
    have hgrid : (d.exponent - 2).toNat = 0 := by omega
    rw [hfinest, hgrid, neg_sub]
    simpa using pow_dvd_pow_of_dvd (show 2 ∣ 10 by norm_num) (2 - d.exponent).toNat

/-- The number is a point of the finest grid. -/
theorem floorAt_finest : (d.floorAt d.finest : ℚ) * 10 ^ d.finest = d.value := by
  have hexact : d.floorAt d.finest * d.gridMeasure d.finest = d.quarters *
      d.quarterMeasure d.finest :=
    Nat.div_mul_cancel (Dvd.dvd.mul_left d.gridMeasure_finest_dvd d.quarters)
  have hscaled := d.cast_grid_mul d.finest (d.floorAt d.finest)
  rw [hexact, cast_quarters_mul, ofQuarters_quarters] at hscaled
  exact (mul_right_cancel₀ (d.measure_pos d.finest).1.ne' hscaled).symm

theorem reads_descend (hmantissa : 0 < d.mantissa) (n : ℕ) :
    d.Reads ((d.descend n).1 * 10 ^ (d.descend n).2) := by
  induction n with
  | zero =>
    rw [descend, d.floorAt_finest]
    exact d.reads_value hmantissa
  | succ n ih =>
    rw [descend]
    cases hgrid : d.onGrid? (d.finest + (n + 1)) with
    | some c => exact d.reads_of_onGrid? hgrid
    | none => exact ih

/-- The shortest decimal is read as the number. -/
theorem reads_shortest (hmantissa : 0 < d.mantissa) :
    d.Reads (d.shortest.1 * 10 ^ d.shortest.2) :=
  d.reads_descend hmantissa _

end Dyadic
end Decimal
end SignalFlow
