import Mathlib.Algebra.Order.Archimedean.Real.Basic
import Mathlib.Algebra.Order.Floor.Ring
import Mathlib.Data.Rat.Cast.Order
import SignalFlow.Decimal.Numeral
import SignalFlow.Proofs.ExactArithmetic
import SignalFlow.Proofs.RangeMeaning

/-!
# Exact scalars

Rational numbers, with two infinite values and an undefined one, are scalars.  Numerals are
read without rounding, and the arithmetic is that of the values: this is a scalar type with
an exact reading, on which everything that is done with scalars can be run.

Powers have a value for integer exponents only.

**Results.**
* `ExtendedRational.reading`: the values among the extended real numbers.
* `ExtendedRational.exact_reading`: the arithmetic is exact.
-/

namespace SignalFlow

/-- A rational number, an infinite value or none. -/
inductive ExtendedRational where
  | finite (value : ℚ)
  | infinite (negative : Bool)
  | undefined
  deriving DecidableEq

namespace ExtendedRational

/-- Negated value. -/
def neg : ExtendedRational → ExtendedRational
  | finite a => finite (-a)
  | infinite negative => infinite !negative
  | undefined => undefined

/-- Sum; infinite values of different signs have none. -/
def add : ExtendedRational → ExtendedRational → ExtendedRational
  | finite a, finite b => finite (a + b)
  | finite _, infinite negative => infinite negative
  | infinite negative, finite _ => infinite negative
  | infinite m, infinite n => if m = n then infinite m else undefined
  | _, _ => undefined

/-- An infinite value times a finite one; zero has no product with it. -/
def stretch (negative : Bool) (a : ℚ) : ExtendedRational :=
  if a = 0 then undefined else infinite (negative != decide (a < 0))

/-- Product. -/
def mul : ExtendedRational → ExtendedRational → ExtendedRational
  | finite a, finite b => finite (a * b)
  | finite a, infinite negative => stretch negative a
  | infinite negative, finite a => stretch negative a
  | infinite m, infinite n => infinite (m != n)
  | _, _ => undefined

/-- Quotient; what is divided by zero becomes infinite. -/
def div : ExtendedRational → ExtendedRational → ExtendedRational
  | finite a, finite b => if b = 0 then stretch false a else finite (a / b)
  | finite _, infinite _ => finite 0
  | infinite negative, finite b => infinite (negative != decide (b < 0))
  | _, _ => undefined

/-- Power with an integer exponent. -/
def pow : ExtendedRational → ExtendedRational → ExtendedRational
  | finite a, finite b =>
      if b.den = 1 ∧ (a = 0 → 0 ≤ b) then finite (a ^ b.num) else undefined
  | _, _ => undefined

/-- The strict order of the values. -/
def less : ExtendedRational → ExtendedRational → Bool
  | finite a, finite b => a < b
  | finite _, infinite negative => !negative
  | infinite negative, finite _ => negative
  | infinite m, infinite n => m && !n
  | _, _ => false

/-- Equality of the values; an undefined one differs from itself. -/
def equal : ExtendedRational → ExtendedRational → Bool
  | finite a, finite b => a = b
  | infinite m, infinite n => m == n
  | _, _ => false

/-- The value a numeral denotes. -/
def ofNumeral : Decimal.Numeral → ExtendedRational
  | .finite negative digits exponent =>
      finite ((if negative then -(digits : ℚ) else digits) * 10 ^ exponent)
  | .infinite negative => infinite negative
  | .undefined => undefined

/-- Text of a value, a rational number as a fraction. -/
def write : ExtendedRational → String
  | finite a => toString a.num ++ "/" ++ toString a.den
  | infinite negative => if negative then "-inf" else "inf"
  | undefined => "NaN"

instance : Scalar ExtendedRational where
  zero := finite 0
  one := finite 1
  add := add
  mul := mul
  div := div
  neg := neg
  beq := equal
  lt a b := less a b = true
  le a b := (less a b || equal a b) = true
  decLt a b := inferInstanceAs (Decidable (less a b = true))
  decLe a b := inferInstanceAs (Decidable ((less a b || equal a b) = true))
  pow := pow
  infinity := infinite false
  ofInt z := finite z
  read? text := (Decimal.Numeral.read? text).map ofNumeral
  write := write

/-- The extended real number that a value is. -/
noncomputable def toEReal : ExtendedRational → EReal
  | finite a => ((a : ℝ) : EReal)
  | infinite false => ⊤
  | infinite true => ⊥
  | undefined => 0

theorem defined_iff {a : ExtendedRational} : Scalar.Defined a ↔ a ≠ undefined := by
  show (!equal a a) = false ↔ _
  cases a <;> simp [equal]

theorem equal_iff {a b : ExtendedRational} (ha : a ≠ undefined) (hb : b ≠ undefined) :
    equal a b = true ↔ a.toEReal = b.toEReal := by
  cases a with
  | undefined => exact absurd rfl ha
  | finite a =>
      cases b with
      | undefined => exact absurd rfl hb
      | finite b => simp [equal, toEReal]
      | infinite n => cases n <;> simp [equal, toEReal]
  | infinite m =>
      cases b with
      | undefined => exact absurd rfl hb
      | finite b => cases m <;> simp [equal, toEReal, eq_comm]
      | infinite n => cases m <;> cases n <;> simp [equal, toEReal]

theorem less_iff {a b : ExtendedRational} (ha : a ≠ undefined) (hb : b ≠ undefined) :
    less a b = true ↔ a.toEReal < b.toEReal := by
  cases a with
  | undefined => exact absurd rfl ha
  | finite a =>
      cases b with
      | undefined => exact absurd rfl hb
      | finite b => simp [less, toEReal]
      | infinite n => cases n <;> simp [less, toEReal]
  | infinite m =>
      cases b with
      | undefined => exact absurd rfl hb
      | finite b => cases m <;> simp [less, toEReal]
      | infinite n => cases m <;> cases n <;> simp [less, toEReal]

/-- Values among the extended real numbers. -/
noncomputable def reading : ExtendedReading ExtendedRational where
  lit := toEReal
  pow x y := ((x.toReal ^ ⌊y.toReal⌋ : ℝ) : EReal)
  lit_zero := by
    show toEReal (finite 0) = 0
    simp [toEReal]
  lit_infinity := rfl
  lit_neg_infinity := rfl
  defined_zero := rfl
  defined_infinity := rfl
  defined_neg_infinity := rfl
  lit_eq_of_beq {a b} h := by
    change equal a b = true at h
    have ha : a ≠ undefined := by rintro rfl; cases h
    have hb : b ≠ undefined := by rintro rfl; cases a <;> cases h
    exact (equal_iff ha hb).mp h
  beq_iff ha hb := equal_iff (defined_iff.mp ha) (defined_iff.mp hb)
  lt_iff ha hb := less_iff (defined_iff.mp ha) (defined_iff.mp hb)
  le_iff {a b} ha hb := by
    show (less a b || equal a b) = true ↔ _
    rw [Bool.or_eq_true, less_iff (defined_iff.mp ha) (defined_iff.mp hb),
      equal_iff (defined_iff.mp ha) (defined_iff.mp hb), le_iff_lt_or_eq]

theorem toEReal_stretch {negative : Bool} {a : ℚ} (h : stretch negative a ≠ undefined) :
    (stretch negative a).toEReal = (a : ℝ) * (infinite negative).toEReal := by
  unfold stretch at h ⊢
  split at h
  · exact absurd rfl h
  · next hne =>
      rw [if_neg hne]
      rcases lt_or_gt_of_ne hne with hlt | hgt
      · have hneg : ((a : ℝ) : EReal) < 0 := by exact_mod_cast hlt
        cases negative <;>
          simp [toEReal, hlt, EReal.mul_top_of_neg hneg, EReal.mul_bot_of_neg hneg]
      · have hpos : (0 : EReal) < (a : ℝ) := by exact_mod_cast hgt
        cases negative <;>
          simp [toEReal, not_lt.mpr hgt.le, EReal.mul_top_of_pos hpos,
            EReal.mul_bot_of_pos hpos]

theorem toEReal_add {a b : ExtendedRational} (h : add a b ≠ undefined) :
    a ≠ undefined ∧ b ≠ undefined ∧ (add a b).toEReal = a.toEReal + b.toEReal := by
  cases a with
  | undefined => exact absurd rfl h
  | finite a =>
      cases b with
      | undefined => exact absurd rfl h
      | finite b => simp [add, toEReal]
      | infinite n => cases n <;> simp [add, toEReal]
  | infinite m =>
      cases b with
      | undefined => exact absurd rfl h
      | finite b => cases m <;> simp [add, toEReal]
      | infinite n => cases m <;> cases n <;> simp_all [add, toEReal]

theorem add_ne_undefined {a b : ExtendedRational} (ha : a ≠ undefined) (hb : b ≠ undefined)
    (htop : ¬(a.toEReal = ⊤ ∧ b.toEReal = ⊥)) (hbot : ¬(a.toEReal = ⊥ ∧ b.toEReal = ⊤)) :
    add a b ≠ undefined := by
  cases a with
  | undefined => exact absurd rfl ha
  | finite a => cases b <;> simp_all [add]
  | infinite m =>
      cases b with
      | undefined => exact absurd rfl hb
      | finite b => simp [add]
      | infinite n => cases m <;> cases n <;> simp_all [add, toEReal]

theorem toEReal_mul {a b : ExtendedRational} (h : mul a b ≠ undefined) :
    a ≠ undefined ∧ b ≠ undefined ∧ (mul a b).toEReal = a.toEReal * b.toEReal := by
  cases a with
  | undefined => exact absurd rfl h
  | finite a =>
      cases b with
      | undefined => exact absurd rfl h
      | finite b => simp [mul, toEReal]
      | infinite n => exact ⟨by simp, by simp, toEReal_stretch h⟩
  | infinite m =>
      cases b with
      | undefined => exact absurd rfl h
      | finite b => exact ⟨by simp, by simp, (toEReal_stretch h).trans (mul_comm _ _)⟩
      | infinite n => cases m <;> cases n <;> simp [mul, toEReal]

theorem mul_ne_undefined {a b : ExtendedRational} (ha : a ≠ undefined) (hb : b ≠ undefined)
    (hzero : a.toEReal = 0 → b.toEReal ≠ ⊤ ∧ b.toEReal ≠ ⊥)
    (hzero' : b.toEReal = 0 → a.toEReal ≠ ⊤ ∧ a.toEReal ≠ ⊥) : mul a b ≠ undefined := by
  have hstretch : ∀ {n : Bool} {c : ℚ}, ((finite c).toEReal = 0 →
      (infinite n).toEReal ≠ ⊤ ∧ (infinite n).toEReal ≠ ⊥) → stretch n c ≠ undefined := by
    intro n c hc
    have hne : c ≠ 0 := by
      rintro rfl
      cases n <;> simp [toEReal] at hc
    simp [stretch, hne]
  cases a with
  | undefined => exact absurd rfl ha
  | finite a =>
      cases b with
      | undefined => exact absurd rfl hb
      | finite b => simp [mul]
      | infinite n => exact hstretch hzero
  | infinite m =>
      cases b with
      | undefined => exact absurd rfl hb
      | finite b => exact hstretch hzero'
      | infinite n => simp [mul]

theorem toEReal_div {a b : ExtendedRational} (h : div a b ≠ undefined)
    (hb : equal b (finite 0) = false) :
    a ≠ undefined ∧ b ≠ undefined ∧ (div a b).toEReal = a.toEReal / b.toEReal := by
  cases a with
  | undefined => exact absurd rfl h
  | finite a =>
      cases b with
      | undefined => exact absurd rfl h
      | finite b =>
          have hne : b ≠ 0 := by simpa [equal] using hb
          simp [div, hne, toEReal, EReal.coe_div]
      | infinite n => cases n <;> simp [div, toEReal]
  | infinite m =>
      cases b with
      | undefined => cases m <;> exact absurd rfl h
      | finite b =>
          have hne : b ≠ 0 := by simpa [equal] using hb
          refine ⟨by simp, by simp, ?_⟩
          rcases lt_or_gt_of_ne hne with hlt | hgt
          · have hneg : ((b : ℝ) : EReal) < 0 := by exact_mod_cast hlt
            cases m <;> simp [div, toEReal, hlt,
              EReal.top_div_of_neg_ne_bot hneg (EReal.coe_ne_bot _),
              EReal.bot_div_of_neg_ne_bot hneg (EReal.coe_ne_bot _)]
          · have hpos : (0 : EReal) < (b : ℝ) := by exact_mod_cast hgt
            cases m <;> simp [div, toEReal, not_lt.mpr hgt.le,
              EReal.top_div_of_pos_ne_top hpos (EReal.coe_ne_top _),
              EReal.bot_div_of_pos_ne_top hpos (EReal.coe_ne_top _)]
      | infinite n => exact absurd rfl h

theorem toEReal_pow {a b : ExtendedRational} (h : pow a b ≠ undefined) :
    a ≠ undefined ∧ b ≠ undefined ∧
      (pow a b).toEReal = reading.pow a.toEReal b.toEReal := by
  cases a with
  | undefined => exact absurd rfl h
  | infinite m => exact absurd rfl h
  | finite a =>
      cases b with
      | undefined => exact absurd rfl h
      | infinite n => exact absurd rfl h
      | finite b =>
          refine ⟨by simp, by simp, ?_⟩
          by_cases hb : b.den = 1 ∧ (a = 0 → 0 ≤ b)
          · have hint : (b : ℝ) = b.num := by
              have hq : b = b.num := ((Rat.den_eq_one_iff b).mp hb.1).symm
              exact_mod_cast congrArg (Rat.cast : ℚ → ℝ) hq
            simp [pow, if_pos hb, reading, toEReal, hint, Rat.cast_zpow]
          · simp [pow, if_neg hb] at h

/-- The arithmetic of extended rational numbers is exact. -/
theorem exact_reading : reading.Exact where
  defined_one := rfl
  lit_one := by
    show toEReal (finite 1) = 1
    simp [toEReal]
  defined_neg_iff {a} := by
    show Scalar.Defined (neg a) ↔ _
    rw [defined_iff, defined_iff]
    cases a <;> simp [neg]
  lit_neg {a} ha := by
    show (neg a).toEReal = -a.toEReal
    cases a with
    | finite a => simp [neg, toEReal]
    | infinite negative => cases negative <;> simp [neg, toEReal]
    | undefined => exact absurd rfl (defined_iff.mp ha)
  add h := by
    obtain ⟨ha, hb, hlit⟩ := toEReal_add (defined_iff.mp h)
    exact ⟨defined_iff.mpr ha, defined_iff.mpr hb, hlit⟩
  defined_add {a b} ha hb htop hbot := by
    rw [defined_iff] at ha hb ⊢
    exact add_ne_undefined ha hb htop hbot
  mul h := by
    obtain ⟨ha, hb, hlit⟩ := toEReal_mul (defined_iff.mp h)
    exact ⟨defined_iff.mpr ha, defined_iff.mpr hb, hlit⟩
  defined_mul {a b} ha hb hzero hzero' := by
    rw [defined_iff] at ha hb ⊢
    exact mul_ne_undefined ha hb hzero hzero'
  div h hb := by
    obtain ⟨ha, hb, hlit⟩ := toEReal_div (defined_iff.mp h) hb
    exact ⟨defined_iff.mpr ha, defined_iff.mpr hb, hlit⟩
  pow h := by
    obtain ⟨ha, hb, hlit⟩ := toEReal_pow (defined_iff.mp h)
    exact ⟨defined_iff.mpr ha, defined_iff.mpr hb, hlit⟩

/-- A closed range covers the real numbers between its ends. -/
theorem covers_closed {lo hi : ℚ} {a : ℝ} (hlo : lo ≤ a) (hhi : a ≤ hi) :
    (Range.closed (finite lo) (finite hi)).Covers reading a :=
  ⟨EReal.coe_le_coe_iff.mpr hlo, EReal.coe_le_coe_iff.mpr hhi⟩

/-- The real number that a rational scalar is. -/
@[simp] theorem lit_real_finite (a : ℚ) : exact_reading.real.lit (finite a) = a := by
  show EReal.toReal (a : ℝ) = a
  exact EReal.toReal_coe _

end ExtendedRational
end SignalFlow
