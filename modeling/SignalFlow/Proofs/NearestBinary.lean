import Mathlib.Algebra.Order.Field.Basic
import Mathlib.Tactic.FieldSimp
import Mathlib.Tactic.Linarith
import Mathlib.Tactic.Ring
import SignalFlow.Proofs.ShortestDecimal
import SignalFlow.Scalar.Binary64

/-!
# Reading decimals to the nearest binary number

A fraction is read by finding its last binary place and rounding to that place.  The main
statement, `roundedBits_eq_index`, says that a fraction in the interval of a number of the
format is read as that number, also where the fraction lies below a power of two and has
its last place one step lower than the number.
-/

namespace SignalFlow
namespace Binary64

/-! ### Rounding a quotient -/

/-- The rationals that round to a natural number; a tie goes to the even one. -/
def RoundsTo (z : ℚ) (m : ℕ) : Prop :=
  if m % 2 = 0 then (m : ℚ) - 1 / 2 ≤ z ∧ z ≤ m + 1 / 2 else (m : ℚ) - 1 / 2 < z ∧
    z < m + 1 / 2

theorem RoundsTo.le {z : ℚ} {m : ℕ} (h : RoundsTo z m) :
    (m : ℚ) - 1 / 2 ≤ z ∧ z ≤ m + 1 / 2 := by
  rw [RoundsTo] at h
  split at h
  · exact h
  · exact ⟨h.1.le, h.2.le⟩

theorem RoundsTo.of_lt {z : ℚ} {m : ℕ} (hlow : (m : ℚ) - 1 / 2 < z)
    (hhigh : z < m + 1 / 2) : RoundsTo z m := by
  rw [RoundsTo]
  split
  · exact ⟨hlow.le, hhigh.le⟩
  · exact ⟨hlow, hhigh⟩

/-- A number rounds to one natural number only. -/
theorem RoundsTo.unique {z : ℚ} {m n : ℕ} (hm : RoundsTo z m)
    (hn : RoundsTo z n) : m = n := by
  wlog hle : m ≤ n generalizing m n
  · exact (this hn hm (Nat.le_of_not_le hle)).symm
  by_contra hne
  have hnext : n = m + 1 := by
    have hbound : (n : ℚ) ≤ m + 1 := by linarith [hm.le.2, hn.le.1]
    have hbound : n ≤ m + 1 := by exact_mod_cast hbound
    omega
  -- the number is halfway between the two, and only one of them is even
  have hupper := hm.le.2
  have hlower := hn.le.1
  rw [RoundsTo] at hm hn
  rw [hnext] at hn hlower
  push_cast at hn hlower
  split at hm <;> split at hn
  · omega
  · linarith [hn.1]
  · linarith [hm.2]
  · linarith [hn.1]

theorem roundsTo_roundDiv (n : ℕ) {d : ℕ} (hd : 0 < d) :
    RoundsTo ((n : ℚ) / d) (roundDiv n d) := by
  have hd' : (0 : ℚ) < d := by exact_mod_cast hd
  have hsplit : (n : ℚ) / d = (n / d : ℕ) + ((n % d : ℕ) : ℚ) / d := by
    rw [eq_comm, ← eq_sub_iff_add_eq', div_eq_iff hd'.ne', sub_mul,
      div_mul_cancel₀ _ hd'.ne', eq_sub_iff_add_eq]
    exact_mod_cast Nat.mod_add_div' n d
  have hnonneg : (0 : ℚ) ≤ ((n % d : ℕ) : ℚ) / d := by positivity
  have hlt : ((n % d : ℕ) : ℚ) / d < 1 := by
    rw [div_lt_one hd']
    exact_mod_cast Nat.mod_lt n hd
  rw [hsplit, roundDiv]
  simp only [Bool.or_eq_true, Bool.and_eq_true, decide_eq_true_eq]
  obtain hless | htie | hmore := lt_trichotomy (2 * (n % d)) d
  · have hhalf : ((n % d : ℕ) : ℚ) / d < 1 / 2 := by
      rw [div_lt_iff₀ hd']
      have hcast : (2 * (n % d : ℕ) : ℚ) < d := by exact_mod_cast hless
      linarith
    rw [if_neg (by omega)]
    exact .of_lt (by linarith) (by linarith)
  · have hhalf : ((n % d : ℕ) : ℚ) / d = 1 / 2 := by
      rw [div_eq_iff hd'.ne']
      have hcast : (2 * (n % d : ℕ) : ℚ) = d := by exact_mod_cast htie
      linarith
    rw [hhalf]
    by_cases hodd : n / d % 2 = 1
    · rw [if_pos (.inr ⟨htie, hodd⟩), RoundsTo, if_pos (by omega)]
      push_cast
      constructor <;> linarith
    · rw [if_neg (by omega), RoundsTo, if_pos (by omega)]
      constructor <;> linarith
  · have hhalf : 1 / 2 < ((n % d : ℕ) : ℚ) / d := by
      rw [lt_div_iff₀ hd']
      have hcast : (d : ℚ) < 2 * (n % d : ℕ) := by exact_mod_cast hmore
      linarith
    rw [if_pos (.inl hmore)]
    apply RoundsTo.of_lt <;> push_cast <;> linarith

/-! ### The last place -/

/-- The last binary place that numbers near `y` have. -/
structure IsLastPlace (y : ℚ) (e : ℤ) : Prop where
  least_le : -1074 ≤ e
  lt : y < 2 ^ (e + 53)
  eq_least_or_le : e = -1074 ∨ 2 ^ (e + 52) ≤ y

theorem inUnits_div (num den : ℕ) (e : ℤ) :
    ((inUnits num den e).1 : ℚ) / (inUnits num den e).2 = num / den / 2 ^ e := by
  have hpow := Decimal.pow_toNat_eq (a := 2) two_ne_zero e
  simp only [inUnits, Nat.shiftLeft_eq]
  push_cast
  rw [hpow]
  field_simp

theorem inUnits_pos (num : ℕ) {den : ℕ} (hden : 0 < den) (e : ℤ) :
    0 < (inUnits num den e).2 := by
  simp only [inUnits, Nat.shiftLeft_eq]
  positivity

theorem inUnits_div_lt_iff (num : ℕ) {den : ℕ} (hden : 0 < den) (e : ℤ) :
    (inUnits num den e).1 / (inUnits num den e).2 < 1 <<< 53 ↔
      (num : ℚ) / den < 2 ^ (e + 53) := by
  have hpos := inUnits_pos num hden e
  have hpos' : (0 : ℚ) < (inUnits num den e).2 := by exact_mod_cast hpos
  have hunit : (0 : ℚ) < 2 ^ e := by positivity
  have hplaces : ((1 <<< 53 : ℕ) : ℚ) = 2 ^ (53 : ℤ) := by norm_num [Nat.shiftLeft_eq]
  rw [Nat.div_lt_iff_lt_mul hpos, ← Nat.cast_lt (α := ℚ), Nat.cast_mul,
    ← div_lt_iff₀ hpos', inUnits_div, div_lt_iff₀ hunit, hplaces, zpow_add₀ two_ne_zero,
    mul_comm (2 ^ e : ℚ)]

/-- A quotient lies between powers of two that its logarithms give. -/
theorem log2_quotient {num den : ℕ} (hnum : 0 < num) (hden : 0 < den) :
    (2 : ℚ) ^ ((num.log2 : ℤ) - den.log2 - 1) < num / den ∧
      (num : ℚ) / den < 2 ^ ((num.log2 : ℤ) - den.log2 + 1) := by
  have hden' : (0 : ℚ) < den := by exact_mod_cast hden
  have hnumLow : (2 : ℚ) ^ (num.log2 : ℤ) ≤ num := by
    exact_mod_cast Nat.log2_self_le hnum.ne'
  have hnumHigh : (num : ℚ) < 2 ^ ((num.log2 : ℤ) + 1) := by
    exact_mod_cast Nat.lt_log2_self (n := num)
  have hdenLow : (2 : ℚ) ^ (den.log2 : ℤ) ≤ den := by
    exact_mod_cast Nat.log2_self_le hden.ne'
  have hdenHigh : (den : ℚ) < 2 ^ ((den.log2 : ℤ) + 1) := by
    exact_mod_cast Nat.lt_log2_self (n := den)
  constructor
  · rw [lt_div_iff₀ hden']
    calc (2 : ℚ) ^ ((num.log2 : ℤ) - den.log2 - 1) * den
        < 2 ^ ((num.log2 : ℤ) - den.log2 - 1) * 2 ^ ((den.log2 : ℤ) + 1) := by gcongr
      _ = 2 ^ (num.log2 : ℤ) := by
          rw [← zpow_add₀ two_ne_zero]
          congr 1
          ring
      _ ≤ num := hnumLow
  · rw [div_lt_iff₀ hden']
    calc (num : ℚ) < 2 ^ ((num.log2 : ℤ) + 1) := hnumHigh
      _ = 2 ^ ((num.log2 : ℤ) - den.log2 + 1) * 2 ^ (den.log2 : ℤ) := by
          rw [← zpow_add₀ two_ne_zero]
          congr 1
          ring
      _ ≤ 2 ^ ((num.log2 : ℤ) - den.log2 + 1) * den := by gcongr

theorem isLastPlace_lastPlace {num den : ℕ} (hnum : 0 < num) (hden : 0 < den) :
    IsLastPlace (num / den) (lastPlace num den) := by
  obtain ⟨hlow, hhigh⟩ := log2_quotient hnum hden
  simp only [lastPlace, inUnits_div_lt_iff num hden]
  generalize hguess : max ((num.log2 : ℤ) - den.log2 - 53) (-1074) = guess
  split
  · rename_i hlt
    refine ⟨by omega, hlt, ?_⟩
    by_cases hleast : guess = -1074
    · exact .inl hleast
    · have hplace : guess + 52 = (num.log2 : ℤ) - den.log2 - 1 := by omega
      exact .inr (hplace ▸ hlow.le)
  · rename_i hge
    refine ⟨by omega, hhigh.trans_le ?_, .inr ?_⟩
    · exact zpow_le_zpow_right₀ one_le_two (by omega)
    · rw [not_lt] at hge
      rwa [add_assoc]

/-! ### Numbers of the format -/

/-- Magnitudes of the format that are not zero: 53 binary places, and fewer at the least
exponent only. -/
structure Magnitude (d : Decimal.Dyadic) : Prop where
  pos : 0 < d.mantissa
  lt : d.mantissa < 2 ^ 53
  least_le : -1074 ≤ d.exponent
  eq_least_or_le : d.exponent = -1074 ∨ 2 ^ 52 ≤ d.mantissa
  narrow_iff : d.narrow = true ↔ d.mantissa = 2 ^ 52 ∧ -1074 < d.exponent

/-- Position of a magnitude among those of the format, which is its bit pattern. -/
def index (d : Decimal.Dyadic) : ℕ :=
  (d.exponent + 1074).toNat * 2 ^ 52 + d.mantissa

/-- The bit pattern that a fraction is read as. -/
def roundedBits (num den : ℕ) : ℕ :=
  let e := lastPlace num den
  (e + 1074).toNat <<< 52 + roundDiv (inUnits num den e).1 (inUnits num den e).2

theorem roundedBits_eq {num den : ℕ} (hden : 0 < den) {e : ℤ}
    (he : lastPlace num den = e) {m : ℕ} (hm : RoundsTo (num / den / 2 ^ e) m) :
    roundedBits num den = (e + 1074).toNat * 2 ^ 52 + m := by
  have hround := roundsTo_roundDiv (inUnits num den e).1 (inUnits_pos num hden e)
  rw [inUnits_div] at hround
  rw [roundedBits, he, hround.unique hm, Nat.shiftLeft_eq]

section Interval

variable {d : Decimal.Dyadic} {y : ℚ}

/-- How far below a number the decimals reach that are read as it, in units of its last
place. -/
def reach (d : Decimal.Dyadic) : ℚ :=
  if d.narrow then 1 / 4 else 1 / 2

theorem ofQuarters_eq (d : Decimal.Dyadic) (n : ℕ) :
    d.ofQuarters n = n / 4 * 2 ^ d.exponent := by
  rw [Decimal.Dyadic.ofQuarters, zpow_sub₀ two_ne_zero]
  field_simp
  norm_num

theorem Magnitude.low_eq (hd : Magnitude d) :
    d.ofQuarters d.lowQuarters = (d.mantissa - reach d) * 2 ^ d.exponent := by
  have hpos := hd.pos
  rw [ofQuarters_eq, Decimal.Dyadic.lowQuarters, reach]
  split
  · rw [Nat.cast_sub (by omega)]
    push_cast
    ring
  · rw [Nat.cast_sub (by omega)]
    push_cast
    ring

theorem high_eq (d : Decimal.Dyadic) :
    d.ofQuarters d.highQuarters = (d.mantissa + 1 / 2) * 2 ^ d.exponent := by
  rw [ofQuarters_eq, Decimal.Dyadic.highQuarters]
  push_cast
  ring

/-- The decimals that are read as a number, in units of its last place. -/
theorem Magnitude.reads_iff (hd : Magnitude d) :
    d.Reads y ↔
      if d.mantissa % 2 = 0 then
        d.mantissa - reach d ≤ y / 2 ^ d.exponent ∧ y / 2 ^ d.exponent ≤ d.mantissa + 1 / 2
      else d.mantissa - reach d < y / 2 ^ d.exponent ∧
        y / 2 ^ d.exponent < d.mantissa + 1 / 2 := by
  have hunit : (0 : ℚ) < 2 ^ d.exponent := by positivity
  rw [Decimal.Dyadic.Reads, hd.low_eq, high_eq, le_div_iff₀ hunit, div_le_iff₀ hunit,
    lt_div_iff₀ hunit, div_lt_iff₀ hunit]

theorem Magnitude.le_of_reads (hd : Magnitude d) (h : d.Reads y) :
    d.mantissa - reach d ≤ y / 2 ^ d.exponent := by
  rw [hd.reads_iff] at h
  split at h
  · exact h.1
  · exact h.1.le

theorem reach_le (d : Decimal.Dyadic) : reach d ≤ 1 / 2 := by
  rw [reach]
  split <;> norm_num

/-- In units of its last place, what is read as a number rounds to its mantissa. -/
theorem Magnitude.roundsTo (hd : Magnitude d) (h : d.Reads y) :
    RoundsTo (y / 2 ^ d.exponent) d.mantissa := by
  have hreach := reach_le d
  rw [hd.reads_iff] at h
  rw [RoundsTo]
  split at h
  · rw [if_pos ‹_›]
    exact ⟨by linarith, h.2⟩
  · rw [if_neg ‹_›]
    exact ⟨by linarith, h.2⟩

/-- A fraction that is read as a number has the last place of the number, or the one below
it and then rounds up to a power of two. -/
theorem Magnitude.lastPlace_cases (hd : Magnitude d) (h : d.Reads y) {e : ℤ}
    (he : IsLastPlace y e) :
    e = d.exponent ∨
      e = d.exponent - 1 ∧ -1074 < d.exponent ∧ d.mantissa = 2 ^ 52 ∧
        RoundsTo (y / 2 ^ e) (2 ^ 53) := by
  have hunit : (0 : ℚ) < 2 ^ d.exponent := by positivity
  obtain ⟨hlow, hhigh⟩ := (hd.roundsTo h).le
  have hbelow : ∀ k : ℤ, e + 53 ≤ k + d.exponent → y / 2 ^ d.exponent < 2 ^ k := by
    intro k hk
    rw [div_lt_iff₀ hunit, ← zpow_add₀ two_ne_zero]
    exact he.lt.trans_le (zpow_le_zpow_right₀ one_le_two hk)
  obtain hlt | heq | hgt := lt_trichotomy e d.exponent
  · have hnormal : -1074 < d.exponent := lt_of_le_of_lt he.least_le hlt
    have hmantissa : d.mantissa = 2 ^ 52 := by
      have hupper : (d.mantissa : ℚ) < 2 ^ 52 + 1 := by linarith [hbelow 52 (by omega)]
      have hupper : d.mantissa < 2 ^ 52 + 1 := by exact_mod_cast hupper
      have hlower := hd.eq_least_or_le.resolve_left (by omega)
      omega
    -- the decimals below a power of two reach down a quarter only, which is half a unit of
    -- the place below
    have hquarter := hd.le_of_reads h
    rw [reach, if_pos (hd.narrow_iff.mpr ⟨hmantissa, hnormal⟩), hmantissa] at hquarter
    push_cast at hquarter
    have hplace : e = d.exponent - 1 := by
      by_contra hne
      linarith [hbelow 51 (by omega)]
    have hdouble : y / 2 ^ e = 2 * (y / 2 ^ d.exponent) := by
      rw [hplace, zpow_sub₀ two_ne_zero]
      field_simp
    refine .inr ⟨hplace, hnormal, hmantissa, ?_⟩
    have htop := hbelow 52 (by omega)
    rw [RoundsTo, if_pos (by norm_num), hdouble]
    push_cast
    constructor <;> linarith
  · exact .inl heq
  · have habove : (2 : ℚ) ^ (53 : ℤ) ≤ y / 2 ^ d.exponent := by
      have hleast := hd.least_le
      rw [le_div_iff₀ hunit, ← zpow_add₀ two_ne_zero]
      exact (zpow_le_zpow_right₀ one_le_two (by omega)).trans
        (he.eq_least_or_le.resolve_left (by omega))
    have hplaces : (d.mantissa : ℚ) + 1 ≤ 2 ^ 53 := by exact_mod_cast hd.lt
    linarith

end Interval

theorem roundedBits_eq_index {d : Decimal.Dyadic} (hd : Magnitude d) {num den : ℕ}
    (hden : 0 < den) (h : d.Reads (num / den)) : roundedBits num den = index d := by
  have hnum : 0 < num := by
    rw [Nat.pos_iff_ne_zero]
    rintro rfl
    have hlow := (hd.roundsTo h).le.1
    have hpos : (1 : ℚ) ≤ d.mantissa := by exact_mod_cast hd.pos
    rw [Nat.cast_zero, zero_div, zero_div] at hlow
    linarith
  obtain he | ⟨he, hnormal, hmantissa, hround⟩ :=
    hd.lastPlace_cases h (isLastPlace_lastPlace hnum hden)
  · rw [roundedBits_eq hden he (hd.roundsTo h), index]
  · rw [he] at hround
    rw [roundedBits_eq hden he hround, index, hmantissa]
    omega

end Binary64
end SignalFlow
