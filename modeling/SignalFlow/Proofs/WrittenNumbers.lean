import Mathlib.Data.EReal.Operations
import Mathlib.Tactic.FieldSimp
import Mathlib.Tactic.Linarith
import Mathlib.Tactic.Positivity
import SignalFlow.Proofs.Binary64Sign
import SignalFlow.Proofs.NearestBinary
import SignalFlow.Proofs.PositionalNumerals

/-!
# Numbers that are written and read

A finite number of the 64-bit binary format is written as the shortest decimal that is read
as it.  The fields of its bit pattern are the sign, the exponent and the fraction; they
give the magnitude that is written, and reading rounds back to the same pattern.

**Results.**
* `index_dyadic`, `Writable.magnitude_dyadic`: the magnitude of a finite number and its
  place among those of the format.
* `exists_parts_write`, `write_of_lt`: a number without a sign is read as it is written,
  and a negative one is written as its negation with a sign in front.
-/

namespace SignalFlow
namespace Binary64

open Float.Model

/-! ### Fields -/

/-- The sign bit of a number. -/
def signField (x : Float) : ℕ :=
  (@UnpackedFloat.unpackSign Format.binary64 x.toBits.toBitVec).toNat

/-- The exponent of a number as it is stored. -/
def exponentField (x : Float) : ℕ :=
  (@UnpackedFloat.unpackExponent Format.binary64 x.toBits.toBitVec).toNat

/-- The fraction of a number as it is stored. -/
def fractionField (x : Float) : ℕ :=
  (@UnpackedFloat.unpackMantissa Format.binary64 x.toBits.toBitVec).toNat

theorem fractionField_eq (x : Float) : fractionField x = x.toBits.toNat % 2 ^ 52 := by
  rw [fractionField, UnpackedFloat.unpackMantissa_def, BitVec.extractLsb'_toNat]
  rfl

theorem exponentField_eq (x : Float) :
    exponentField x = x.toBits.toNat / 2 ^ 52 % 2 ^ 11 := by
  rw [exponentField, UnpackedFloat.unpackExponent_def, BitVec.extractLsb'_toNat,
    Nat.shiftRight_eq_div_pow]
  rfl

theorem signField_eq (x : Float) : signField x = x.toBits.toNat / 2 ^ 63 % 2 ^ 1 := by
  rw [signField, UnpackedFloat.unpackSign_def, BitVec.extractLsb'_toNat,
    Nat.shiftRight_eq_div_pow]
  rfl

theorem toNat_toBits (x : Float) :
    x.toBits.toNat = signField x * 2 ^ 63 + exponentField x * 2 ^ 52 +
      fractionField x := by
  have hlt := x.toBits.toNat_lt
  rw [fractionField_eq, exponentField_eq, signField_eq]
  omega

theorem fractionField_lt (x : Float) : fractionField x < 2 ^ 52 := by
  rw [fractionField_eq]
  omega

theorem exponentField_lt (x : Float) : exponentField x < 2 ^ 11 := by
  rw [exponentField_eq]
  omega

theorem signField_lt (x : Float) : signField x < 2 := by
  rw [signField_eq]
  omega

theorem isNegative_iff (x : Float) : isNegative x = true ↔ signField x = 1 := by
  have hlt := x.toBits.toNat_lt
  rw [isNegative, beq_iff_eq, ← UInt64.toNat_inj, UInt64.toNat_shiftRight, signField_eq,
    Nat.shiftRight_eq_div_pow]
  change x.toBits.toNat / 2 ^ 63 = 1 ↔ x.toBits.toNat / 2 ^ 63 % 2 ^ 1 = 1
  omega

/-- The magnitude of a number by its fields. -/
theorem dyadic_eq (x : Float) :
    dyadic x =
      if exponentField x = 0 then ⟨fractionField x, -1074, false⟩
      else ⟨fractionField x + 2 ^ 52, (exponentField x : ℤ) - 1075, fractionField x == 0 &&
        1 < exponentField x⟩ := by
  have hfraction : (x.toBits &&& 0xFFFFFFFFFFFFF).toNat = fractionField x := by
    rw [UInt64.toNat_and, fractionField_eq]
    exact Nat.and_two_pow_sub_one_eq_mod _ 52
  have hexponent : ((x.toBits >>> 52) &&& 0x7FF).toNat = exponentField x := by
    rw [UInt64.toNat_and, UInt64.toNat_shiftRight, exponentField_eq,
      ← Nat.shiftRight_eq_div_pow]
    exact Nat.and_two_pow_sub_one_eq_mod _ 11
  rw [dyadic, hfraction, hexponent]
  rfl

/-! ### Finite numbers -/

theorem unpack_inj {x y : Float} (h : x.toModel.unpack = y.toModel.unpack) : x = y := by
  have hbits := (UnpackedFloat.unpack_inj_of_valid x.toModel.valid y.toModel.valid).mp h
  rw [← Float.toBits_inj]
  exact UInt64.toBitVec_inj.mp hbits

theorem eq_zero_of_unpack {x : Float} {s : UnpackedFloat.Sign}
    (h : x.toModel.unpack = .zero s) : x = 0 ∨ x = -0 := by
  cases s with
  | positive => exact .inl (unpack_inj h)
  | negative => exact .inr (unpack_inj h)

/-- The parts of a finite number. -/
theorem unpack_of_isFinite {x : Float} (h : Scalar.isFinite x = true) :
    (∃ s, x.toModel.unpack = .zero s) ∨ ∃ s m e hm,
      x.toModel.unpack = .finite s m e hm := by
  obtain ⟨hdefined, htop, hbot⟩ := ((extendedReading fun _ _ => 0).isFinite_iff).mp h
  have hvalue : (extendedReading fun _ _ => 0).lit x = unpackedExtended x.toModel.unpack :=
    rfl
  rw [hvalue] at htop hbot
  cases hunpack : x.toModel.unpack with
  | notANumber => exact absurd hunpack ((defined_iff x).mp hdefined)
  | infinity s =>
    rw [hunpack] at htop hbot
    cases s with
    | positive => exact absurd rfl htop
    | negative => exact absurd rfl hbot
  | zero s => exact .inl ⟨s, rfl⟩
  | finite s m e hm => exact .inr ⟨s, m, e, hm, rfl⟩

theorem exponentField_of_isFinite {x : Float} (h : Scalar.isFinite x = true) :
    exponentField x < 2047 := by
  by_contra hge
  have heq : exponentField x = 2047 := by
    have hlt := exponentField_lt x
    omega
  have hones :
      @UnpackedFloat.unpackExponent Format.binary64 x.toModel.toBits.toBitVec = -1#11 :=
    BitVec.eq_of_toNat_eq heq
  have hunpack : x.toModel.unpack = .notANumber ∨ ∃ s, x.toModel.unpack = .infinity s := by
    unfold Float.Model.unpack UnpackedFloat.unpack
    dsimp only
    rw [if_pos hones]
    split
    · exact .inr ⟨_, rfl⟩
    · exact .inl rfl
  obtain ⟨s, hs⟩ | ⟨s, m, e, hm, hs⟩ := unpack_of_isFinite h <;> simp [hs] at hunpack

theorem eq_zero_of_fields {x : Float} (hexponent : exponentField x = 0)
    (hfraction : fractionField x = 0) : x = 0 ∨ x = -0 := by
  have hbits := toNat_toBits x
  have hsign := signField_lt x
  rw [hexponent, hfraction] at hbits
  obtain hpositive | hnegative : signField x = 0 ∨ signField x = 1 := by omega
  · left
    rw [← Float.toBits_inj, ← UInt64.toNat_inj, hbits, hpositive]
    rfl
  · right
    rw [← Float.toBits_inj, ← UInt64.toNat_inj, hbits, hnegative]
    rfl

theorem signField_of_unpack {x : Float} {s : UnpackedFloat.Sign} {m : ℕ} {e : ℤ}
    {hm : 0 < m} (h : x.toModel.unpack = .finite s m e hm) : signField x = 1 ↔
      s = .negative := by
  have hsign :
      s = .ofBitVec (@UnpackedFloat.unpackSign Format.binary64 x.toBits.toBitVec) := by
    unfold Float.Model.unpack UnpackedFloat.unpack at h
    dsimp only at h
    split at h
    · split at h <;> cases h
    · split at h
      · split at h <;> cases h
        rfl
      · cases h
        rfl
  have hlt := signField_lt x
  rw [hsign, UnpackedFloat.Sign.ofBitVec]
  split
  · rename_i hzero
    simp [signField, hzero]
  · rename_i hne
    have hne : signField x ≠ 0 := fun hzero => hne (BitVec.eq_of_toNat_eq hzero)
    simp only [iff_true]
    omega

/-- A finite number below zero has the sign bit. -/
theorem signField_of_lt {x : Float} (h : Scalar.isFinite x = true) (hlt : x < 0) :
    signField x = 1 := by
  rw [lt_iff_compare] at hlt
  have hzero : (0 : Float).toModel.unpack = .zero .positive := rfl
  obtain ⟨s, hs⟩ | ⟨s, m, e, hm, hs⟩ := unpack_of_isFinite h
  · rw [hs, hzero] at hlt
    cases hlt
  · rw [signField_of_unpack hs]
    rw [hs, hzero] at hlt
    cases s with
    | positive => cases hlt
    | negative => rfl

/-- A finite number that is neither below zero nor the negative zero has no sign bit. -/
theorem signField_of_not_lt {x : Float} (h : Scalar.isFinite x = true) (hlt : ¬ x < 0)
    (hzero : x ≠ -0) : signField x = 0 := by
  obtain ⟨s, hs⟩ | ⟨s, m, e, hm, hs⟩ := unpack_of_isFinite h
  · obtain rfl := (eq_zero_of_unpack hs).resolve_right hzero
    rfl
  · have hsign := signField_lt x
    have hpositive : s ≠ .negative := by
      rintro rfl
      apply hlt
      rw [lt_iff_compare, hs]
      rfl
    have hbit : signField x ≠ 1 := fun hone => hpositive ((signField_of_unpack hs).mp hone)
    omega

/-! ### Magnitudes -/

/-- A finite number that is not zero. -/
structure Writable (x : Float) : Prop where
  finite : Scalar.isFinite x = true
  ne_zero : (x == 0) = false

theorem Writable.fields {x : Float} (hx : Writable x) :
    exponentField x ≠ 0 ∨ fractionField x ≠ 0 := by
  by_contra hboth
  rw [not_or, not_not, not_not] at hboth
  have hne := hx.ne_zero
  obtain rfl | rfl := eq_zero_of_fields hboth.1 hboth.2 <;> exact absurd hne (by decide)

theorem Writable.magnitude_dyadic {x : Float} (hx : Writable x) :
    Magnitude (dyadic x) := by
  have hfraction := fractionField_lt x
  have hfields := hx.fields
  rw [dyadic_eq]
  split
  · exact ⟨by dsimp only; omega, by dsimp only; omega, le_rfl, .inl rfl, by simp⟩
  · refine ⟨by dsimp only; omega, by dsimp only; omega, by dsimp only; omega,
      .inr (by dsimp only; omega), ?_⟩
    simp only [Bool.and_eq_true, beq_iff_eq, decide_eq_true_eq]
    omega

/-- The place of a magnitude is its bit pattern. -/
theorem index_dyadic (x : Float) :
    index (dyadic x) = exponentField x * 2 ^ 52 + fractionField x := by
  rw [dyadic_eq, index]
  split
  · simp only
    omega
  · simp only
    omega

theorem exponent_dyadic_le {x : Float} (h : Scalar.isFinite x = true) :
    (dyadic x).exponent ≤ 971 := by
  have hexponent := exponentField_of_isFinite h
  rw [dyadic_eq]
  split
  · norm_num
  · dsimp only
    omega

/-! ### Reading decimals -/

/-- The size by which decimals are told to be far outside the format. -/
theorem size_bounds {digits : ℕ} (hdigits : digits ≠ 0) (e : ℤ) :
    (10 : ℚ) ^ (e + (Nat.toDigits 10 digits).length - 1) ≤ digits * 10 ^ e ∧
      (digits : ℚ) * 10 ^ e < 10 ^ (e + (Nat.toDigits 10 digits).length) := by
  have hpos : 0 < (Nat.toDigits 10 digits).length := Nat.length_toDigits_pos
  have hunit : (0 : ℚ) < 10 ^ e := by positivity
  constructor
  · have hlow : 10 ^ ((Nat.toDigits 10 digits).length - 1) ≤ digits := by
      by_cases hone : (Nat.toDigits 10 digits).length = 1
      · rw [hone]
        exact Nat.pos_of_ne_zero hdigits
      · rw [← not_lt, ← Nat.length_toDigits_le_iff (by norm_num) (by omega)]
        omega
    have hlow : (10 : ℚ) ^ (((Nat.toDigits 10 digits).length - 1 : ℕ) : ℤ) ≤ digits := by
      exact_mod_cast hlow
    calc (10 : ℚ) ^ (e + (Nat.toDigits 10 digits).length - 1)
        = 10 ^ (((Nat.toDigits 10 digits).length - 1 : ℕ) : ℤ) * 10 ^ e := by
          rw [← zpow_add₀ (by norm_num)]
          congr 1
          omega
      _ ≤ digits * 10 ^ e := by gcongr
  · have hhigh : digits < 10 ^ (Nat.toDigits 10 digits).length :=
      (Nat.length_toDigits_le_iff (by norm_num) hpos).mp le_rfl
    have hhigh : (digits : ℚ) < 10 ^ ((Nat.toDigits 10 digits).length : ℤ) := by
      exact_mod_cast hhigh
    rw [zpow_add₀ (by norm_num), mul_comm]
    gcongr

theorem ofDecimal_eq {digits : ℕ} {e : ℤ} (hlow : (10 : ℚ) ^ (-400 : ℤ) ≤ digits * 10 ^ e)
    (hhigh : (digits : ℚ) * 10 ^ e < 10 ^ (400 : ℤ)) :
    ofDecimal digits e = ofFraction (digits * 10 ^ e.toNat) (10 ^ (-e).toNat) := by
  have hdigits : digits ≠ 0 := by
    rintro rfl
    have hpos : (0 : ℚ) < 10 ^ (-400 : ℤ) := by positivity
    rw [Nat.cast_zero, zero_mul] at hlow
    linarith
  obtain ⟨hsizeLow, hsizeHigh⟩ := size_bounds hdigits e
  have hlarge : ¬ (e + (Nat.toDigits 10 digits).length < -400) := by
    intro hsize
    have hpow := zpow_le_zpow_right₀ (a := (10 : ℚ)) (by norm_num) hsize.le
    linarith
  have hsmall : ¬ (400 < e + (Nat.toDigits 10 digits).length) := by
    intro hsize
    have hpow := zpow_le_zpow_right₀ (a := (10 : ℚ)) (by norm_num)
      (Int.le_sub_one_of_lt hsize)
    linarith
  simp only [ofDecimal, hdigits, hlarge, hsmall, decide_false, Bool.or_self,
    Bool.false_eq_true, if_false, Nat.pow_eq]

theorem ofFraction_eq {num den n : ℕ} (hbits : roundedBits num den = n)
    (hfinite : n < 2047 * 2 ^ 52) : ofFraction num den = Float.ofBits n.toUInt64 := by
  have heq : ofFraction num den =
      if roundedBits num den < 0x7FF <<< 52 then
      Float.ofBits (roundedBits num den).toUInt64 else 1 / 0 := rfl
  rw [heq, hbits, if_pos]
  simpa [Nat.shiftLeft_eq] using hfinite

theorem two_zpow_le : (2 : ℚ) ^ (1075 : ℤ) ≤ 10 ^ (400 : ℤ) := by
  rw [zpow_ofNat, zpow_ofNat]
  calc (2 : ℚ) ^ 1075 ≤ 2 ^ (3 * 400) := pow_le_pow_right₀ one_le_two (by norm_num)
    _ = (2 ^ 3) ^ 400 := pow_mul 2 3 400
    _ ≤ 10 ^ 400 := pow_le_pow_left₀ (by norm_num) (by norm_num) 400

/-- What is read as a finite number has the size of one. -/
theorem Writable.bounds {x : Float} (hx : Writable x) {y : ℚ} (h : (dyadic x).Reads y) :
    (10 : ℚ) ^ (-400 : ℤ) ≤ y ∧ y < 10 ^ (400 : ℤ) := by
  have hmagnitude := hx.magnitude_dyadic
  have hunit : (0 : ℚ) < 2 ^ (dyadic x).exponent := by positivity
  obtain ⟨hlow, hhigh⟩ := (hmagnitude.roundsTo h).le
  rw [le_div_iff₀ hunit] at hlow
  rw [div_le_iff₀ hunit] at hhigh
  have hpos : (1 : ℚ) ≤ (dyadic x).mantissa := by exact_mod_cast hmagnitude.pos
  have hlt : ((dyadic x).mantissa : ℚ) + 1 ≤ 2 ^ 53 := by exact_mod_cast hmagnitude.lt
  constructor
  · calc (10 : ℚ) ^ (-400 : ℤ) ≤ 2 ^ (-1075 : ℤ) := by
          rw [zpow_neg, zpow_neg]
          exact inv_anti₀ (by positivity) two_zpow_le
      _ = 1 / 2 * 2 ^ (-1074 : ℤ) := by
          rw [one_div, ← zpow_neg_one, ← zpow_add₀ two_ne_zero]
          norm_num
      _ ≤ 1 / 2 * 2 ^ (dyadic x).exponent := by
          gcongr
          · norm_num
          · exact hmagnitude.least_le
      _ ≤ ((dyadic x).mantissa - 1 / 2) * 2 ^ (dyadic x).exponent := by
          gcongr
          linarith
      _ ≤ y := hlow
  · calc y ≤ ((dyadic x).mantissa + 1 / 2) * 2 ^ (dyadic x).exponent := hhigh
      _ ≤ 2 ^ 53 * 2 ^ (971 : ℤ) := by
          gcongr
          · linarith
          · norm_num
          · exact exponent_dyadic_le hx.finite
      _ = 2 ^ (1024 : ℤ) := by
          rw [← zpow_natCast, ← zpow_add₀ two_ne_zero]
          norm_num
      _ < 2 ^ (1075 : ℤ) := zpow_lt_zpow_right₀ one_lt_two (by norm_num)
      _ ≤ 10 ^ (400 : ℤ) := two_zpow_le

/-- A decimal that is read as a number gives the number without its sign. -/
theorem Writable.ofDecimal {x : Float} (hx : Writable x) {digits : ℕ} {e : ℤ}
    (h : (dyadic x).Reads (digits * 10 ^ e)) :
    ofDecimal digits e = Float.ofBits
      (exponentField x * 2 ^ 52 + fractionField x).toUInt64 := by
  obtain ⟨hlow, hhigh⟩ := hx.bounds h
  have hfraction : (digits : ℚ) * 10 ^ e = (digits * 10 ^ e.toNat : ℕ) /
      (10 ^ (-e).toNat : ℕ) := by
    push_cast
    rw [Decimal.pow_toNat_eq (a := 10) (by norm_num) e]
    field_simp
  rw [hfraction] at h
  rw [ofDecimal_eq hlow hhigh]
  apply ofFraction_eq
  · rw [roundedBits_eq_index hx.magnitude_dyadic (by positivity) h, index_dyadic]
  · have hexponent := exponentField_of_isFinite hx.finite
    have hfraction := fractionField_lt x
    omega

theorem isInf_eq_false {x : Float} (h : Scalar.isFinite x = true) : x.isInf = false := by
  show x.toModel.unpack.isInf = false
  obtain ⟨s, hs⟩ | ⟨s, m, e, hm, hs⟩ := unpack_of_isFinite h <;> rw [hs] <;> rfl

theorem isNaN_eq_false {x : Float} (h : Scalar.isFinite x = true) : x.isNaN = false := by
  show x.toModel.unpack.isNaN = false
  obtain ⟨s, hs⟩ | ⟨s, m, e, hm, hs⟩ := unpack_of_isFinite h <;> rw [hs] <;> rfl

theorem write_eq {x : Float} (h : Scalar.isFinite x = true) :
    write x = if signField x = 1 then "-" ++ magnitude x else magnitude x := by
  rw [write, isNaN_eq_false h, if_neg Bool.false_ne_true]
  simp only [isNegative_iff]

theorem compare_finite_zero (s : UnpackedFloat.Sign) (m : ℕ) (e : ℤ) (hm : 0 < m) :
    (UnpackedFloat.finite s m e hm).compare (0 : Float).toModel.unpack ≠ some .eq := by
  intro h
  cases s <;> cases h

theorem eq_zero_of_beq {x : Float} (h : Scalar.isFinite x = true)
    (hzero : (x == 0) = true) : x = 0 ∨ x = -0 := by
  obtain ⟨s, hs⟩ | ⟨s, m, e, hm, hs⟩ := unpack_of_isFinite h
  · exact eq_zero_of_unpack hs
  · have hcompare := (beq_iff_compare x 0).mp hzero
    rw [hs] at hcompare
    exact absurd hcompare (compare_finite_zero s m e hm)

theorem Writable.magnitude_eq {x : Float} (hx : Writable x) :
    magnitude x = Decimal.positional (dyadic x).shortest.1 (dyadic x).shortest.2 := by
  rw [magnitude, isInf_eq_false hx.finite, hx.ne_zero]
  rfl

theorem Writable.read?_magnitude {x : Float} (hx : Writable x) (hsign : signField x = 0) :
    ∃ p : Decimal.Parts, magnitude x = String.ofList p.text ∧
      Scalar.read? (magnitude x) = some x := by
  obtain ⟨p, hp, hvalue⟩ :=
    Decimal.exists_parts_positional (dyadic x).shortest.1 (dyadic x).shortest.2
  have hreads := (dyadic x).reads_shortest hx.magnitude_dyadic.pos
  rw [← hvalue] at hreads
  have hread : Scalar.read? (String.ofList p.text) = some
      (Binary64.ofDecimal p.digits p.exponent) := by
    show (Decimal.Numeral.read? (String.ofList p.text)).map ofNumeral = _
    rw [p.read?_text]
    rfl
  have hbits : exponentField x * 2 ^ 52 + fractionField x = x.toBits.toNat := by
    rw [toNat_toBits, hsign, zero_mul, zero_add]
  have hpattern : x.toBits.toNat.toUInt64 = x.toBits := UInt64.ofNat_toNat
  refine ⟨p, hx.magnitude_eq.trans hp, ?_⟩
  rw [hx.magnitude_eq, hp, hread, hx.ofDecimal hreads, hbits, hpattern,
    Float.ofBits_toBits]

/-- A finite number without a sign is read as it is written. -/
theorem exists_parts_write {x : Float} (h : Scalar.isFinite x = true)
    (hsign : signField x = 0) :
    ∃ p : Decimal.Parts, write x = String.ofList p.text ∧
      Scalar.read? (write x) = some x := by
  rw [write_eq h, if_neg (by omega)]
  cases hzero : x == 0 with
  | true =>
    obtain rfl | rfl := eq_zero_of_beq h hzero
    · exact ⟨.scaledUp 0 0, rfl, rfl⟩
    · exact absurd hsign (by decide)
  | false => exact Writable.read?_magnitude ⟨h, hzero⟩ hsign

/-! ### Negation -/

section Negation

variable {x : Float} (h : Scalar.isFinite x = true)
include h

theorem isFinite_neg : Scalar.isFinite (-x) = true := by
  have hnegates := extendedReading_negates fun _ _ => 0
  obtain ⟨hdefined, htop, hbot⟩ := ((extendedReading fun _ _ => 0).isFinite_iff).mp h
  rw [(extendedReading fun _ _ => 0).isFinite_iff, hnegates.lit_neg hdefined]
  refine ⟨hnegates.defined hdefined, ?_, ?_⟩
  · simpa [EReal.neg_eq_top_iff] using hbot
  · simpa [EReal.neg_eq_bot_iff] using htop

theorem toBitVec_neg_of_isFinite : (-x).toBits.toBitVec = flipSign x.toBits.toBitVec := by
  apply toBitVec_neg
  obtain ⟨s, hs⟩ | ⟨s, m, e, hm, hs⟩ := unpack_of_isFinite h <;> simp [hs]

theorem dyadic_neg : dyadic (-x) = dyadic x := by
  have hexponent : exponentField (-x) = exponentField x := by
    rw [exponentField, toBitVec_neg_of_isFinite h, flipSign,
      UnpackedFloat.unpackExponent_packComponents]
    rfl
  have hfraction : fractionField (-x) = fractionField x := by
    rw [fractionField, toBitVec_neg_of_isFinite h, flipSign,
      UnpackedFloat.unpackMantissa_packComponents]
    rfl
  rw [dyadic_eq, dyadic_eq, hexponent, hfraction]

theorem neg_beq_zero : ((-x) == 0) = (x == 0) := by
  rw [Bool.eq_iff_iff, beq_iff_compare, beq_iff_compare, unpack_neg]
  obtain ⟨s, hs⟩ | ⟨s, m, e, hm, hs⟩ := unpack_of_isFinite h
  · rw [hs]
    rfl
  · rw [hs]
    exact iff_of_false (compare_finite_zero (-s) m e hm) (compare_finite_zero s m e hm)

theorem magnitude_neg : magnitude (-x) = magnitude x := by
  rw [magnitude, magnitude, isInf_eq_false h, isInf_eq_false (isFinite_neg h),
    neg_beq_zero h, dyadic_neg h]

theorem signField_neg (hsign : signField x = 1) : signField (-x) = 0 := by
  have hbit : @UnpackedFloat.unpackSign Format.binary64 x.toBits.toBitVec = 1#1 :=
    BitVec.eq_of_toNat_eq hsign
  rw [signField, toBitVec_neg_of_isFinite h, flipSign,
    UnpackedFloat.unpackSign_packComponents, hbit]
  rfl

/-- A negative number is written as its negation with a sign in front. -/
theorem write_of_lt (hlt : x < 0) : write x = "-" ++ write (-x) := by
  have hsign := signField_of_lt h hlt
  rw [write_eq h, if_pos hsign, write_eq (isFinite_neg h),
    if_neg (by rw [signField_neg h hsign]; decide), magnitude_neg h]

end Negation

end Binary64
end SignalFlow
