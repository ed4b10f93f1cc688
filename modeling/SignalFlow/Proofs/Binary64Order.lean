import Mathlib.Data.EReal.Operations
import Mathlib.Tactic.Linarith
import Mathlib.Tactic.Positivity
import SignalFlow.Proofs.ExactValue
import SignalFlow.Proofs.ExtendedMeaning

/-!
# The order of binary floating-point numbers

Numbers of the 64-bit binary format are compared by sign, then by exponent, then by
mantissa.  For numbers of the format this is the order of their values: a mantissa has all
53 places unless the exponent is the least one, so that the greater exponent always wins.
Infinite numbers stand for the ends of the extended reals.

**Results.**
* `canonical_of_unpack`: mantissas and exponents of the format.
* `compare_toModel`: defined numbers compare as their values do.
* `extendedReading`: the reading of literals among the extended reals.
-/

namespace SignalFlow
namespace Binary64

open Float.Model

/-- The shape of a magnitude `m * 2 ^ e`: 53 binary places, and fewer at the least exponent
only. -/
structure Canonical (m : ℕ) (e : ℤ) : Prop where
  lt : m < 2 ^ 53
  least_le : -1074 ≤ e
  eq_least : m < 2 ^ 52 → e = -1074

theorem canonical_of_unpack {x : Float.Model} {s : UnpackedFloat.Sign} {m : ℕ} {e : ℤ}
    {hm : 0 < m} (h : x.unpack = .finite s m e hm) : Canonical m e := by
  unfold Float.Model.unpack UnpackedFloat.unpack at h
  dsimp only at h
  have hfraction := (@UnpackedFloat.unpackMantissa Format.binary64 x.toBits.toBitVec).isLt
  split at h
  · split at h <;> cases h
  · split at h
    · next hzero =>
        split at h
        · cases h
        · cases h
          refine ⟨lt_trans hfraction (by decide), ?_, ?_⟩
          · rw [hzero]
            decide
          · intro _
            rw [hzero]
            decide
    · next hzero =>
        cases h
        have hexp : (@UnpackedFloat.unpackExponent Format.binary64
            x.toBits.toBitVec).toNat ≠ 0 := by
          intro h0
          exact hzero (BitVec.eq_of_toNat_eq h0)
        have hm : (1#1 ++ @UnpackedFloat.unpackMantissa Format.binary64
            x.toBits.toBitVec).toNat =
            2 ^ 52 + (@UnpackedFloat.unpackMantissa Format.binary64
              x.toBits.toBitVec).toNat := by
          rw [BitVec.toNat_append, ← Nat.shiftLeft_add_eq_or_of_lt hfraction]
          rfl
        have hbias : ((Format.binary64.exponentBias + 52 : ℕ) : ℤ) = 1075 := by decide
        rw [hm]
        change _ < 2 ^ 52 at hfraction
        refine ⟨by omega, ?_, by omega⟩
        push_cast at hbias ⊢
        omega

/-- The greater exponent has the greater magnitude, whatever the mantissas are. -/
theorem magnitude_lt_of_exponent_lt {m m' : ℕ} {e e' : ℤ} (h : Canonical m e)
    (h' : Canonical m' e') (he : e < e') : (m : ℝ) * 2 ^ e < m' * 2 ^ e' := by
  have hfull : 2 ^ 52 ≤ m' := by
    by_contra hlt
    have hleast := h'.eq_least (by omega)
    have := h.least_le
    omega
  have htwo : (2 : ℝ) ≠ 0 := two_ne_zero
  have hpos : ∀ k : ℤ, (0 : ℝ) < 2 ^ k := fun k => zpow_pos two_pos k
  have hlt : (m : ℝ) < 2 ^ 53 := by exact_mod_cast h.lt
  have hle : (2 : ℝ) ^ 52 ≤ m' := by exact_mod_cast hfull
  calc (m : ℝ) * 2 ^ e < 2 ^ 53 * 2 ^ e := mul_lt_mul_of_pos_right hlt (hpos e)
    _ = 2 ^ 52 * 2 ^ (e + 1) := by rw [zpow_add_one₀ htwo]; ring
    _ ≤ 2 ^ 52 * 2 ^ e' := by
        refine mul_le_mul_of_nonneg_left ?_ (by positivity)
        exact zpow_le_zpow_right₀ one_le_two (by omega)
    _ ≤ m' * 2 ^ e' := mul_le_mul_of_nonneg_right hle (hpos e').le

/-- Magnitudes compare by exponent, then by mantissa. -/
theorem cmp_magnitude {m m' : ℕ} {e e' : ℤ} (h : Canonical m e) (h' : Canonical m' e') :
    cmp ((m : ℝ) * 2 ^ e) (m' * 2 ^ e') = (compare e e').then (compare m m') := by
  rcases lt_trichotomy e e' with he | rfl | he
  · rw [compare_lt_iff_lt.mpr he,
      (cmp_eq_lt_iff _ _).mpr (magnitude_lt_of_exponent_lt h h' he)]
    rfl
  · have hpos : (0 : ℝ) < 2 ^ e := zpow_pos two_pos e
    rw [cmp_mul_pos_right hpos, compare_eq_iff_eq.mpr rfl, Nat.strictMono_cast.cmp_map_eq,
      cmp_eq_compare]
    rfl
  · rw [compare_gt_iff_gt.mpr he,
      (cmp_eq_gt_iff _ _).mpr (magnitude_lt_of_exponent_lt h' h he)]
    rfl

theorem magnitude_pos {m : ℕ} (hm : 0 < m) (e : ℤ) : (0 : ℝ) < m * 2 ^ e :=
  mul_pos (Nat.cast_pos.mpr hm) (zpow_pos two_pos e)

theorem unpackedValue_positive (m : ℕ) (e : ℤ) (hm : 0 < m) :
    (unpackedValue (.finite .positive m e hm) : ℝ) = m * 2 ^ e := by
  simp [unpackedValue, UnpackedFloat.Sign.apply]

theorem unpackedValue_negative (m : ℕ) (e : ℤ) (hm : 0 < m) :
    (unpackedValue (.finite .negative m e hm) : ℝ) = -(m * 2 ^ e) := by
  simp [unpackedValue, UnpackedFloat.Sign.apply]

/-- Finite numbers that are not zero compare as their values do. -/
theorem compare_finite {s s' : UnpackedFloat.Sign} {m m' : ℕ} {e e' : ℤ} {hm : 0 < m}
    {hm' : 0 < m'} (h : Canonical m e) (h' : Canonical m' e') :
    UnpackedFloat.compare (.finite s m e hm) (.finite s' m' e' hm') =
      some (cmp (unpackedValue (.finite s m e hm) : ℝ)
        (unpackedValue (.finite s' m' e' hm'))) := by
  have hpos := magnitude_pos hm e
  have hpos' := magnitude_pos hm' e'
  cases s with
  | positive =>
      rw [unpackedValue_positive]
      cases s' with
      | positive =>
          rw [unpackedValue_positive, cmp_magnitude h h']
          rfl
      | negative =>
          rw [unpackedValue_negative, (cmp_eq_gt_iff _ _).mpr (by linarith)]
          rfl
  | negative =>
      rw [unpackedValue_negative]
      cases s' with
      | positive =>
          rw [unpackedValue_positive, (cmp_eq_lt_iff _ _).mpr (by linarith)]
          rfl
      | negative =>
          have hneg : StrictAnti fun x : ℝ => -x := fun _ _ h => neg_lt_neg h
          rw [unpackedValue_negative, hneg.cmp_map_eq, ← cmp_swap, cmp_magnitude h h']
          rfl

theorem cmp_zero_unpackedValue (s : UnpackedFloat.Sign) (m : ℕ) (e : ℤ) (hm : 0 < m) :
    cmp 0 (unpackedValue (.finite s m e hm) : ℝ) =
      match s with
      | .positive => .lt
      | .negative => .gt := by
  have hpos := magnitude_pos hm e
  cases s with
  | positive =>
      rw [unpackedValue_positive]
      exact (cmp_eq_lt_iff _ _).mpr hpos
  | negative =>
      rw [unpackedValue_negative]
      exact (cmp_eq_gt_iff _ _).mpr (by linarith)

/-- Value of an unpacked number among the extended reals; that of an undefined one means
nothing. -/
noncomputable def unpackedExtended : UnpackedFloat → EReal
  | .infinity .positive => ⊤
  | .infinity .negative => ⊥
  | .finite s m e hm => ((unpackedValue (.finite s m e hm) : ℝ) : EReal)
  | .notANumber => 0
  | .zero _ => 0

/-- The mantissa and the exponent of a finite number are those of the format. -/
def UnpackedCanonical : UnpackedFloat → Prop
  | .finite _ m e _ => Canonical m e
  | _ => True

/-- Numbers compare as their values among the extended reals do. -/
theorem compare_eq_cmp {a b : UnpackedFloat} (ha : UnpackedCanonical a)
    (hb : UnpackedCanonical b) (hna : a ≠ .notANumber) (hnb : b ≠ .notANumber) :
    a.compare b = some (cmp (unpackedExtended a) (unpackedExtended b)) := by
  have htop : ∀ x : ℝ, cmp (⊤ : EReal) x = .gt := fun x =>
    (cmp_eq_gt_iff _ _).mpr (EReal.coe_lt_top x)
  have hbot : ∀ x : ℝ, cmp (⊥ : EReal) x = .lt := fun x =>
    (cmp_eq_lt_iff _ _).mpr (EReal.bot_lt_coe x)
  have htop' : ∀ x : ℝ, cmp (x : EReal) ⊤ = .lt := fun x =>
    (cmp_eq_lt_iff _ _).mpr (EReal.coe_lt_top x)
  have hbot' : ∀ x : ℝ, cmp (x : EReal) ⊥ = .gt := fun x =>
    (cmp_eq_gt_iff _ _).mpr (EReal.bot_lt_coe x)
  have hends : cmp (⊥ : EReal) ⊤ = .lt := (cmp_eq_lt_iff _ _).mpr bot_lt_top
  have hends' : cmp (⊤ : EReal) ⊥ = .gt := (cmp_eq_gt_iff _ _).mpr bot_lt_top
  have hzero : (0 : EReal) = ((0 : ℝ) : EReal) := rfl
  have hcoe : ∀ x y : ℝ, cmp (x : EReal) y = cmp x y := EReal.coe_strictMono.cmp_map_eq
  cases a with
  | notANumber => exact absurd rfl hna
  | infinity s =>
      cases b with
      | notANumber => exact absurd rfl hnb
      | infinity s' =>
          cases s <;> cases s' <;>
            simp only [UnpackedFloat.compare, unpackedExtended, cmp_self_eq_eq, hends,
              hends'] <;> rfl
      | zero s' =>
          cases s <;>
            simp only [UnpackedFloat.compare, unpackedExtended, hzero, htop, hbot]
      | finite s' m' e' hm' =>
          cases s <;> simp only [UnpackedFloat.compare, unpackedExtended, htop, hbot]
  | zero s =>
      cases b with
      | notANumber => exact absurd rfl hnb
      | infinity s' =>
          cases s' <;> simp only [UnpackedFloat.compare, unpackedExtended, hzero,
            htop', hbot']
      | zero s' => simp only [UnpackedFloat.compare, unpackedExtended, cmp_self_eq_eq]
      | finite s' m' e' hm' =>
          simp only [unpackedExtended, hzero, hcoe, cmp_zero_unpackedValue]
          cases s' <;> rfl
  | finite s m e hm =>
      cases b with
      | notANumber => exact absurd rfl hnb
      | infinity s' =>
          cases s <;> cases s' <;>
            simp only [UnpackedFloat.compare, unpackedExtended, htop', hbot']
      | zero s' =>
          simp only [unpackedExtended, hzero, hcoe]
          rw [← cmp_swap, cmp_zero_unpackedValue]
          cases s <;> rfl
      | finite s' m' e' hm' =>
          simp only [unpackedExtended, hcoe]
          exact compare_finite ha hb

theorem canonical_toModel (x : Float) : UnpackedCanonical x.toModel.unpack := by
  cases h : x.toModel.unpack with
  | finite s m e hm => exact canonical_of_unpack h
  | _ => trivial

/-- Value of a number among the extended reals. -/
noncomputable def extendedValue (x : Float) : EReal :=
  unpackedExtended x.toModel.unpack

theorem lt_iff_compare (x y : Float) :
    x < y ↔ x.toModel.unpack.compare y.toModel.unpack = some .lt := by
  show Float.lt x y = true ↔ _
  unfold Float.lt
  simp only [decide_eq_true_eq]
  show Float.Model.lt _ _ = true ↔ _
  simp [Float.Model.lt, UnpackedFloat.lt]

theorem le_iff_compare (x y : Float) :
    x ≤ y ↔ (x.toModel.unpack.compare y.toModel.unpack).any (·.isLE) = true := by
  show Float.le x y = true ↔ _
  unfold Float.le
  simp only [decide_eq_true_eq]
  rfl

theorem beq_iff_compare (x y : Float) :
    (x == y) = true ↔ x.toModel.unpack.compare y.toModel.unpack = some .eq := by
  show (x.toModel.unpack.compare y.toModel.unpack == some .eq) = true ↔ _
  simp

theorem compare_self (a : UnpackedFloat) : a.compare a = some .eq ↔ a ≠ .notANumber := by
  cases a with
  | infinity s => cases s <;> simp [UnpackedFloat.compare] <;> rfl
  | notANumber => simp [UnpackedFloat.compare]
  | zero s => simp [UnpackedFloat.compare]
  | finite s m e hm => cases s <;> simp [UnpackedFloat.compare]

theorem defined_iff (x : Float) : Scalar.Defined x ↔ x.toModel.unpack ≠ .notANumber := by
  rw [← compare_self, ← beq_iff_compare]
  simp [Scalar.Defined, Scalar.isUndefined]

/-- Defined numbers compare as their values do. -/
theorem compare_toModel {x y : Float} (hx : Scalar.Defined x) (hy : Scalar.Defined y) :
    x.toModel.unpack.compare y.toModel.unpack =
      some (cmp (extendedValue x) (extendedValue y)) :=
  compare_eq_cmp (canonical_toModel x) (canonical_toModel y) ((defined_iff x).mp hx)
    ((defined_iff y).mp hy)

theorem extendedValue_eq_of_beq {x y : Float} (h : (x == y) = true) :
    extendedValue x = extendedValue y := by
  have hcompare := (beq_iff_compare x y).mp h
  have hx : Scalar.Defined x := by
    rw [defined_iff]
    intro hnan
    rw [hnan] at hcompare
    cases hcompare
  have hy : Scalar.Defined y := by
    rw [defined_iff]
    intro hnan
    rw [hnan] at hcompare
    cases h : x.toModel.unpack <;> rw [h] at hcompare <;> cases hcompare
  rw [compare_toModel hx hy, Option.some.injEq] at hcompare
  exact cmp_eq_eq_iff _ _ |>.mp hcompare

/-- Literals by their values among the extended reals; powers are left open. -/
noncomputable def extendedReading (pow : EReal → EReal → EReal) :
    ExtendedReading Float where
  lit := extendedValue
  pow := pow
  lit_zero := rfl
  lit_infinity := rfl
  lit_neg_infinity := rfl
  defined_zero := rfl
  defined_infinity := rfl
  defined_neg_infinity := rfl
  lit_eq_of_beq := extendedValue_eq_of_beq
  beq_iff hx hy := by
    rw [beq_iff_compare, compare_toModel hx hy, Option.some.injEq]
    exact cmp_eq_eq_iff _ _
  lt_iff hx hy := by
    rw [lt_iff_compare, compare_toModel hx hy, Option.some.injEq]
    exact cmp_eq_lt_iff _ _
  le_iff hx hy := by
    rw [le_iff_compare, compare_toModel hx hy]
    rw [← not_lt, ← cmp_eq_gt_iff, Option.any_some]
    cases cmp (extendedValue _) (extendedValue _) <;> decide

end Binary64
end SignalFlow
