import SignalFlow.Proofs.ExactArithmetic
import SignalFlow.Proofs.RangeMeaning

/-!
# Arithmetic of ranges

In exact arithmetic every operation on ranges encloses what the same operation on real
numbers gives: if numbers lie in the ranges that go in, the result lies in the range that
comes out.  An end that has no value, such as the sum of two infinite ends, is replaced by
an infinite one, which excludes no real number.

**Results.**
* `Encloses.neg`, `Encloses.add`, `Encloses.scale`, `Encloses.offset`, `Encloses.mul`:
  arithmetic.
* `Encloses.hull_left`, `Encloses.hull_right`, `Encloses.intersect?`, `Encloses.clamp`:
  hulls, common values and cut off values.
* `Encloses.compares_of_allSatisfySign`: signs of all values of a range.
-/

namespace SignalFlow
namespace Range

/-- The first value stays below the second, or does not exceed it. -/
def Under (strict : Bool) (x y : EReal) : Prop :=
  if strict then x < y else x ≤ y

namespace Under

variable {strict strict' : Bool} {x y : EReal}

theorem le (h : Under strict x y) : x ≤ y := by
  cases strict with
  | false => exact h
  | true => exact le_of_lt (a := x) h

theorem of_lt (h : x < y) : Under strict x y := by
  cases strict with
  | false => exact h.le
  | true => exact h

theorem and_left (h : Under strict x y) : Under (strict && strict') x y := by
  cases strict' with
  | false =>
      rw [Bool.and_false]
      exact h.le
  | true =>
      rw [Bool.and_true]
      exact h

theorem neg (h : Under strict x y) : Under strict (-y) (-x) := by
  cases strict with
  | false => exact EReal.neg_le_neg_iff.mpr h
  | true => exact EReal.neg_lt_neg_iff.mpr h

/-- Lower ends are added. -/
theorem add_coe {a b : ℝ} (hx : Under strict x a) (hy : Under strict' y b) :
    Under (strict || strict') (x + y) (a + b : ℝ) := by
  rw [EReal.coe_add]
  cases strict with
  | true => exact EReal.add_lt_add_of_lt_of_le' hx hy.le (EReal.coe_ne_bot b) (by simp)
  | false =>
      cases strict' with
      | true =>
          rw [add_comm x, add_comm (a : EReal)]
          exact EReal.add_lt_add_of_lt_of_le' hy hx.le (EReal.coe_ne_bot a) (by simp)
      | false => exact add_le_add hx.le hy.le

/-- Upper ends are added. -/
theorem coe_add {a b : ℝ} (hx : Under strict a x) (hy : Under strict' b y) :
    Under (strict || strict') (a + b : ℝ) (x + y) := by
  have hx' : Under strict (-x) (-a : ℝ) := hx.neg
  have hy' : Under strict' (-y) (-b : ℝ) := hy.neg
  have hbot : ∀ {z : EReal} {c : ℝ} {flag : Bool}, Under flag c z → z ≠ ⊥ := fun h =>
    (lt_of_lt_of_le (EReal.bot_lt_coe _) h.le).ne'
  have hsum := (hx'.add_coe hy').neg
  rwa [← neg_add, EReal.coe_neg, neg_neg, ← sub_eq_add_neg,
    EReal.neg_sub (by simp [hbot hy]) (by simp [hbot hx]), neg_neg] at hsum

theorem mul_coe {k : ℝ} (hk : 0 < k) (h : Under strict x y) :
    Under strict (x * k) (y * k) := by
  have hpos : (0 : EReal) < k := EReal.coe_pos.mpr hk
  cases strict with
  | false => exact mul_le_mul_of_nonneg_right h.le hpos.le
  | true =>
      have hle : x * k ≤ y * k := mul_le_mul_of_nonneg_right h.le hpos.le
      refine lt_of_le_of_ne hle fun heq => ?_
      have hcancel : ∀ z : EReal, z * k * (k⁻¹ : ℝ) = z := by
        intro z
        rw [mul_assoc, ← EReal.coe_mul, mul_inv_cancel₀ hk.ne', EReal.coe_one, mul_one]
      have hxy : x = y := by rw [← hcancel x, heq, hcancel]
      exact absurd hxy (ne_of_lt (a := x) h)

end Under

variable {R : Type} [Scalar R] {ρ : ExtendedReading R}

/-- A real number lies in the range, and the ends of the range are defined. -/
structure Encloses (ρ : ExtendedReading R) (r : Range R) (a : ℝ) : Prop where
  defined : r.DefinedEnds
  lower : Under r.loStrict (ρ.lit r.lo) a
  upper : Under r.hiStrict a (ρ.lit r.hi)

namespace Encloses

variable {r s : Range R} {a b : ℝ}

theorem covers (h : r.Encloses ρ a) : r.Covers ρ a :=
  ⟨h.lower, h.upper⟩

theorem of_covers (hr : r.DefinedEnds) (h : r.Covers ρ a) : r.Encloses ρ a :=
  ⟨hr, h.1, h.2⟩

theorem full (ρ : ExtendedReading R) (a : ℝ) : (Range.full : Range R).Encloses ρ a :=
  of_covers (definedEnds_full ρ) (covers_full ρ a)

theorem closed {lo hi : R} (hlo : Scalar.Defined lo) (hhi : Scalar.Defined hi)
    (hlower : ρ.lit lo ≤ a) (hupper : (a : EReal) ≤ ρ.lit hi) :
    (Range.closed lo hi).Encloses ρ a :=
  ⟨⟨hlo, hhi⟩, hlower, hupper⟩

theorem point {x : R} (hx : Scalar.Defined x) (ha : ρ.lit x = a) :
    (Range.point x).Encloses ρ a :=
  closed hx hx ha.le ha.ge

/-! ### Hulls and common values -/

/-- The lesser of two lower ends; of equal ones a strict one only if both are. -/
def lowerHull (r s : Range R) : R × Bool :=
  if r.lo < s.lo then (r.lo, r.loStrict)
  else if s.lo < r.lo then (s.lo, s.loStrict)
  else (r.lo, r.loStrict && s.loStrict)

/-- The greater of two upper ends; of equal ones a strict one only if both are. -/
def upperHull (r s : Range R) : R × Bool :=
  if s.hi < r.hi then (r.hi, r.hiStrict)
  else if r.hi < s.hi then (s.hi, s.hiStrict)
  else (r.hi, r.hiStrict && s.hiStrict)

theorem hull_eq (r s : Range R) :
    r.hull s = ⟨(lowerHull r s).1, (upperHull r s).1, (lowerHull r s).2,
      (upperHull r s).2⟩ :=
  rfl

theorem lowerHull_cases (ρ : ExtendedReading R) (hr : r.DefinedEnds) (hs : s.DefinedEnds) :
    (ρ.lit r.lo < ρ.lit s.lo ∧ lowerHull r s = (r.lo, r.loStrict)) ∨
      (ρ.lit s.lo < ρ.lit r.lo ∧ lowerHull r s = (s.lo, s.loStrict)) ∨
      (ρ.lit r.lo = ρ.lit s.lo ∧ lowerHull r s = (r.lo, r.loStrict && s.loStrict)) := by
  unfold lowerHull
  split
  · next h => exact Or.inl ⟨(ρ.lt_iff hr.1 hs.1).mp h, rfl⟩
  · next h =>
      split
      · next h' => exact Or.inr (Or.inl ⟨(ρ.lt_iff hs.1 hr.1).mp h', rfl⟩)
      · next h' =>
          rw [ρ.lt_iff hr.1 hs.1, not_lt] at h
          rw [ρ.lt_iff hs.1 hr.1, not_lt] at h'
          exact Or.inr (Or.inr ⟨le_antisymm h' h, rfl⟩)

theorem upperHull_cases (ρ : ExtendedReading R) (hr : r.DefinedEnds) (hs : s.DefinedEnds) :
    (ρ.lit s.hi < ρ.lit r.hi ∧ upperHull r s = (r.hi, r.hiStrict)) ∨
      (ρ.lit r.hi < ρ.lit s.hi ∧ upperHull r s = (s.hi, s.hiStrict)) ∨
      (ρ.lit r.hi = ρ.lit s.hi ∧ upperHull r s = (r.hi, r.hiStrict && s.hiStrict)) := by
  unfold upperHull
  split
  · next h => exact Or.inl ⟨(ρ.lt_iff hs.2 hr.2).mp h, rfl⟩
  · next h =>
      split
      · next h' => exact Or.inr (Or.inl ⟨(ρ.lt_iff hr.2 hs.2).mp h', rfl⟩)
      · next h' =>
          rw [ρ.lt_iff hs.2 hr.2, not_lt] at h
          rw [ρ.lt_iff hr.2 hs.2, not_lt] at h'
          exact Or.inr (Or.inr ⟨le_antisymm h h', rfl⟩)

theorem definedEnds_hull (ρ : ExtendedReading R) (hr : r.DefinedEnds)
    (hs : s.DefinedEnds) : (r.hull s).DefinedEnds := by
  rw [hull_eq]
  constructor
  · rcases lowerHull_cases ρ hr hs with ⟨_, h⟩ | ⟨_, h⟩ | ⟨_, h⟩ <;> simp [h, hr.1, hs.1]
  · rcases upperHull_cases ρ hr hs with ⟨_, h⟩ | ⟨_, h⟩ | ⟨_, h⟩ <;> simp [h, hr.2, hs.2]

theorem hull_left (h : r.Encloses ρ a) (hs : s.DefinedEnds) : (r.hull s).Encloses ρ a := by
  refine ⟨definedEnds_hull ρ h.defined hs, ?_, ?_⟩ <;> rw [hull_eq] <;> dsimp only
  · rcases lowerHull_cases ρ h.defined hs with
      ⟨_, heq⟩ | ⟨hlt, heq⟩ | ⟨_, heq⟩ <;> rw [heq]
    · exact h.lower
    · exact Under.of_lt (lt_of_lt_of_le hlt h.lower.le)
    · exact h.lower.and_left
  · rcases upperHull_cases ρ h.defined hs with
      ⟨_, heq⟩ | ⟨hlt, heq⟩ | ⟨_, heq⟩ <;> rw [heq]
    · exact h.upper
    · exact Under.of_lt (lt_of_le_of_lt h.upper.le hlt)
    · exact h.upper.and_left

theorem hull_right (hr : r.DefinedEnds) (h : s.Encloses ρ a) :
    (r.hull s).Encloses ρ a := by
  refine ⟨definedEnds_hull ρ hr h.defined, ?_, ?_⟩ <;> rw [hull_eq] <;> dsimp only
  · rcases lowerHull_cases ρ hr h.defined with
      ⟨hlt, heq⟩ | ⟨_, heq⟩ | ⟨hlit, heq⟩ <;> rw [heq]
    · exact Under.of_lt (lt_of_lt_of_le hlt h.lower.le)
    · exact h.lower
    · rw [Bool.and_comm, hlit]
      exact h.lower.and_left
  · rcases upperHull_cases ρ hr h.defined with
      ⟨hlt, heq⟩ | ⟨_, heq⟩ | ⟨hlit, heq⟩ <;> rw [heq]
    · exact Under.of_lt (lt_of_le_of_lt h.upper.le hlt)
    · exact h.upper
    · rw [Bool.and_comm, hlit]
      exact h.upper.and_left

/-- Ranges that enclose the same number have a common range that does so too. -/
theorem intersect? (h : r.Encloses ρ a) (h' : s.Encloses ρ a) :
    ∃ t, r.intersect? s = some t ∧ t.Encloses ρ a := by
  have hmeet := definedEnds_meet ρ h.defined h'.defined
  have hcovers := (covers_meet ρ h.defined h'.defined a).mpr ⟨h.covers, h'.covers⟩
  have hempty : ¬(meet r s).isEmpty = true := fun hempty =>
    not_covers_of_isEmpty ρ hmeet hempty a hcovers
  refine ⟨meet r s, ?_, of_covers hmeet hcovers⟩
  rw [intersect?_eq, if_neg hempty]

/-! ### Signs and cut off values -/

theorem compares_of_allSatisfySign (h : r.Encloses ρ a) {c : Comparison}
    (hsign : r.allSatisfySign c = true) : c.Compares a 0 := by
  obtain ⟨⟨hlo, hhi⟩, hlower, hupper⟩ := h
  have hzero := ρ.defined_zero
  suffices hsuffices : c.Compares (a : EReal) 0 by
    cases c <;> simpa [Comparison.Compares] using hsuffices
  cases c with
  | gt =>
      simp only [allSatisfySign, Bool.or_eq_true, decide_eq_true_eq, Bool.and_eq_true,
        ρ.lt_iff hzero hlo, ρ.beq_iff hlo hzero, ρ.lit_zero] at hsign
      rcases hsign with hlt | ⟨heq, hstrict⟩
      · exact lt_of_lt_of_le hlt hlower.le
      · rw [hstrict, heq] at hlower
        exact hlower
  | ge =>
      simp only [allSatisfySign, decide_eq_true_eq, ρ.le_iff hzero hlo, ρ.lit_zero]
        at hsign
      exact hsign.trans hlower.le
  | lt =>
      simp only [allSatisfySign, Bool.or_eq_true, decide_eq_true_eq, Bool.and_eq_true,
        ρ.lt_iff hhi hzero, ρ.beq_iff hhi hzero, ρ.lit_zero] at hsign
      rcases hsign with hlt | ⟨heq, hstrict⟩
      · exact lt_of_le_of_lt hupper.le hlt
      · rw [hstrict, heq] at hupper
        exact hupper
  | le =>
      simp only [allSatisfySign, decide_eq_true_eq, ρ.le_iff hhi hzero, ρ.lit_zero]
        at hsign
      exact hupper.le.trans hsign
  | eq =>
      simp only [allSatisfySign, Bool.and_eq_true, ρ.beq_iff hlo hzero,
        ρ.beq_iff hhi hzero, ρ.lit_zero] at hsign
      exact le_antisymm (hsign.2 ▸ hupper.le) (hsign.1 ▸ hlower.le)
  | ne =>
      intro heq
      have hcovers : r.Covers ρ 0 := heq ▸ ⟨hlower, hupper⟩
      rw [← containsZero_iff_covers ρ ⟨hlo, hhi⟩] at hcovers
      simp [allSatisfySign, hcovers] at hsign

/-- Cutting off the ends of a range encloses the cut off number. -/
theorem clamp {lo hi : R} (hlo : Scalar.Defined lo) (hhi : Scalar.Defined hi)
    (h : r.Encloses ρ a) (hb : (b : EReal) = min (max (a : EReal) (ρ.lit lo)) (ρ.lit hi)) :
    (r.clamp lo hi).Encloses ρ b := by
  have hcut : ∀ {x : R}, Scalar.Defined x →
      Scalar.Defined (Scalar.lesser (Scalar.greater x lo) hi) ∧
      ρ.lit (Scalar.lesser (Scalar.greater x lo) hi) = min (max (ρ.lit x) (ρ.lit lo))
          (ρ.lit hi) := by
    intro x hx
    obtain ⟨hdefined, hlit⟩ := ρ.lit_greater hx hlo
    rw [← hlit]
    exact ρ.lit_lesser hdefined hhi
  have hlodefined := h.defined.1
  have hhidefined := h.defined.2
  refine ⟨⟨(hcut hlodefined).1, (hcut hhidefined).1⟩, ?_, ?_⟩
  · show Under _ (ρ.lit (Scalar.lesser (Scalar.greater r.lo lo) hi)) b
    rw [hb, (hcut hlodefined).2]
    by_cases hstrict : r.loStrict = true ∧ lo < r.lo ∧ r.lo < hi
    · obtain ⟨hlower, hlt, hlt'⟩ := hstrict
      have hra : ρ.lit r.lo < a := by simpa [Under, hlower] using h.lower
      rw [ρ.lt_iff hlo hlodefined] at hlt
      rw [ρ.lt_iff hlodefined hhi] at hlt'
      refine Under.of_lt ?_
      rw [max_eq_left hlt.le, min_eq_left hlt'.le]
      exact lt_min (lt_max_of_lt_left hra) hlt'
    · have hflag : (r.clamp lo hi).loStrict = false := by
        simpa [Range.clamp] using hstrict
      rw [hflag]
      exact min_le_min_right _ (max_le_max_right _ h.lower.le)
  · show Under _ b (ρ.lit (Scalar.lesser (Scalar.greater r.hi lo) hi))
    rw [hb, (hcut hhidefined).2]
    by_cases hstrict : r.hiStrict = true ∧ r.hi < hi ∧ lo < r.hi
    · obtain ⟨hupper, hlt, hlt'⟩ := hstrict
      have har : (a : EReal) < ρ.lit r.hi := by simpa [Under, hupper] using h.upper
      rw [ρ.lt_iff hhidefined hhi] at hlt
      rw [ρ.lt_iff hlo hhidefined] at hlt'
      refine Under.of_lt ?_
      rw [max_eq_left hlt'.le, min_eq_left hlt.le]
      exact min_lt_of_left_lt (max_lt har hlt')
    · have hflag : (r.clamp lo hi).hiStrict = false := by
        simpa [Range.clamp] using hstrict
      rw [hflag]
      exact min_le_min_right _ (max_le_max_right _ h.upper.le)

/-! ### Sums and products -/

section Exact

variable (hρ : ρ.Exact)

include hρ

theorem neg (h : r.Encloses ρ a) : r.neg.Encloses ρ (-a) := by
  obtain ⟨⟨hlo, hhi⟩, hlower, hupper⟩ := h
  refine ⟨⟨hρ.defined_neg_iff.mpr hhi, hρ.defined_neg_iff.mpr hlo⟩, ?_, ?_⟩
  · show Under r.hiStrict (ρ.lit (-r.hi)) (-a : ℝ)
    rw [hρ.lit_neg hhi, EReal.coe_neg]
    exact hupper.neg
  · show Under r.loStrict (-a : ℝ) (ρ.lit (-r.lo))
    rw [hρ.lit_neg hlo, EReal.coe_neg]
    exact hlower.neg

/-- A sum of lower ends without a value is replaced by a value below every number. -/
theorem under_definedOr_add {x y : R} {strict strict' : Bool}
    (hx : Under strict (ρ.lit x) a) (hy : Under strict' (ρ.lit y) b) :
    Scalar.Defined (definedOr (-Scalar.infinity) (x + y)) ∧
      Under (strict || strict') (ρ.lit (definedOr (-Scalar.infinity) (x + y)))
        (a + b : ℝ) := by
  unfold definedOr
  cases hundefined : Scalar.isUndefined (x + y) with
  | true =>
      simp only [if_true, ρ.lit_neg_infinity]
      exact ⟨ρ.defined_neg_infinity, Under.of_lt (EReal.bot_lt_coe _)⟩
  | false =>
      simp only [Bool.false_eq_true, if_false]
      rw [(hρ.add hundefined).2.2]
      exact ⟨hundefined, hx.add_coe hy⟩

/-- A sum of upper ends without a value is replaced by a value above every number. -/
theorem definedOr_add_under {x y : R} {strict strict' : Bool}
    (hx : Under strict a (ρ.lit x)) (hy : Under strict' b (ρ.lit y)) :
    Scalar.Defined (definedOr Scalar.infinity (x + y)) ∧
      Under (strict || strict') (a + b : ℝ)
        (ρ.lit (definedOr Scalar.infinity (x + y))) := by
  unfold definedOr
  cases hundefined : Scalar.isUndefined (x + y) with
  | true =>
      simp only [if_true, ρ.lit_infinity]
      exact ⟨ρ.defined_infinity, Under.of_lt (EReal.coe_lt_top _)⟩
  | false =>
      simp only [Bool.false_eq_true, if_false]
      rw [(hρ.add hundefined).2.2]
      exact ⟨hundefined, hx.coe_add hy⟩

theorem add (h : r.Encloses ρ a) (h' : s.Encloses ρ b) : (r.add s).Encloses ρ (a + b) := by
  obtain ⟨hlo, hlower⟩ := under_definedOr_add hρ h.lower h'.lower
  obtain ⟨hhi, hupper⟩ := definedOr_add_under hρ h.upper h'.upper
  exact ⟨⟨hlo, hhi⟩, hlower, hupper⟩

theorem offset {c : R} (hc : Scalar.isFinite c = true) (h : r.Encloses ρ a) :
    (r.offset c).Encloses ρ (a + hρ.real.lit c) := by
  obtain ⟨hcdefined, htop, hbot⟩ := ρ.isFinite_iff.mp hc
  have hdefined : ∀ {x : R}, Scalar.Defined x → Scalar.Defined (x + c) := fun hx =>
    hρ.defined_add hx hcdefined (fun h => hbot h.2) fun h => htop h.2
  have hlit : ∀ {x : R}, Scalar.Defined x →
      ρ.lit (x + c) = ρ.lit x + (hρ.real.lit c : ℝ) := by
    intro x hx
    rw [(hρ.add (hdefined hx)).2.2, hρ.coe_lit_real hc]
  obtain ⟨⟨hlo, hhi⟩, hlower, hupper⟩ := h
  have hself : Under false (hρ.real.lit c : EReal) (hρ.real.lit c) :=
    le_refl (hρ.real.lit c : EReal)
  refine ⟨⟨hdefined hlo, hdefined hhi⟩, ?_, ?_⟩
  · show Under r.loStrict (ρ.lit (r.lo + c)) (a + hρ.real.lit c : ℝ)
    rw [hlit hlo, ← Bool.or_false r.loStrict]
    exact hlower.add_coe hself
  · show Under r.hiStrict (a + hρ.real.lit c : ℝ) (ρ.lit (r.hi + c))
    rw [hlit hhi, ← Bool.or_false r.hiStrict]
    exact hupper.coe_add hself

theorem stretch {k : R} (hk : Scalar.isFinite k = true) (hpos : 0 < hρ.real.lit k)
    (h : r.Encloses ρ a) : (r.stretch k).Encloses ρ (a * hρ.real.lit k) := by
  obtain ⟨hkdefined, htop, hbot⟩ := ρ.isFinite_iff.mp hk
  have hne : ρ.lit k ≠ 0 := by
    rw [← hρ.coe_lit_real hk]
    exact (EReal.coe_pos.mpr hpos).ne'
  have hdefined : ∀ {x : R}, Scalar.Defined x → Scalar.Defined (x * k) := fun hx =>
    hρ.defined_mul hx hkdefined (fun _ => ⟨htop, hbot⟩) fun h => absurd h hne
  have hlit : ∀ {x : R}, Scalar.Defined x →
      ρ.lit (x * k) = ρ.lit x * (hρ.real.lit k : ℝ) := by
    intro x hx
    rw [(hρ.mul (hdefined hx)).2.2, hρ.coe_lit_real hk]
  obtain ⟨⟨hlo, hhi⟩, hlower, hupper⟩ := h
  refine ⟨⟨hdefined hlo, hdefined hhi⟩, ?_, ?_⟩
  · show Under r.loStrict (ρ.lit (r.lo * k)) (a * hρ.real.lit k : ℝ)
    rw [hlit hlo, EReal.coe_mul]
    exact hlower.mul_coe hpos
  · show Under r.hiStrict (a * hρ.real.lit k : ℝ) (ρ.lit (r.hi * k))
    rw [hlit hhi, EReal.coe_mul]
    exact hupper.mul_coe hpos

theorem scale {k : R} (hk : Scalar.isFinite k = true) (h : r.Encloses ρ a) :
    (r.scale k).Encloses ρ (a * hρ.real.lit k) := by
  have hkdefined := (ρ.isFinite_iff.mp hk).1
  have hzero : (k == 0) = true ↔ hρ.real.lit k = 0 := by
    rw [ρ.beq_iff hkdefined ρ.defined_zero, ρ.lit_zero, ← hρ.coe_lit_real hk,
      EReal.coe_eq_zero]
  have hpos : 0 < k ↔ 0 < hρ.real.lit k := by
    rw [ρ.lt_iff ρ.defined_zero hkdefined, ρ.lit_zero, ← hρ.coe_lit_real hk, EReal.coe_pos]
  unfold Range.scale
  split
  · next hk0 =>
      rw [hzero.mp hk0, mul_zero]
      exact point ρ.defined_zero (by simp [ρ.lit_zero])
  · next hk0 =>
      split
      · next hk1 => exact h.stretch hρ hk (hpos.mp hk1)
      · next hk1 =>
          have hnegative : hρ.real.lit k < 0 :=
            lt_of_le_of_ne (not_lt.mp (mt hpos.mpr hk1)) (mt hzero.mpr hk0)
          have hneg := hρ.lit_real_neg hkdefined
          have hstretched := (h.neg hρ).stretch hρ (hρ.isFinite_neg hk)
            (by rw [hneg]; linarith)
          rwa [hneg, neg_mul_neg] at hstretched

/-- Zero times an infinite end is zero, as it is among the extended real numbers. -/
theorem lit_mulEnds {x y : R} (hx : Scalar.Defined x) (hy : Scalar.Defined y) :
    Scalar.Defined (mulEnds x y) ∧ ρ.lit (mulEnds x y) = ρ.lit x * ρ.lit y := by
  unfold mulEnds
  have hzero : ∀ {z : R}, Scalar.Defined z →
      ((z == 0) = true ↔ ρ.lit z = 0) := fun hz => by
    rw [ρ.beq_iff hz ρ.defined_zero, ρ.lit_zero]
  by_cases hx0 : (x == 0) = true
  · simp [hx0, ρ.defined_zero, ρ.lit_zero, (hzero hx).mp hx0]
  · by_cases hy0 : (y == 0) = true
    · simp [hy0, ρ.defined_zero, ρ.lit_zero, (hzero hy).mp hy0]
    · have hdefined : Scalar.Defined (x * y) := hρ.defined_mul hx hy
        (fun h => absurd ((hzero hx).mpr h) hx0) fun h => absurd ((hzero hy).mpr h) hy0
      simp [hx0, hy0, hdefined, (hρ.mul hdefined).2.2]

end Exact

/-- A product lies above one of the products of the ends. -/
theorem exists_corner_le {x x' y y' : EReal} (hx : x ≤ a) (hx' : (a : EReal) ≤ x')
    (hy : y ≤ b) (hy' : (b : EReal) ≤ y') :
    ∃ c ∈ [x * y, x * y', x' * y, x' * y'], c ≤ (a * b : ℝ) := by
  have hside : ∀ z : EReal, z * y ≤ z * b ∨ z * y' ≤ z * b := by
    intro z
    rcases le_total 0 z with hz | hz
    · exact Or.inl (mul_le_mul_of_nonneg_left hy hz)
    · have hle : -z * b ≤ -z * y' :=
        mul_le_mul_of_nonneg_left hy' (EReal.neg_nonneg.mpr hz)
      rw [EReal.neg_mul, EReal.neg_mul, EReal.neg_le_neg_iff] at hle
      exact Or.inr hle
  rw [EReal.coe_mul]
  rcases le_total 0 (b : EReal) with hb | hb
  · have hle : x * b ≤ a * b := mul_le_mul_of_nonneg_right hx hb
    rcases hside x with hc | hc
    · exact ⟨x * y, by simp, hc.trans hle⟩
    · exact ⟨x * y', by simp, hc.trans hle⟩
  · have hle : a * -b ≤ x' * -(b : EReal) :=
      mul_le_mul_of_nonneg_right hx' (EReal.neg_nonneg.mpr hb)
    rw [mul_neg, mul_neg, EReal.neg_le_neg_iff] at hle
    rcases hside x' with hc | hc
    · exact ⟨x' * y, by simp, hc.trans hle⟩
    · exact ⟨x' * y', by simp, hc.trans hle⟩

/-- A product lies below one of the products of the ends. -/
theorem exists_le_corner {x x' y y' : EReal} (hx : x ≤ a) (hx' : (a : EReal) ≤ x')
    (hy : y ≤ b) (hy' : (b : EReal) ≤ y') :
    ∃ c ∈ [x * y, x * y', x' * y, x' * y'], ((a * b : ℝ) : EReal) ≤ c := by
  have hlower : -x' ≤ ((-a : ℝ) : EReal) := by
    rw [EReal.coe_neg, EReal.neg_le_neg_iff]
    exact hx'
  have hupper : ((-a : ℝ) : EReal) ≤ -x := by
    rw [EReal.coe_neg, EReal.neg_le_neg_iff]
    exact hx
  obtain ⟨c, hc, hle⟩ := exists_corner_le hlower hupper hy hy'
  rw [neg_mul, EReal.coe_neg, EReal.le_neg] at hle
  refine ⟨-c, ?_, hle⟩
  simp only [neg_mul, List.mem_cons, List.not_mem_nil, or_false] at hc ⊢
  rcases hc with rfl | rfl | rfl | rfl <;> simp

theorem foldl_lesser (ρ : ExtendedReading R) {xs : List R}
    (hxs : ∀ x ∈ xs, Scalar.Defined x) {acc : R} (hacc : Scalar.Defined acc) :
    Scalar.Defined (xs.foldl Scalar.lesser acc) ∧
      ρ.lit (xs.foldl Scalar.lesser acc) ≤ ρ.lit acc ∧
      ∀ x ∈ xs, ρ.lit (xs.foldl Scalar.lesser acc) ≤ ρ.lit x := by
  induction xs generalizing acc with
  | nil => exact ⟨hacc, le_rfl, by simp⟩
  | cons x xs ih =>
      rw [List.forall_mem_cons] at hxs
      obtain ⟨hdefined, hlit⟩ := ρ.lit_lesser hacc hxs.1
      obtain ⟨hfold, hle, hall⟩ := ih hxs.2 hdefined
      rw [hlit] at hle
      rw [List.foldl_cons, List.forall_mem_cons]
      exact ⟨hfold, hle.trans (min_le_left _ _), hle.trans (min_le_right _ _), hall⟩

theorem foldl_greater (ρ : ExtendedReading R) {xs : List R}
    (hxs : ∀ x ∈ xs, Scalar.Defined x) {acc : R} (hacc : Scalar.Defined acc) :
    Scalar.Defined (xs.foldl Scalar.greater acc) ∧
      ρ.lit acc ≤ ρ.lit (xs.foldl Scalar.greater acc) ∧
      ∀ x ∈ xs, ρ.lit x ≤ ρ.lit (xs.foldl Scalar.greater acc) := by
  induction xs generalizing acc with
  | nil => exact ⟨hacc, le_rfl, by simp⟩
  | cons x xs ih =>
      rw [List.forall_mem_cons] at hxs
      obtain ⟨hdefined, hlit⟩ := ρ.lit_greater hacc hxs.1
      obtain ⟨hfold, hle, hall⟩ := ih hxs.2 hdefined
      rw [hlit] at hle
      rw [List.foldl_cons, List.forall_mem_cons]
      exact ⟨hfold, (le_max_left _ _).trans hle, (le_max_right _ _).trans hle, hall⟩

theorem mul (hρ : ρ.Exact) (h : r.Encloses ρ a) (h' : s.Encloses ρ b) :
    (r.mul s).Encloses ρ (a * b) := by
  have hll := lit_mulEnds hρ h.defined.1 h'.defined.1
  have hlh := lit_mulEnds hρ h.defined.1 h'.defined.2
  have hhl := lit_mulEnds hρ h.defined.2 h'.defined.1
  have hhh := lit_mulEnds hρ h.defined.2 h'.defined.2
  have hdefined : ∀ x ∈ [mulEnds r.lo s.lo, mulEnds r.lo s.hi, mulEnds r.hi s.lo,
      mulEnds r.hi s.hi],
      Scalar.Defined x := by
    simp [hll.1, hlh.1, hhl.1, hhh.1]
  have hcorners : [mulEnds r.lo s.lo, mulEnds r.lo s.hi, mulEnds r.hi s.lo,
      mulEnds r.hi s.hi].map ρ.lit =
      [ρ.lit r.lo * ρ.lit s.lo, ρ.lit r.lo * ρ.lit s.hi, ρ.lit r.hi * ρ.lit s.lo,
          ρ.lit r.hi * ρ.lit s.hi] := by
    simp [hll.2, hlh.2, hhl.2, hhh.2]
  obtain ⟨hlo, _, hlower⟩ := foldl_lesser ρ hdefined ρ.defined_infinity
  obtain ⟨hhi, _, hupper⟩ := foldl_greater ρ hdefined ρ.defined_neg_infinity
  obtain ⟨c, hc, hle⟩ := exists_corner_le h.lower.le h.upper.le h'.lower.le h'.upper.le
  obtain ⟨c', hc', hle'⟩ := exists_le_corner h.lower.le h.upper.le h'.lower.le h'.upper.le
  rw [← hcorners] at hc hc'
  obtain ⟨x, hx, rfl⟩ := List.mem_map.mp hc
  obtain ⟨x', hx', rfl⟩ := List.mem_map.mp hc'
  exact closed hlo hhi ((hlower x hx).trans hle) (hle'.trans (hupper x' hx'))

end Encloses

end Range
end SignalFlow
