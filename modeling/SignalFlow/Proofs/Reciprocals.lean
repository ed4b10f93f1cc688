import SignalFlow.Proofs.Binary64Sign
import SignalFlow.Proofs.RangeArithmetic

/-!
# Reciprocals of ranges

A range without zero lies on one side of it, and taking reciprocals exchanges its ends.  An
end at zero, which is then strict, becomes infinite; the end should go to the side on which
the range lies.  Scalars know the side from the sign of the zero alone, and the sign is not
tied to the range: the range below zero may end at a positive zero.  Then its reciprocals
are said to lie above one that is negative, and none of them does.

Endpoint reciprocals are read exactly here.

**Results.**
* `Range.covers_recip_iff`: the range of reciprocals covers a reciprocal exactly if no end
  at zero went to the wrong side.
-/

namespace SignalFlow

namespace Range

namespace Under

variable {strict : Bool} {x y : EReal}

/-- Among positive values reciprocals are in opposite order. -/
theorem inv (hx : 0 < x) (hy : 0 < y) (h : Under strict x y) : Under strict y⁻¹ x⁻¹ := by
  cases strict with
  | false => exact EReal.inv_strictAntiOn.antitoneOn hx hy h
  | true => exact EReal.inv_strictAntiOn hx hy h

theorem not_swap (h : Under true x y) : ¬Under strict y x :=
  fun hswap => absurd hswap.le (not_le.mpr h)

theorem neg_iff : Under strict (-y) (-x) ↔ Under strict x y :=
  ⟨fun h => by simpa using h.neg, neg⟩

/-- A lower end that keeps zero out does not lie below it, and is strict if it lies
there. -/
theorem above {a : ℝ} (hzero : ¬Under strict x 0) (h : Under strict x a) :
    0 < a ∧ 0 ≤ x ∧ (x = 0 → strict = true) := by
  have hle : 0 ≤ x := not_lt.mp fun hlt => hzero (of_lt hlt)
  have hstrict : x = 0 → strict = true := by
    rintro rfl
    cases strict with
    | false => exact absurd (le_refl (0 : EReal)) hzero
    | true => rfl
  refine ⟨?_, hle, hstrict⟩
  rcases hle.lt_or_eq with hlt | heq
  · exact EReal.coe_pos.mp (lt_of_lt_of_le hlt h.le)
  · rw [hstrict heq.symm, ← heq] at h
    exact EReal.coe_pos.mp h

end Under

/-- The reciprocals `inverseHi` and `inverseLo` of the ends of a positive range enclose
that of a member, if a lower end at zero goes up; otherwise they do not. -/
theorem under_reciprocals_iff {lo hi : EReal} (inverseLo inverseHi : EReal)
    {loStrict hiStrict : Bool} {x : ℝ} (hx : 0 < x) (hlower : Under loStrict lo x)
    (hupper : Under hiStrict x hi) (hlo : 0 ≤ lo) (hstrict : lo = 0 → loStrict = true)
    (hinverseHi : inverseHi = hi⁻¹) (hinverseLo : lo ≠ 0 → inverseLo = lo⁻¹)
    (hinverseZero : lo = 0 → inverseLo = ⊤ ∨ inverseLo = ⊥) :
    Under hiStrict (min inverseHi inverseLo) (x⁻¹ : ℝ) ∧
      Under loStrict (x⁻¹ : ℝ) (max inverseHi inverseLo) ↔
      (lo = 0 → inverseLo = ⊤) := by
  have hxpos : (0 : EReal) < x := EReal.coe_pos.mpr hx
  have hhipos : 0 < hi := lt_of_lt_of_le hxpos hupper.le
  have hmember : Under hiStrict inverseHi (x⁻¹ : ℝ) := by
    rw [hinverseHi, EReal.coe_inv]
    exact hupper.inv hxpos hhipos
  by_cases hzero : lo = 0
  · rcases hinverseZero hzero with htop | hbot
    · -- The upper end of the reciprocals is infinite.
      have hbelow : Under loStrict (x⁻¹ : ℝ) ⊤ := Under.of_lt (EReal.coe_lt_top _)
      simp [htop, hmember, hbelow]
    · -- What should bound the reciprocals from below bounds them from above.
      have hne : ¬(lo = 0 → inverseLo = ⊤) := fun h => by simp [h hzero] at hbot
      rw [iff_false_right hne, hbot, max_eq_left bot_le, hstrict hzero]
      exact fun h => h.2.not_swap hmember
  · have hlopos : 0 < lo := lt_of_le_of_ne hlo (Ne.symm hzero)
    have hbelow : Under loStrict (x⁻¹ : ℝ) inverseLo := by
      rw [hinverseLo hzero, EReal.coe_inv]
      exact hlower.inv hlopos hxpos
    have hordered : inverseHi ≤ inverseLo := hmember.le.trans hbelow.le
    rw [min_eq_left hordered, max_eq_right hordered]
    simp [hmember, hbelow, hzero]

end Range

variable {R : Type} [Scalar R] {ρ : ExtendedReading R}

/-- The reciprocal of the scalar is computed without rounding.  That of a zero is infinite,
on a side that the value of the scalar does not tell. -/
structure ExtendedReading.InvertsExactly (ρ : ExtendedReading R) (a : R) : Prop where
  defined : Scalar.Defined a
  defined_inv : Scalar.Defined (1 / a)
  lit_inv : ρ.lit a ≠ 0 → ρ.lit (1 / a) = (ρ.lit a)⁻¹
  lit_inv_zero : ρ.lit a = 0 → ρ.lit (1 / a) = ⊤ ∨ ρ.lit (1 / a) = ⊥

namespace Range

/-- What a range of reciprocals covers, in terms of the reciprocals of the ends. -/
theorem covers_recip?_iff_under {r s : Range R} (hlo : ρ.InvertsExactly r.lo)
    (hhi : ρ.InvertsExactly r.hi) (h : r.recip? = some s) (y : EReal) :
    r.containsZero = false ∧ (s.Covers ρ y ↔
      Under r.hiStrict (min (ρ.lit (1 / r.hi)) (ρ.lit (1 / r.lo))) y ∧
        Under r.loStrict y (max (ρ.lit (1 / r.hi)) (ρ.lit (1 / r.lo)))) := by
  unfold recip? at h
  split at h
  · cases h
  · next hguard =>
      cases h
      rw [Bool.or_eq_true, not_or, Bool.not_eq_true] at hguard
      refine ⟨hguard.1, ?_⟩
      rw [← (ρ.lit_lesser hhi.defined_inv hlo.defined_inv).2,
        ← (ρ.lit_greater hhi.defined_inv hlo.defined_inv).2]
      rfl

/-- A range without zero that covers a number lies on the same side of zero; an end at zero
is strict. -/
theorem side_of_covers {r : Range R} (hr : r.DefinedEnds)
    (hzero : r.containsZero = false) {x : ℝ} (hx : r.Covers ρ x) :
    (0 < x ∧ 0 ≤ ρ.lit r.lo ∧ (ρ.lit r.lo = 0 → r.loStrict = true)) ∨
      (0 < -x ∧ 0 ≤ -ρ.lit r.hi ∧ (-ρ.lit r.hi = 0 → r.hiStrict = true)) := by
  obtain ⟨hlower, hupper⟩ : Under r.loStrict (ρ.lit r.lo) x ∧
    Under r.hiStrict x (ρ.lit r.hi) := hx
  have hnot : ¬(Under r.loStrict (ρ.lit r.lo) 0 ∧ Under r.hiStrict 0 (ρ.lit r.hi)) := by
    intro hcovers
    have hcontains := (containsZero_iff_covers ρ hr).mpr hcovers
    simp [hzero] at hcontains
  rcases not_and_or.mp hnot with hnot | hnot
  · exact Or.inl (Under.above hnot hlower)
  · refine Or.inr (Under.above (fun h => hnot ?_) hupper.neg)
    simpa using h.neg

/-- The range of reciprocals covers the reciprocal of a number in the range exactly if a
lower end at zero went up, and an upper end at zero went down. -/
theorem covers_recip_iff {r s : Range R} (hlo : ρ.InvertsExactly r.lo)
    (hhi : ρ.InvertsExactly r.hi) (h : r.recip? = some s) {x : ℝ} (hx : r.Covers ρ x) :
    x ≠ 0 ∧ (s.Covers ρ (x⁻¹ : ℝ) ↔
      (ρ.lit r.lo = 0 → ρ.lit (1 / r.lo) = ⊤) ∧
        (ρ.lit r.hi = 0 → ρ.lit (1 / r.hi) = ⊥)) := by
  obtain ⟨hzero, hcovers⟩ := covers_recip?_iff_under hlo hhi h (x⁻¹ : ℝ)
  have hends : Under r.loStrict (ρ.lit r.lo) x ∧ Under r.hiStrict x (ρ.lit r.hi) := hx
  rw [hcovers]
  rcases side_of_covers ⟨hlo.defined, hhi.defined⟩ hzero hx with
    ⟨hpos, hside, hstrict⟩ | ⟨hneg, hside, hstrict⟩
  · have hhine : ρ.lit r.hi ≠ 0 := (lt_of_lt_of_le (EReal.coe_pos.mpr hpos) hends.2.le).ne'
    refine ⟨hpos.ne', ?_⟩
    rw [under_reciprocals_iff _ _ hpos hends.1 hends.2 hside hstrict
      (hhi.lit_inv hhine) hlo.lit_inv hlo.lit_inv_zero]
    simp [hhine]
  · -- The negated range lies above zero, with its ends exchanged.
    have hxneg : x < 0 := neg_pos.mp hneg
    have hlone : ρ.lit r.lo ≠ 0 :=
      (lt_of_le_of_lt hends.1.le (EReal.coe_neg'.mpr hxneg)).ne
    have hlower : -ρ.lit (1 / r.lo) = (-ρ.lit r.lo)⁻¹ := by
      rw [hlo.lit_inv hlone, EReal.inv_neg]
    have hupper : -ρ.lit r.hi ≠ 0 → -ρ.lit (1 / r.hi) = (-ρ.lit r.hi)⁻¹ := fun hne => by
      rw [hhi.lit_inv (by simpa using hne), EReal.inv_neg]
    have hinfinite : -ρ.lit r.hi = 0 → -ρ.lit (1 / r.hi) = ⊤ ∨
        -ρ.lit (1 / r.hi) = ⊥ := fun heq => by
      simpa [or_comm] using hhi.lit_inv_zero (by simpa using heq)
    have hmirrored := under_reciprocals_iff (-ρ.lit (1 / r.hi))
      (-ρ.lit (1 / r.lo)) hneg hends.2.neg hends.1.neg
      hside hstrict hlower hupper hinfinite
    have hinv : (((-x)⁻¹ : ℝ) : EReal) = -(x⁻¹ : ℝ) := by rw [inv_neg, EReal.coe_neg]
    rw [hinv, EReal.min_neg_neg, EReal.max_neg_neg, Under.neg_iff, Under.neg_iff, max_comm,
      min_comm, and_comm]
      at hmirrored
    refine ⟨hxneg.ne, hmirrored.trans ?_⟩
    simp [hlone]

/-- The numbers between minus two and zero, for either sign of the zero. -/
def belowZero (zero : Float) : Range Float :=
  ⟨-2, zero, true, true⟩

/-- Minus one lies below zero, but its reciprocal is excluded if the range ends at the
positive zero. -/
theorem covers_recip_belowZero :
    (∃ s, (belowZero 0).recip? = some s ∧
      (belowZero 0).Covers (Binary64.extendedReading fun _ _ => 0) (-1 : ℝ) ∧
      ¬s.Covers (Binary64.extendedReading fun _ _ => 0) ((-1)⁻¹ : ℝ)) ∧
    ∃ s, (belowZero (-0)).recip? = some s ∧
      (belowZero (-0)).Covers (Binary64.extendedReading fun _ _ => 0) (-1 : ℝ) ∧
      s.Covers (Binary64.extendedReading fun _ _ => 0) ((-1)⁻¹ : ℝ) := by
  let ρ : ExtendedReading Float := Binary64.extendedReading fun _ _ => 0
  have htwo : ρ.lit (-2) = ((-2 : ℝ) : EReal) := Binary64.extendedValue_neg_two
  have hhalf : ρ.lit (1 / -2) = ((-2⁻¹ : ℝ) : EReal) := by
    have hvalue : ρ.lit (1 / -2) = (((-(2 ^ 52 : ℕ) : ℤ) : ℝ) * 2 ^ (-53 : ℤ) : ℝ) := rfl
    rw [hvalue]
    norm_num
  have hminus : ρ.InvertsExactly (-2) := by
    refine ⟨by decide, by decide, fun _ => ?_, fun hzero => ?_⟩
    · rw [htwo, hhalf, ← EReal.coe_inv, inv_neg]
    · rw [htwo, EReal.coe_eq_zero] at hzero
      norm_num at hzero
  have hpositive : ρ.InvertsExactly 0 :=
    ⟨by decide, by decide, fun h => absurd rfl h, fun _ => Or.inl rfl⟩
  have hnegative : ρ.InvertsExactly (-0) :=
    ⟨by decide, by decide, fun h => absurd rfl h, fun _ => Or.inr rfl⟩
  have hcovers : ∀ zero, ρ.lit zero = 0 → (belowZero zero).Covers ρ (-1 : ℝ) := by
    intro zero hzero
    show ρ.lit (-2) < (-1 : ℝ) ∧ ((-1 : ℝ) : EReal) < ρ.lit zero
    rw [htwo, hzero, EReal.coe_lt_coe_iff]
    exact ⟨by norm_num, EReal.coe_neg'.mpr (by norm_num)⟩
  constructor
  · obtain ⟨_, hiff⟩ := covers_recip_iff hminus hpositive rfl (hcovers 0 rfl)
    refine ⟨_, rfl, hcovers 0 rfl, fun h => ?_⟩
    have hbot := (hiff.mp h).2 rfl
    exact (top_ne_bot (α := EReal)) hbot
  · obtain ⟨_, hiff⟩ := covers_recip_iff hminus hnegative rfl (hcovers (-0) rfl)
    refine ⟨_, rfl, hcovers (-0) rfl, hiff.mpr ⟨fun hzero => ?_, fun _ => rfl⟩⟩
    change ρ.lit (-2) = 0 at hzero
    rw [htwo, EReal.coe_eq_zero] at hzero
    norm_num at hzero

end Range
end SignalFlow
