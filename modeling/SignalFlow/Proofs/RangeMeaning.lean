import Mathlib.Order.Interval.Set.Infinite
import SignalFlow.Proofs.ExtendedMeaning
import SignalFlow.Range

/-!
# What a range covers

The values of a range among the extended reals, and how comparisons and common values of
ranges act on them.  Everything is asked of ranges with defined ends only.

A range that is kept for a variable is `Proper`: it is not empty, and an infinite end does
not belong to it.  Such a range covers a real number, and more than finitely many unless it
is a single point.

**Results.**
* `contains_iff_covers`, `covers_ofComparison`, `covers_meet`: the operations in terms of
  values.
* `proper_meet`: a common range that is not empty is proper if one of the ranges is.
* `exists_covered`: a proper range covers a real number besides any finite number of
  exceptions.
-/

namespace SignalFlow
namespace Range

variable {R : Type} [Scalar R] (ρ : ExtendedReading R)

/-- The value lies in the range. -/
def Covers (r : Range R) (a : EReal) : Prop :=
  (if r.loStrict then ρ.lit r.lo < a else ρ.lit r.lo ≤ a) ∧
    if r.hiStrict then a < ρ.lit r.hi else a ≤ ρ.lit r.hi

/-- Both ends are defined. -/
def DefinedEnds (r : Range R) : Prop :=
  Scalar.Defined r.lo ∧ Scalar.Defined r.hi

/-- A range that is not empty, without infinite values. -/
structure Proper (r : Range R) : Prop where
  defined : r.DefinedEnds
  nonempty : ρ.lit r.lo < ρ.lit r.hi ∨
    (ρ.lit r.lo = ρ.lit r.hi ∧ r.loStrict = false ∧ r.hiStrict = false)
  loStrict_of_bot : ρ.lit r.lo = ⊥ → r.loStrict = true
  hiStrict_of_top : ρ.lit r.hi = ⊤ → r.hiStrict = true

theorem contains_iff_covers {r : Range R} (hr : r.DefinedEnds) {a : R}
    (ha : Scalar.Defined a) : r.contains a = true ↔ r.Covers ρ (ρ.lit a) := by
  obtain ⟨lo, hi, loStrict, hiStrict⟩ := r
  obtain ⟨hlo, hhi⟩ := hr
  cases loStrict <;> cases hiStrict <;>
    simp [contains, Covers, ρ.lt_iff hlo ha, ρ.le_iff hlo ha, ρ.lt_iff ha hhi,
      ρ.le_iff ha hhi]

theorem containsZero_iff_covers {r : Range R} (hr : r.DefinedEnds) :
    r.containsZero = true ↔ r.Covers ρ 0 := by
  rw [containsZero, contains_iff_covers ρ hr ρ.defined_zero, ρ.lit_zero]

include ρ in
theorem definedEnds_full : (full : Range R).DefinedEnds :=
  ⟨ρ.defined_neg_infinity, ρ.defined_infinity⟩

include ρ in
theorem definedEnds_ofComparison (c : Comparison) {b : R} (hb : Scalar.Defined b) :
    (ofComparison c b).DefinedEnds := by
  obtain ⟨hlo, hhi⟩ := definedEnds_full ρ
  cases c with
  | eq => exact ⟨hb, hb⟩
  | ne => exact ⟨hlo, hhi⟩
  | lt => exact ⟨hlo, hb⟩
  | le => exact ⟨hlo, hb⟩
  | gt => exact ⟨hb, hhi⟩
  | ge => exact ⟨hb, hhi⟩

/-- Every real number lies in the full range. -/
theorem covers_full (a : ℝ) : (full : Range R).Covers ρ a := by
  simp [Covers, full, ρ.lit_infinity, ρ.lit_neg_infinity, EReal.bot_lt_coe,
    EReal.coe_lt_top]

/-- The range of a comparison covers the real numbers that compare in this way. -/
theorem covers_ofComparison {c : Comparison} (hc : c ≠ .ne) (b : R) (a : ℝ) :
    (ofComparison c b).Covers ρ a ↔ c.Compares (a : EReal) (ρ.lit b) := by
  have hbot : ⊥ < (a : EReal) := EReal.bot_lt_coe a
  have htop : (a : EReal) < ⊤ := EReal.coe_lt_top a
  cases c with
  | ne => exact absurd rfl hc
  | eq =>
      constructor
      · exact fun h => le_antisymm h.2 h.1
      · exact fun h => ⟨h.ge, h.le⟩
  | lt => simp [Covers, ofComparison, full, Comparison.Compares, ρ.lit_neg_infinity, hbot]
  | le => simp [Covers, ofComparison, full, Comparison.Compares, ρ.lit_neg_infinity, hbot]
  | gt => simp [Covers, ofComparison, full, Comparison.Compares, ρ.lit_infinity, htop]
  | ge => simp [Covers, ofComparison, full, Comparison.Compares, ρ.lit_infinity, htop]

theorem proper_full : (full : Range R).Proper ρ where
  defined := definedEnds_full ρ
  nonempty := by
    left
    simp [full, ρ.lit_infinity, ρ.lit_neg_infinity]
  loStrict_of_bot _ := rfl
  hiStrict_of_top _ := rfl

theorem isEmpty_iff {r : Range R} (hr : r.DefinedEnds) :
    r.isEmpty = true ↔ ρ.lit r.hi < ρ.lit r.lo ∨
      (ρ.lit r.lo = ρ.lit r.hi ∧ (r.loStrict = true ∨ r.hiStrict = true)) := by
  simp [isEmpty, ρ.lt_iff hr.2 hr.1, ρ.beq_iff hr.1 hr.2]

/-- No value lies in an empty range. -/
theorem not_covers_of_isEmpty {r : Range R} (hr : r.DefinedEnds) (h : r.isEmpty = true)
    (a : EReal) : ¬r.Covers ρ a := by
  rintro ⟨hlo, hhi⟩
  have hle : ρ.lit r.lo ≤ a := by
    split at hlo
    · exact hlo.le
    · exact hlo
  have hle' : a ≤ ρ.lit r.hi := by
    split at hhi
    · exact hhi.le
    · exact hhi
  rcases (isEmpty_iff ρ hr).mp h with hlt | ⟨heq, hstrict | hstrict⟩
  · exact absurd (hle.trans hle') (not_le.mpr hlt)
  · rw [if_pos hstrict, heq] at hlo
    exact absurd hle' (not_le.mpr hlo)
  · rw [if_pos hstrict, ← heq] at hhi
    exact absurd hle (not_le.mpr hhi)

/-! ### Common values -/

/-- The greater of two lower ends; of equal ones a strict one. -/
def lowerMeet (r s : Range R) : R × Bool :=
  if s.lo < r.lo then (r.lo, r.loStrict)
  else if r.lo < s.lo then (s.lo, s.loStrict)
  else (r.lo, r.loStrict || s.loStrict)

/-- The lesser of two upper ends; of equal ones a strict one. -/
def upperMeet (r s : Range R) : R × Bool :=
  if r.hi < s.hi then (r.hi, r.hiStrict)
  else if s.hi < r.hi then (s.hi, s.hiStrict)
  else (r.hi, r.hiStrict || s.hiStrict)

/-- The common values of two ranges, possibly none. -/
def meet (r s : Range R) : Range R :=
  ⟨(lowerMeet r s).1, (upperMeet r s).1, (lowerMeet r s).2, (upperMeet r s).2⟩

theorem intersect?_eq (r s : Range R) :
    r.intersect? s = if (meet r s).isEmpty then none else some (meet r s) :=
  rfl

theorem lowerMeet_cases {r s : Range R} (hr : r.DefinedEnds) (hs : s.DefinedEnds) :
    (ρ.lit s.lo < ρ.lit r.lo ∧ lowerMeet r s = (r.lo, r.loStrict)) ∨
      (ρ.lit r.lo < ρ.lit s.lo ∧ lowerMeet r s = (s.lo, s.loStrict)) ∨
      (ρ.lit r.lo = ρ.lit s.lo ∧ lowerMeet r s = (r.lo, r.loStrict || s.loStrict)) := by
  unfold lowerMeet
  split
  · next h => exact Or.inl ⟨(ρ.lt_iff hs.1 hr.1).mp h, rfl⟩
  · next h =>
      split
      · next h' => exact Or.inr (Or.inl ⟨(ρ.lt_iff hr.1 hs.1).mp h', rfl⟩)
      · next h' =>
          rw [ρ.lt_iff hs.1 hr.1, not_lt] at h
          rw [ρ.lt_iff hr.1 hs.1, not_lt] at h'
          exact Or.inr (Or.inr ⟨le_antisymm h h', rfl⟩)

theorem upperMeet_cases {r s : Range R} (hr : r.DefinedEnds) (hs : s.DefinedEnds) :
    (ρ.lit r.hi < ρ.lit s.hi ∧ upperMeet r s = (r.hi, r.hiStrict)) ∨
      (ρ.lit s.hi < ρ.lit r.hi ∧ upperMeet r s = (s.hi, s.hiStrict)) ∨
      (ρ.lit r.hi = ρ.lit s.hi ∧ upperMeet r s = (r.hi, r.hiStrict || s.hiStrict)) := by
  unfold upperMeet
  split
  · next h => exact Or.inl ⟨(ρ.lt_iff hr.2 hs.2).mp h, rfl⟩
  · next h =>
      split
      · next h' => exact Or.inr (Or.inl ⟨(ρ.lt_iff hs.2 hr.2).mp h', rfl⟩)
      · next h' =>
          rw [ρ.lt_iff hr.2 hs.2, not_lt] at h
          rw [ρ.lt_iff hs.2 hr.2, not_lt] at h'
          exact Or.inr (Or.inr ⟨le_antisymm h' h, rfl⟩)

include ρ in
theorem definedEnds_meet {r s : Range R} (hr : r.DefinedEnds) (hs : s.DefinedEnds) :
    (meet r s).DefinedEnds := by
  constructor
  · rcases lowerMeet_cases ρ hr hs with ⟨_, h⟩ | ⟨_, h⟩ | ⟨_, h⟩ <;>
      simp [meet, h, hr.1, hs.1]
  · rcases upperMeet_cases ρ hr hs with ⟨_, h⟩ | ⟨_, h⟩ | ⟨_, h⟩ <;>
      simp [meet, h, hr.2, hs.2]

/-- The common range covers what both ranges cover. -/
theorem covers_meet {r s : Range R} (hr : r.DefinedEnds) (hs : s.DefinedEnds) (a : EReal) :
    (meet r s).Covers ρ a ↔ r.Covers ρ a ∧ s.Covers ρ a := by
  have hlower : (if (meet r s).loStrict then ρ.lit (meet r s).lo < a
      else ρ.lit (meet r s).lo ≤ a) ↔
      (if r.loStrict then ρ.lit r.lo < a else ρ.lit r.lo ≤ a) ∧
        if s.loStrict then ρ.lit s.lo < a else ρ.lit s.lo ≤ a := by
    rcases lowerMeet_cases ρ hr hs with ⟨hlt, h⟩ | ⟨hlt, h⟩ | ⟨heq, h⟩ <;>
      simp only [meet, h] <;> grind
  have hupper : (if (meet r s).hiStrict then a < ρ.lit (meet r s).hi
      else a ≤ ρ.lit (meet r s).hi) ↔
      (if r.hiStrict then a < ρ.lit r.hi else a ≤ ρ.lit r.hi) ∧
        if s.hiStrict then a < ρ.lit s.hi else a ≤ ρ.lit s.hi := by
    rcases upperMeet_cases ρ hr hs with ⟨hlt, h⟩ | ⟨hlt, h⟩ | ⟨heq, h⟩ <;>
      simp only [meet, h] <;> grind
  rw [Covers, Covers, Covers, hlower, hupper, and_and_and_comm]

/-- A common range that is not empty is proper if one of the ranges is. -/
theorem proper_meet {r s : Range R} (hr : r.Proper ρ) (hs : s.DefinedEnds)
    (h : (meet r s).isEmpty = false) : (meet r s).Proper ρ := by
  have hdefined := definedEnds_meet ρ hr.defined hs
  refine ⟨hdefined, ?_, ?_, ?_⟩
  · have hne : ¬(meet r s).isEmpty = true := by simp [h]
    rw [isEmpty_iff ρ hdefined, not_or, not_lt] at hne
    rcases hne.1.lt_or_eq with hlt | heq
    · exact Or.inl hlt
    · refine Or.inr ⟨heq, ?_⟩
      simpa [heq] using hne.2
  · intro hbot
    rcases lowerMeet_cases ρ hr.defined hs with ⟨_, hm⟩ | ⟨hlt, hm⟩ | ⟨_, hm⟩
    · simp only [meet, hm] at hbot ⊢
      exact hr.loStrict_of_bot hbot
    · simp only [meet, hm] at hbot
      rw [hbot] at hlt
      exact absurd hlt not_lt_bot
    · simp only [meet, hm] at hbot ⊢
      simp [hr.loStrict_of_bot hbot]
  · intro htop
    rcases upperMeet_cases ρ hr.defined hs with ⟨_, hm⟩ | ⟨hlt, hm⟩ | ⟨_, hm⟩
    · simp only [meet, hm] at htop ⊢
      exact hr.hiStrict_of_top htop
    · simp only [meet, hm] at htop
      rw [htop] at hlt
      exact absurd hlt not_top_lt
    · simp only [meet, hm] at htop ⊢
      simp [hr.hiStrict_of_top htop]

/-! ### Inhabitants -/

/-- Between two extended reals there is a real number besides any finite number of
exceptions. -/
theorem exists_real_between {a b : EReal} (h : a < b) (excluded : List R) :
    ∃ c : ℝ, a < c ∧ (c : EReal) < b ∧ ∀ e ∈ excluded, (c : EReal) ≠ ρ.lit e := by
  obtain ⟨l, hal, hlb⟩ := EReal.lt_iff_exists_real_btwn.mp h
  obtain ⟨u, hlu, hub⟩ := EReal.lt_iff_exists_real_btwn.mp hlb
  have hlu' : l < u := EReal.coe_lt_coe_iff.mp hlu
  have hfinite : {c : ℝ | c ∈ excluded.map fun e => (ρ.lit e).toReal}.Finite :=
    List.finite_toSet _
  obtain ⟨c, ⟨hlc, hcu⟩, hc⟩ := ((Set.Ioo_infinite hlu').sdiff hfinite).nonempty
  refine ⟨c, hal.trans (EReal.coe_lt_coe_iff.mpr hlc),
    (EReal.coe_lt_coe_iff.mpr hcu).trans hub, ?_⟩
  intro e he heq
  refine hc (List.mem_map.mpr ⟨e, he, ?_⟩)
  rw [← heq, EReal.toReal_coe]

/-- A proper range covers a real number that is none of the exceptions, unless it is a
point. -/
theorem exists_covered {r : Range R} (hr : r.Proper ρ) (excluded : List R)
    (hpoint : ρ.lit r.lo = ρ.lit r.hi → ∀ e ∈ excluded, ρ.lit e ≠ ρ.lit r.lo) :
    ∃ c : ℝ, r.Covers ρ c ∧ ∀ e ∈ excluded, (c : EReal) ≠ ρ.lit e := by
  rcases hr.nonempty with hlt | ⟨heq, hlo, hhi⟩
  · obtain ⟨c, hlc, hcu, hne⟩ := exists_real_between ρ hlt excluded
    refine ⟨c, ⟨?_, ?_⟩, hne⟩
    · split
      · exact hlc
      · exact hlc.le
    · split
      · exact hcu
      · exact hcu.le
  · -- An infinite end would be strict.
    have hbot : ρ.lit r.lo ≠ ⊥ := fun h => by simp [hr.loStrict_of_bot h] at hlo
    have htop : ρ.lit r.lo ≠ ⊤ := fun h => by simp [hr.hiStrict_of_top (heq ▸ h)] at hhi
    have hreal : ((ρ.lit r.lo).toReal : EReal) = ρ.lit r.lo := EReal.coe_toReal htop hbot
    refine ⟨(ρ.lit r.lo).toReal, ?_, fun e he => ?_⟩
    · simp only [Covers, hlo, hhi, hreal, Bool.false_eq_true, if_false]
      exact ⟨le_rfl, heq.le⟩
    · rw [hreal]
      exact (hpoint heq e he).symm

end Range
end SignalFlow
