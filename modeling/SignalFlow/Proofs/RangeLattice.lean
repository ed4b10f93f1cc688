import Mathlib.Order.Interval.Set.OrdConnected
import SignalFlow.Proofs.Binary64Sign
import SignalFlow.Proofs.RangeArithmetic

/-!
# Hulls and common values as operations on sets

A range stands for the set of the real numbers in it.  An intersection stands for the
common part of two such sets, with no range at all for the empty set, and a hull for the
least range around both.

A value lies above the lower end of a hull if it lies above one of the two lower ends, and
likewise for the upper ends (`mem_reals_hull`).  All laws of hulls are read off from that;
only that the hull is the least range asks for ranges with a number in them.

**Results.**
* `reals_intersect?`, `mem_reals_hull`: what the operations contain.
* `exists_between_of_mem_hull`: a number in the hull lies between numbers of the two
  ranges.
* `hull_intersect_laws`: the laws of both operations.
-/

namespace SignalFlow
namespace Range

namespace Under

variable {strict strict' : Bool} {x y z : EReal}

theorem trans_le (h : Under strict x y) (hle : y ≤ z) : Under strict x z := by
  cases strict with
  | false => exact le_trans (α := EReal) h hle
  | true => exact lt_of_lt_of_le (a := x) h hle

theorem of_le (hle : x ≤ y) (h : Under strict y z) : Under strict x z := by
  cases strict with
  | false => exact le_trans (α := EReal) hle h
  | true => exact lt_of_le_of_lt (b := y) hle h

/-- Of two ends with the same value the less strict one decides. -/
theorem and_iff : Under (strict && strict') x y ↔
      Under strict x y ∨ Under strict' x y := by
  constructor
  · intro h
    cases strict with
    | true => exact Or.inr (by simpa using h)
    | false => exact Or.inl h.le
  · rintro (h | h)
    · exact h.and_left
    · rw [Bool.and_comm]
      exact h.and_left

end Under

variable {R : Type} [Scalar R]

/-- The real numbers in a range; there are none if an end is undefined. -/
def reals (ρ : ExtendedReading R) (r : Range R) : Set ℝ :=
  {v | r.Encloses ρ v}

/-- The real numbers in the range, if there is one. -/
def realsOf (ρ : ExtendedReading R) : Option (Range R) → Set ℝ
  | some r => r.reals ρ
  | none => ∅

variable {ρ : ExtendedReading R} {r s t : Range R}

theorem mem_reals_iff (hr : r.DefinedEnds) {v : ℝ} : v ∈ r.reals ρ ↔ r.Covers ρ v :=
  ⟨Encloses.covers, Encloses.of_covers hr⟩

/-- A scalar is found in the range if its value is. -/
theorem contains_iff_mem_reals (hr : r.DefinedEnds) {a : R} (ha : Scalar.Defined a) {v : ℝ}
    (hv : ρ.lit a = v) : r.contains a = true ↔ v ∈ r.reals ρ := by
  rw [contains_iff_covers ρ hr ha, hv, mem_reals_iff hr]

/-- A range has no gaps. -/
theorem ordConnected_reals (ρ : ExtendedReading R) (r : Range R) :
    (r.reals ρ).OrdConnected := by
  refine ⟨fun x hx y hy z hz => ⟨Encloses.defined hx, ?_, ?_⟩⟩
  · exact (Encloses.lower hx).trans_le (EReal.coe_le_coe_iff.mpr hz.1)
  · exact Under.of_le (EReal.coe_le_coe_iff.mpr hz.2) (Encloses.upper hy)

/-! ### Common values -/

/-- An intersection contains what both ranges contain. -/
theorem reals_intersect? (hr : r.DefinedEnds) (hs : s.DefinedEnds) :
    realsOf ρ (r.intersect? s) = r.reals ρ ∩ s.reals ρ := by
  have hmeet := definedEnds_meet ρ hr hs
  rw [intersect?_eq]
  split
  · next hempty =>
      refine (Set.eq_empty_of_forall_notMem fun v hv => ?_).symm
      have hcovers := (covers_meet ρ hr hs v).mpr ⟨hv.1.covers, hv.2.covers⟩
      exact not_covers_of_isEmpty ρ hmeet hempty v hcovers
  · ext v
    change v ∈ (meet r s).reals ρ ↔ v ∈ r.reals ρ ∧ v ∈ s.reals ρ
    rw [mem_reals_iff hmeet, mem_reals_iff hr, mem_reals_iff hs, covers_meet ρ hr hs]

include ρ in
theorem definedEnds_of_intersect? (hr : r.DefinedEnds) (hs : s.DefinedEnds)
    (h : r.intersect? s = some t) : t.DefinedEnds := by
  rw [intersect?_eq] at h
  split at h
  · cases h
  · cases h
    exact definedEnds_meet ρ hr hs

/-- A third range on the right. -/
theorem reals_intersect?_bind (hr : r.DefinedEnds) (hs : s.DefinedEnds)
    (ht : t.DefinedEnds) :
    realsOf ρ ((r.intersect? s).bind fun m => m.intersect? t) = r.reals ρ ∩ s.reals ρ ∩
      t.reals ρ := by
  rw [← reals_intersect? hr hs]
  cases h : r.intersect? s with
  | none => exact (Set.empty_inter _).symm
  | some m => exact reals_intersect? (definedEnds_of_intersect? (ρ := ρ) hr hs h) ht

/-- A third range on the left. -/
theorem reals_bind_intersect? (hr : r.DefinedEnds) (hs : s.DefinedEnds)
    (ht : t.DefinedEnds) :
    realsOf ρ ((s.intersect? t).bind fun m => r.intersect? m) = r.reals ρ ∩
      (s.reals ρ ∩ t.reals ρ) := by
  rw [← reals_intersect? hs ht]
  cases h : s.intersect? t with
  | none => exact (Set.inter_empty _).symm
  | some m => exact reals_intersect? hr (definedEnds_of_intersect? (ρ := ρ) hs ht h)

/-! ### Hulls -/

theorem under_lowerHull (hr : r.DefinedEnds) (hs : s.DefinedEnds) (y : EReal) :
    Under (r.hull s).loStrict (ρ.lit (r.hull s).lo) y ↔
      Under r.loStrict (ρ.lit r.lo) y ∨ Under s.loStrict (ρ.lit s.lo) y := by
  rw [Encloses.hull_eq]
  dsimp only
  rcases Encloses.lowerHull_cases ρ hr hs with
    ⟨hlt, heq⟩ | ⟨hlt, heq⟩ | ⟨hlit, heq⟩ <;> rw [heq]
  · exact ⟨Or.inl, fun h => h.elim id fun h => Under.of_lt (lt_of_lt_of_le hlt h.le)⟩
  · exact ⟨Or.inr, fun h => h.elim (fun h => Under.of_lt (lt_of_lt_of_le hlt h.le)) id⟩
  · rw [← hlit]
    exact Under.and_iff

theorem under_upperHull (hr : r.DefinedEnds) (hs : s.DefinedEnds) (y : EReal) :
    Under (r.hull s).hiStrict y (ρ.lit (r.hull s).hi) ↔
      Under r.hiStrict y (ρ.lit r.hi) ∨ Under s.hiStrict y (ρ.lit s.hi) := by
  rw [Encloses.hull_eq]
  dsimp only
  rcases Encloses.upperHull_cases ρ hr hs with
    ⟨hlt, heq⟩ | ⟨hlt, heq⟩ | ⟨hlit, heq⟩ <;> rw [heq]
  · exact ⟨Or.inl, fun h => h.elim id fun h => Under.of_lt (lt_of_le_of_lt h.le hlt)⟩
  · exact ⟨Or.inr, fun h => h.elim (fun h => Under.of_lt (lt_of_le_of_lt h.le hlt)) id⟩
  · rw [← hlit]
    exact Under.and_iff

/-- A number lies in the hull if it is above one of the lower ends and below one of the
upper ends. -/
theorem mem_reals_hull (hr : r.DefinedEnds) (hs : s.DefinedEnds) {v : ℝ} :
    v ∈ (r.hull s).reals ρ ↔
      (Under r.loStrict (ρ.lit r.lo) v ∨ Under s.loStrict (ρ.lit s.lo) v) ∧
        (Under r.hiStrict v (ρ.lit r.hi) ∨ Under s.hiStrict v (ρ.lit s.hi)) := by
  rw [← under_lowerHull hr hs, ← under_upperHull hr hs]
  exact ⟨fun h => ⟨Encloses.lower h, Encloses.upper h⟩, fun h =>
    ⟨Encloses.definedEnds_hull ρ hr hs, h.1, h.2⟩⟩

theorem reals_hull_comm (hr : r.DefinedEnds) (hs : s.DefinedEnds) :
    (r.hull s).reals ρ = (s.hull r).reals ρ := by
  ext v
  rw [mem_reals_hull hr hs, mem_reals_hull hs hr, or_comm,
    or_comm (a := Under r.hiStrict _ _)]

theorem reals_hull_assoc (hr : r.DefinedEnds) (hs : s.DefinedEnds) (ht : t.DefinedEnds) :
    ((r.hull s).hull t).reals ρ = (r.hull (s.hull t)).reals ρ := by
  ext v
  rw [mem_reals_hull (Encloses.definedEnds_hull ρ hr hs) ht,
    mem_reals_hull hr (Encloses.definedEnds_hull ρ hs ht), under_lowerHull hr hs,
    under_lowerHull hs ht, under_upperHull hr hs, under_upperHull hs ht,
    or_assoc, or_assoc]

theorem reals_hull_self (hr : r.DefinedEnds) : (r.hull r).reals ρ = r.reals ρ := by
  ext v
  rw [mem_reals_hull hr hr, or_self, or_self]
  exact ⟨fun h => ⟨hr, h.1, h.2⟩, fun h => ⟨Encloses.lower h, Encloses.upper h⟩⟩

/-- Above the lower end of a range there is a number of the range that is not greater. -/
theorem exists_mem_le (hr : (r.reals ρ).Nonempty) {v : ℝ}
    (h : Under r.loStrict (ρ.lit r.lo) v) : ∃ u ∈ r.reals ρ, u ≤ v := by
  obtain ⟨w, hw⟩ := hr
  rcases le_total w v with hle | hle
  · exact ⟨w, hw, hle⟩
  · have hupper : Under r.hiStrict v (ρ.lit r.hi) :=
      Under.of_le (EReal.coe_le_coe_iff.mpr hle) (Encloses.upper hw)
    exact ⟨v, ⟨Encloses.defined hw, h, hupper⟩, le_rfl⟩

/-- Below the upper end of a range there is a number of the range that is not less. -/
theorem exists_mem_ge (hr : (r.reals ρ).Nonempty) {v : ℝ}
    (h : Under r.hiStrict v (ρ.lit r.hi)) : ∃ w ∈ r.reals ρ, v ≤ w := by
  obtain ⟨u, hu⟩ := hr
  rcases le_total v u with hle | hle
  · exact ⟨u, hu, hle⟩
  · have hlower : Under r.loStrict (ρ.lit r.lo) v :=
      (Encloses.lower hu).trans_le (EReal.coe_le_coe_iff.mpr hle)
    exact ⟨v, ⟨Encloses.defined hu, hlower, h⟩, le_rfl⟩

/-- A number in the hull of two ranges with numbers in them lies between two of these. -/
theorem exists_between_of_mem_hull (hr : r.DefinedEnds) (hs : s.DefinedEnds)
    (hrne : (r.reals ρ).Nonempty) (hsne : (s.reals ρ).Nonempty) {v : ℝ}
    (hv : v ∈ (r.hull s).reals ρ) :
    ∃ u ∈ r.reals ρ ∪ s.reals ρ, ∃ w ∈ r.reals ρ ∪ s.reals ρ, u ≤ v ∧ v ≤ w := by
  obtain ⟨hlower, hupper⟩ := (mem_reals_hull hr hs).mp hv
  have hbelow : ∃ u ∈ r.reals ρ ∪ s.reals ρ, u ≤ v := by
    rcases hlower with hlower | hlower
    · obtain ⟨u, hu, hle⟩ := exists_mem_le hrne hlower
      exact ⟨u, Or.inl hu, hle⟩
    · obtain ⟨u, hu, hle⟩ := exists_mem_le hsne hlower
      exact ⟨u, Or.inr hu, hle⟩
  have habove : ∃ w ∈ r.reals ρ ∪ s.reals ρ, v ≤ w := by
    rcases hupper with hupper | hupper
    · obtain ⟨w, hw, hle⟩ := exists_mem_ge hrne hupper
      exact ⟨w, Or.inl hw, hle⟩
    · obtain ⟨w, hw, hle⟩ := exists_mem_ge hsne hupper
      exact ⟨w, Or.inr hw, hle⟩
  obtain ⟨u, hu, huv⟩ := hbelow
  obtain ⟨w, hw, hvw⟩ := habove
  exact ⟨u, hu, w, hw, huv, hvw⟩

/-- Every range around two ranges with numbers in them contains their hull. -/
theorem reals_hull_subset (hr : r.DefinedEnds) (hs : s.DefinedEnds)
    (hrne : (r.reals ρ).Nonempty) (hsne : (s.reals ρ).Nonempty)
    (hrt : r.reals ρ ⊆ t.reals ρ) (hst : s.reals ρ ⊆ t.reals ρ) :
    (r.hull s).reals ρ ⊆ t.reals ρ := by
  intro v hv
  obtain ⟨u, hu, w, hw, huv, hvw⟩ := exists_between_of_mem_hull hr hs hrne hsne hv
  have hunion : r.reals ρ ∪ s.reals ρ ⊆ t.reals ρ := Set.union_subset hrt hst
  exact (ordConnected_reals ρ t).out (hunion hu) (hunion hw) ⟨huv, hvw⟩

/-- On sets of real numbers an intersection is the common part, and a hull the least range
around both; both operations are commutative, associative and idempotent. -/
theorem hull_intersect_laws (ρ : ExtendedReading R) {a b c : Range R} (ha : a.DefinedEnds)
    (hb : b.DefinedEnds) (hc : c.DefinedEnds) :
    (∀ x : R, Scalar.Defined x → ∀ v : ℝ, ρ.lit x = v →
      (a.contains x = true ↔ v ∈ a.reals ρ)) ∧
    (∀ m, a.intersect? b = some m → ∀ v, v ∈ m.reals ρ ↔ v ∈ a.reals ρ ∧ v ∈ b.reals ρ) ∧
    (a.intersect? b = none → ∀ v, ¬(v ∈ a.reals ρ ∧ v ∈ b.reals ρ)) ∧
    (∀ v, v ∈ a.reals ρ ∨ v ∈ b.reals ρ → v ∈ (a.hull b).reals ρ) ∧
    ((a.reals ρ).Nonempty → (b.reals ρ).Nonempty →
      ∀ t : Range R, a.reals ρ ⊆ t.reals ρ → b.reals ρ ⊆ t.reals ρ →
        (a.hull b).reals ρ ⊆ t.reals ρ) ∧
    realsOf ρ (a.intersect? b) = realsOf ρ (b.intersect? a) ∧
    realsOf ρ ((a.intersect? b).bind fun m => m.intersect? c) =
      realsOf ρ ((b.intersect? c).bind fun m => a.intersect? m) ∧
    realsOf ρ (a.intersect? a) = a.reals ρ ∧
    (a.hull b).reals ρ = (b.hull a).reals ρ ∧
    ((a.hull b).hull c).reals ρ = (a.hull (b.hull c)).reals ρ ∧
    (a.hull a).reals ρ = a.reals ρ := by
  have hcommon := reals_intersect? (ρ := ρ) ha hb
  refine ⟨fun x hx v hv => contains_iff_mem_reals ha hx hv, fun m hm v =>
    ?_, fun hnone v hv => ?_, ?_,
    fun hane hbne t => reals_hull_subset ha hb hane hbne, ?_, ?_, ?_,
      reals_hull_comm ha hb,
    reals_hull_assoc ha hb hc, reals_hull_self ha⟩
  · rw [hm] at hcommon
    exact Set.ext_iff.mp hcommon v
  · rw [hnone] at hcommon
    exact (Set.ext_iff.mp hcommon v).mpr hv
  · rintro v (hv | hv)
    · exact hv.hull_left hb
    · exact hv.hull_right ha
  · rw [hcommon, reals_intersect? hb ha, Set.inter_comm]
  · rw [reals_intersect?_bind ha hb hc, reals_bind_intersect? ha hb hc, Set.inter_assoc]
  · rw [reals_intersect? ha ha, Set.inter_self]

/-- From minus two up to the positive zero, which is left out. -/
def beforeZero : Range Float :=
  ⟨-2, 0, false, true⟩

/-- From the negative zero on, which is left out. -/
def afterZero : Range Float :=
  ⟨-0, Scalar.infinity, true, true⟩

/-- The numbers on both sides of zero have nothing in common, and every range around them
contains zero. -/
theorem hull_intersect_laws_sides :
    (beforeZero.DefinedEnds ∧ afterZero.DefinedEnds) ∧
      beforeZero.intersect? afterZero = none ∧
    (∀ v, ¬(v ∈ beforeZero.reals (Binary64.extendedReading fun _ _ => 0) ∧
      v ∈ afterZero.reals (Binary64.extendedReading fun _ _ => 0))) ∧
    ∀ t : Range Float, beforeZero.reals (Binary64.extendedReading fun _ _ => 0) ⊆
        t.reals (Binary64.extendedReading fun _ _ => 0) →
      afterZero.reals (Binary64.extendedReading fun _ _ => 0) ⊆
        t.reals (Binary64.extendedReading fun _ _ => 0) →
      (0 : ℝ) ∈ t.reals (Binary64.extendedReading fun _ _ => 0) := by
  let ρ : ExtendedReading Float := Binary64.extendedReading fun _ _ => 0
  have htwo : ρ.lit (-2) = ((-2 : ℝ) : EReal) := Binary64.extendedValue_neg_two
  have hneg : ((-2 : ℝ) : EReal) < 0 := EReal.coe_neg'.mpr (by norm_num)
  have hbefore : beforeZero.DefinedEnds := ⟨by decide, by decide⟩
  have hafter : afterZero.DefinedEnds := ⟨by decide, by decide⟩
  have hnone : beforeZero.intersect? afterZero = none := by decide
  have hminus : (-2 : ℝ) ∈ beforeZero.reals ρ := ⟨hbefore, htwo.le, hneg⟩
  have hone : (1 : ℝ) ∈ afterZero.reals ρ :=
    ⟨hafter, EReal.coe_pos.mpr one_pos, EReal.coe_lt_top 1⟩
  have hzero : (0 : ℝ) ∈ (beforeZero.hull afterZero).reals ρ :=
    (mem_reals_hull hbefore hafter).mpr ⟨Or.inl (htwo.trans_lt hneg).le,
      Or.inr (EReal.coe_lt_top 0)⟩
  obtain ⟨-, -, hdisjoint, -, hleast, -⟩ := hull_intersect_laws ρ hbefore hafter hafter
  exact ⟨⟨hbefore, hafter⟩, hnone, hdisjoint hnone, fun t hbt hat =>
    hleast ⟨-2, hminus⟩ ⟨1, hone⟩ t hbt hat hzero⟩

end Range
end SignalFlow
