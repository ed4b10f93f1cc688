import SignalFlow.Proofs.Binary64Sign
import SignalFlow.Proofs.ConstantBounds
import SignalFlow.Proofs.GuardPartition

/-!
# Absolute values

The absolute values of a range that has zero inside reach from zero to the farther of its
ends, and that end decides whether the last of them belongs to the result.  Where the ends
are opposite the upper one decides, though the value may be reached at the lower one only.
So the absolute value of the lower end is lost if the lower end belongs to the range and
the upper one does not, and nothing else ever is.

A fact is transferred through a block that yields the absolute value by mapping its ranges,
and is false of the output in that case only.  Scalars are negated without rounding, so
nothing is asked of their other arithmetic.

**Results.**
* `Range.covers_abs_iff`, `Range.contains_abs_iff`: the values whose absolute value is
  kept.
* `Fact.allows_mapRanges?_iff`: what a fact with mapped ranges allows.
* `TransferRule.abs_true_iff`: which transferred facts are true of what the encoding
  defines.
-/

namespace SignalFlow

variable {R : Type} [Scalar R] {ρ : ExtendedReading R}

namespace Range

/-- The value is the lower of two opposite ends, and only this one belongs to the range. -/
structure LopsidedAt (ρ : ExtendedReading R) (r : Range R) (x : EReal) : Prop where
  lo_eq : ρ.lit r.lo = x
  hi_eq : ρ.lit r.hi = -x
  loStrict : r.loStrict = false
  hiStrict : r.hiStrict = true

/-- A range that reaches below zero and above it. -/
theorem abs_of_straddles {r : Range R} (hr : r.DefinedEnds) (hlo : ρ.lit r.lo < 0)
    (hhi : 0 < ρ.lit r.hi) :
    r.abs = ⟨0, Scalar.greater (-r.lo) r.hi, false, if r.hi < -r.lo then r.loStrict
      else r.hiStrict⟩ := by
  have hlower : ¬(0 : R) ≤ r.lo := by
    rw [ρ.le_iff ρ.defined_zero hr.1, ρ.lit_zero]
    exact not_le.mpr hlo
  have hupper : ¬r.hi ≤ (0 : R) := by
    rw [ρ.le_iff hr.2 ρ.defined_zero, ρ.lit_zero]
    exact not_le.mpr hhi
  rw [abs, if_neg hlower, if_neg hupper]

/-- The farther end bounds the absolute values; of opposite ends the upper one does. -/
theorem covers_abs_of_straddles (hρ : ρ.Negates) {r : Range R} (hr : r.DefinedEnds)
    (hlo : ρ.lit r.lo < 0) (hhi : 0 < ρ.lit r.hi) (y : EReal) :
    r.abs.Covers ρ y ↔ 0 ≤ y ∧ if ρ.lit r.hi < -ρ.lit r.lo then
      Under r.loStrict y (-ρ.lit r.lo)
      else Under r.hiStrict y (ρ.lit r.hi) := by
  have hdefined := hρ.defined hr.1
  have hlit := (ρ.lit_greater hdefined hr.2).2
  have hcompare : r.hi < -r.lo ↔ ρ.lit r.hi < -ρ.lit r.lo := by
    rw [ρ.lt_iff hr.2 hdefined, hρ.lit_neg hr.1]
  have hcovers : r.abs.Covers ρ y ↔ ρ.lit (0 : R) ≤ y ∧
      Under (if r.hi < -r.lo then r.loStrict else r.hiStrict) y
      (ρ.lit (Scalar.greater (-r.lo) r.hi)) := by
    rw [abs_of_straddles hr hlo hhi]
    rfl
  rw [hcovers, ρ.lit_zero, hlit, hρ.lit_neg hr.1]
  by_cases hlt : ρ.lit r.hi < -ρ.lit r.lo
  · rw [if_pos (hcompare.mpr hlt), if_pos hlt, max_eq_left hlt.le]
  · rw [if_neg (mt hcompare.mp hlt), if_neg hlt, max_eq_right (not_lt.mp hlt)]

/-- At a lopsided range the value is negative, and the range reaches to both sides of
zero. -/
theorem LopsidedAt.straddles {r : Range R} {x : EReal} (h : r.LopsidedAt ρ x)
    (hx : r.Covers ρ x) : x < 0 ∧ ρ.lit r.lo < 0 ∧ 0 < ρ.lit r.hi := by
  have hupper : Under r.hiStrict x (ρ.lit r.hi) := hx.2
  rw [h.hiStrict, h.hi_eq] at hupper
  have hneg : x < 0 := by
    by_contra hge
    have hnonneg : 0 ≤ x := not_lt.mp hge
    exact absurd (lt_of_lt_of_le hupper (EReal.neg_le_zero.mpr hnonneg))
      (not_lt.mpr hnonneg)
  exact ⟨hneg, h.lo_eq ▸ hneg, h.hi_eq ▸ EReal.neg_pos.mpr hneg⟩

/-- An upper end that is not nearer than the lower one bounds the absolute value, unless
the range is lopsided. -/
theorem under_upper_iff {r : Range R} {x : EReal} (hx : r.Covers ρ x)
    (hfarther : -ρ.lit r.lo ≤ ρ.lit r.hi) :
    Under r.hiStrict (max x (-x)) (ρ.lit r.hi) ↔ ¬r.LopsidedAt ρ x := by
  have hends : Under r.loStrict (ρ.lit r.lo) x ∧ Under r.hiStrict x (ρ.lit r.hi) := hx
  obtain ⟨hlower, hupper⟩ := hends
  rcases le_or_gt 0 x with hnonneg | hneg
  · rw [max_eq_left ((EReal.neg_le_zero.mpr hnonneg).trans hnonneg)]
    exact iff_of_true hupper fun h => absurd (h.straddles hx).1 (not_lt.mpr hnonneg)
  · rw [max_eq_right (hneg.le.trans (EReal.neg_nonneg.mpr hneg.le))]
    constructor
    · intro hunder hlopsided
      rw [hlopsided.hiStrict, hlopsided.hi_eq] at hunder
      exact lt_irrefl (-x) hunder
    · intro hnot
      have hreach : -x ≤ -ρ.lit r.lo := EReal.neg_le_neg_iff.mpr hlower.le
      rcases (hreach.trans hfarther).lt_or_eq with hlt | heq
      · exact Under.of_lt hlt
      -- The value is the lower end, which therefore belongs to the range, and so must the
      -- upper one.
      · have hlo : ρ.lit r.lo = x := by
          rw [← neg_inj]
          exact le_antisymm (hfarther.trans heq.ge) hreach
        have hloStrict : r.loStrict = false := by
          cases hstrict : r.loStrict with
          | false => rfl
          | true =>
              rw [hstrict, hlo] at hlower
              exact absurd hlower (lt_irrefl x)
        have hhiStrict : r.hiStrict = false := by
          rw [← Bool.not_eq_true]
          exact fun hstrict => hnot ⟨hlo, heq.symm, hloStrict, hstrict⟩
        rw [hhiStrict]
        exact heq.le

/-- The absolute value of a value in the range is kept unless the range is lopsided
there. -/
theorem covers_abs_iff (hρ : ρ.Negates) {r : Range R} (hr : r.DefinedEnds) {x : EReal}
    (hx : r.Covers ρ x) : r.abs.Covers ρ (max x (-x)) ↔ ¬r.LopsidedAt ρ x := by
  have hends : Under r.loStrict (ρ.lit r.lo) x ∧ Under r.hiStrict x (ρ.lit r.hi) := hx
  obtain ⟨hlower, hupper⟩ := hends
  rcases le_or_gt 0 (ρ.lit r.lo) with hlo | hlo
  · have habs : r.abs = r :=
      if_pos ((ρ.le_iff ρ.defined_zero hr.1).mpr (ρ.lit_zero.trans_le hlo))
    have hnonneg : 0 ≤ x := hlo.trans hlower.le
    rw [habs, max_eq_left ((EReal.neg_le_zero.mpr hnonneg).trans hnonneg)]
    exact iff_of_true hx fun h => absurd (h.straddles hx).2.1 (not_lt.mpr hlo)
  · rcases le_or_gt (ρ.lit r.hi) 0 with hhi | hhi
    · have habs : r.abs = r.neg := by
        have hlower : ¬(0 : R) ≤ r.lo := by
          rw [ρ.le_iff ρ.defined_zero hr.1, ρ.lit_zero]
          exact not_le.mpr hlo
        rw [abs, if_neg hlower,
          if_pos ((ρ.le_iff hr.2 ρ.defined_zero).mpr (hhi.trans_eq ρ.lit_zero.symm))]
      have hnonpos : x ≤ 0 := hupper.le.trans hhi
      have hcovers : r.neg.Covers ρ (-x) := by
        show Under r.hiStrict (ρ.lit (-r.hi)) (-x) ∧ Under r.loStrict (-x) (ρ.lit (-r.lo))
        rw [hρ.lit_neg hr.1, hρ.lit_neg hr.2]
        exact ⟨hupper.neg, hlower.neg⟩
      rw [habs, max_eq_right (hnonpos.trans (EReal.neg_nonneg.mpr hnonpos))]
      exact iff_of_true hcovers fun h => absurd (h.straddles hx).2.2 (not_lt.mpr hhi)
    · have hnonneg : 0 ≤ max x (-x) := by
        rcases le_total 0 x with h | h
        · exact h.trans (le_max_left _ _)
        · exact (EReal.neg_nonneg.mpr h).trans (le_max_right _ _)
      rw [covers_abs_of_straddles hρ hr hlo hhi, and_iff_right hnonneg]
      split
      · next hlt =>
          have hunder : Under r.loStrict (max x (-x)) (-ρ.lit r.lo) := by
            rcases max_choice x (-x) with h | h <;> rw [h]
            · exact Under.of_lt (lt_of_le_of_lt hupper.le hlt)
            · exact hlower.neg
          refine iff_of_true hunder fun h => ?_
          rw [h.lo_eq, h.hi_eq] at hlt
          exact lt_irrefl (-x) hlt
      · next hnot => exact under_upper_iff hx (not_lt.mp hnot)

theorem definedEnds_abs (hρ : ρ.Negates) {r : Range R} (hr : r.DefinedEnds) :
    r.abs.DefinedEnds := by
  unfold abs
  split
  · exact hr
  · split
    · exact ⟨hρ.defined hr.2, hρ.defined hr.1⟩
    · exact ⟨ρ.defined_zero, (ρ.lit_greater (hρ.defined hr.1) hr.2).1⟩

/-- The same among scalars: the absolute value of a scalar is the greater of it and its
negation. -/
theorem contains_abs_iff (hρ : ρ.Negates) {r : Range R} (hr : r.DefinedEnds) {a : R}
    (ha : Scalar.Defined a) (h : r.contains a = true) :
    r.abs.contains (Scalar.greater a (-a)) = true ↔ ¬r.LopsidedAt ρ (ρ.lit a) := by
  obtain ⟨hdefined, hlit⟩ := ρ.lit_greater ha (hρ.defined ha)
  rw [contains_iff_covers ρ hr ha] at h
  rw [contains_iff_covers ρ (definedEnds_abs hρ hr) hdefined, hlit, hρ.lit_neg ha]
  exact covers_abs_iff hρ hr h

/-- The interval of a range keeps a finite upper end. -/
theorem under_of_allows_toInterval {r : Range R} (hfinite : Scalar.isFinite r.hi = true)
    {t : Term R} {v : Valuation ℝ} {y : EReal}
    (h : (Constraint.interval (r.toInterval t)).Allows ρ v y) :
    Under r.hiStrict y (ρ.lit r.hi) := by
  have hupper := h.2 ⟨.num r.hi, r.hiStrict⟩ (by simp [toInterval, hfinite])
  rwa [Term.extended_num] at hupper

/-- The interval of the absolute values of a range that is lopsided at a number excludes
its absolute value. -/
theorem LopsidedAt.not_allows (hρ : ρ.Negates) {r : Range R} (hr : r.DefinedEnds) {x : ℝ}
    (h : r.LopsidedAt ρ x) (hx : r.Covers ρ x) (t : Term R) (v : Valuation ℝ) :
    ¬(Constraint.interval (r.abs.toInterval t)).Allows ρ v (|x| : ℝ) := by
  obtain ⟨hneg, hlo, hhi⟩ := h.straddles hx
  have hlit : ρ.lit r.abs.hi = (|x| : ℝ) := by
    rw [abs_of_straddles hr hlo hhi, (ρ.lit_greater (hρ.defined hr.1) hr.2).2,
      hρ.lit_neg hr.1, h.lo_eq, h.hi_eq, max_self, abs_of_neg (EReal.coe_neg'.mp hneg),
      EReal.coe_neg]
  have hstrict : r.abs.hiStrict = true := by
    have hnot : ¬r.hi < -r.lo := by
      rw [ρ.lt_iff hr.2 (hρ.defined hr.1), hρ.lit_neg hr.1, h.lo_eq, h.hi_eq]
      exact lt_irrefl _
    rw [abs_of_straddles hr hlo hhi, if_neg hnot]
    exact h.hiStrict
  have hfinite : Scalar.isFinite r.abs.hi = true := by
    rw [ρ.isFinite_iff, hlit]
    exact ⟨(definedEnds_abs hρ hr).2, EReal.coe_ne_top _, EReal.coe_ne_bot _⟩
  intro hallows
  have hunder := under_of_allows_toInterval hfinite hallows
  rw [hstrict, hlit] at hunder
  exact lt_irrefl _ hunder

end Range

/-! ### Transferred facts -/

/-- A boundary with mapped ranges allows what the interval of an image allows. -/
theorem Boundary.allows_mapRanges?_iff {b b' : Boundary R} {t : Term R}
    {f : Range R → Range R} (h : b.mapRanges? t f = some b') (v : Valuation ℝ)
    (y : EReal) :
    b'.Allows ρ v y ↔ ∃ c ∈ b.items, ∃ r, c.range? = some r ∧
      (Constraint.interval ((f r).toInterval t)).Allows ρ v y := by
  obtain ⟨rs, hrs, rfl⟩ := Option.map_eq_some_iff.mp h
  refine (exists_distinct_iff fun _ _ h => Constraint.allows_of_beq h).trans ?_
  simp only [List.mem_map, exists_exists_and_eq_and, mem_mapM_iff hrs]
  exact ⟨fun ⟨r, ⟨c, hc, hr⟩, hy⟩ => ⟨c, hc, r, hr, hy⟩, fun ⟨c, hc, r, hr, hy⟩ =>
    ⟨r, ⟨c, hc, hr⟩, hy⟩⟩

/-- A fact with mapped ranges allows what the interval of an image allows. -/
theorem Fact.allows_mapRanges?_iff {p q : Fact R} {t : Term R} {f : Range R → Range R}
    (h : p.mapRanges? t f = some q) (v : Valuation ℝ) (y : EReal) :
    q.Allows ρ v y ↔ ∃ c ∈ p.items, ∃ r, c.range? = some r ∧
      (Constraint.interval ((f r).toInterval t)).Allows ρ v y := by
  have hboundary : ∀ {b : Boundary R} {q : Fact R},
      (b.mapRanges? t f).map Fact.boundary = some q →
      (q.Allows ρ v y ↔ ∃ c ∈ b.items, ∃ r, c.range? = some r ∧
        (Constraint.interval ((f r).toInterval t)).Allows ρ v y) := by
    intro b q hb
    obtain ⟨b', hb', rfl⟩ := Option.map_eq_some_iff.mp hb
    exact Boundary.allows_mapRanges?_iff hb' v y
  cases p with
  | single c => exact hboundary h
  | boundary b => exact hboundary h
  | discrete bs =>
      obtain ⟨bs', hbs', rfl⟩ := Option.map_eq_some_iff.mp h
      refine (exists_distinct_iff fun _ _ h => Boundary.allows_of_beq h).trans ?_
      constructor
      · rintro ⟨b', hb', hy⟩
        obtain ⟨b, hb, hmap⟩ := (mem_mapM_iff hbs' b').mp hb'
        obtain ⟨c, hc, hallows⟩ := (Boundary.allows_mapRanges?_iff hmap v y).mp hy
        exact ⟨c, List.mem_flatMap.mpr ⟨b, hb, hc⟩, hallows⟩
      · rintro ⟨c, hc, hallows⟩
        obtain ⟨b, hb, hcb⟩ := List.mem_flatMap.mp hc
        obtain ⟨b', hb', hmap⟩ := exists_of_mapM hbs' hb
        exact ⟨b', hb', (Boundary.allows_mapRanges?_iff hmap v y).mpr ⟨c, hcb, hallows⟩⟩
  | control gs => cases h
  | data rs => cases h

/-- The fact allows the number by a constraint whose range is not lopsided there. -/
def Fact.AllowsEvenly (ρ : ExtendedReading R) (v : Valuation ℝ) (p : Fact R)
    (x : ℝ) : Prop :=
  ∃ c ∈ p.items, c.Allows ρ v x ∧ ∀ r, c.range? = some r → ¬r.LopsidedAt ρ x

/-- A signal fact allows what one of its constraints allows. -/
theorem Fact.allows_iff_exists_item {p : Fact R} (hsignal : p.category = .signal)
    {v : Valuation ℝ} {y : EReal} : p.Allows ρ v y ↔ ∃ c ∈ p.items, c.Allows ρ v y := by
  cases p with
  | single c => simp [Allows, items]
  | boundary b => exact Iff.rfl
  | discrete bs =>
      constructor
      · rintro ⟨b, hb, c, hc, hy⟩
        exact ⟨c, List.mem_flatMap.mpr ⟨b, hb, hc⟩, hy⟩
      · rintro ⟨c, hc, hy⟩
        obtain ⟨b, hb, hcb⟩ := List.mem_flatMap.mp hc
        exact ⟨b, hb, c, hcb, hy⟩
  | control gs => cases hsignal
  | data rs => cases hsignal

namespace Encoding

variable {σ : Reading R ℝ} {v : Valuation ℝ} {d : Diagram} {b : Block}

theorem eval_input_eq_operand (pin : Nat) :
    (input d b pin : Term R).eval σ v = operand v d b pin := by
  unfold input operand
  cases d.inputVar? b.id pin <;> simp

theorem extended_input (pin : Nat) :
    (input d b pin : Term R).extended ρ v = operand v d b pin := by
  unfold input operand
  cases d.inputVar? b.id pin <;> simp

/-- Where its encoding is satisfied, the output of a block is the absolute value of its
input. -/
theorem value_abs
    (h : ∀ e ∈ (ofBlock d b .abs : Encoding R).definitions, e.Satisfied σ v) :
    v (b.outputVar 0) = |operand v d b 0| := by
  have hcases := h _ (List.mem_singleton_self _)
  have hmem : |(input d b 0 : Term R).eval σ v| ∈ selected σ v _ :=
    selected_abs (eval_negate_input σ v d b 0) ▸ List.mem_singleton_self _
  obtain ⟨c, hc, hvalue⟩ := List.mem_map.mp hmem
  obtain ⟨hcase, hguard⟩ := List.mem_filter.mp hc
  rw [← eval_input_eq_operand (R := R) (σ := σ)]
  exact (hcases c hcase (of_decide_eq_true hguard)).trans hvalue

end Encoding

namespace TransferRule

/-- The absolute value of a value in a range is kept unless the range is lopsided there,
for values among the extended reals and for scalars.  A fact with constant bounds that is
true of the input of a block is transferred to a fact about the output; where the encoding
of the block is satisfied that fact is true, if the input is allowed by a constraint that
is not lopsided there.  For a fact that is a single constraint this is also necessary. -/
theorem abs_true_iff (hρ : ρ.Negates) (σ : Reading R ℝ) :
    (∀ (r : Range R) (x : EReal), r.DefinedEnds → r.Covers ρ x →
      (r.abs.Covers ρ (max x (-x)) ↔ ¬r.LopsidedAt ρ x)) ∧
    (∀ (r : Range R) (a : R), r.DefinedEnds → Scalar.Defined a → r.contains a = true →
      (r.abs.contains (Scalar.greater a (-a)) = true ↔ ¬r.LopsidedAt ρ (ρ.lit a))) ∧
    ∀ (d : Diagram) (s : Site R) (pin : Nat) (p : Fact R) (v : Valuation ℝ),
      p.category = .signal → p.Ranged → p.Legible ρ →
        p.About (Encoding.input d s.block 0) →
      p.toFormula.TrueAt ρ v →
      (∀ e ∈ (Encoding.ofBlock d s.block .abs : Encoding R).definitions, e.Satisfied σ v) →
      ∃ q, (ofKind .abs).advance s pin p = .propagate q ∧ q.About s.output ∧
        (p.AllowsEvenly ρ v (Encoding.operand v d s.block 0) → q.toFormula.TrueAt ρ v) ∧
        ∀ c, p.items = [c] → q.toFormula.TrueAt ρ v →
          p.AllowsEvenly ρ v (Encoding.operand v d s.block 0) := by
  refine ⟨fun r x hr hx => Range.covers_abs_iff hρ hr hx, fun r a hr ha h =>
    Range.contains_abs_iff hρ hr ha h, ?_⟩
  intro d s pin p v hsignal hranged hlegible habout htrue hencoding
  obtain ⟨q, hq⟩ := Fact.exists_mapRanges? hsignal hranged s.output Range.abs
  have hqabout := (Fact.about_mapRanges? hq).1
  have hoperand : p.Allows ρ v (Encoding.operand v d s.block 0) := by
    rwa [Fact.trueAt_iff_allows habout, Encoding.extended_input] at htrue
  have houtput : q.toFormula.TrueAt ρ v ↔
      q.Allows ρ v (|Encoding.operand v d s.block 0| : ℝ) := by
    rw [Fact.trueAt_iff_allows hqabout, ← Encoding.value_abs hencoding]
    exact Iff.rfl
  have hencloses : ∀ c ∈ p.items, ∀ r, c.range? = some r →
      c.Allows ρ v (Encoding.operand v d s.block 0) →
      r.Encloses ρ (Encoding.operand v d s.block 0) := fun c hc r hr =>
    ((hlegible c hc).encloses hr).2 v _
  refine ⟨q, ?_, hqabout, ?_, ?_⟩
  · show p.mapEffect s.output Range.abs = .propagate q
    rw [Fact.mapEffect, hq]
    rfl
  · rintro ⟨c, hc, hallows, heven⟩
    obtain ⟨r, hr⟩ := Option.isSome_iff_exists.mp (hranged c hc)
    have hencloses := hencloses c hc r hr hallows
    rw [houtput, Fact.allows_mapRanges?_iff hq]
    refine ⟨c, hc, r, hr, Range.allows_toInterval ?_ _⟩
    rw [abs_eq_max_neg, EReal.coe_strictMono.monotone.map_max, EReal.coe_neg]
    exact (Range.covers_abs_iff hρ hencloses.defined hencloses.covers).mpr (heven r hr)
  · intro c hitems hqtrue
    obtain ⟨c', hc', hallows⟩ := (Fact.allows_iff_exists_item hsignal).mp hoperand
    obtain rfl : c' = c := by simpa [hitems] using hc'
    refine ⟨c', hc', hallows, fun r hr hlopsided => ?_⟩
    have hencloses := hencloses c' hc' r hr hallows
    rw [houtput, Fact.allows_mapRanges?_iff hq] at hqtrue
    obtain ⟨c'', hc'', r', hr', hinterval⟩ := hqtrue
    obtain rfl : c'' = c' := by simpa [hitems] using hc''
    obtain rfl : r' = r := Option.some.inj (hr'.symm.trans hr)
    exact hlopsided.not_allows hρ hencloses.defined hencloses.covers _ v hinterval

/-- An absolute value of an input of the diagram. -/
def distance : Diagram where
  name := "distance"
  blocks := [⟨1, "A", "Inport", 0, 1, []⟩, ⟨2, "B", "Abs", 1, 1, []⟩]
  signals := [⟨1, ⟨1, 0⟩, ⟨2, 0⟩⟩]

/-- The input is at least minus two, and below two. -/
def distanceSite : Site Float where
  block := ⟨2, "B", "Abs", 1, 1, []⟩
  inlets := [⟨some "A_out", [.ofRange (.var "A_out") ⟨-2, 2, false, true⟩]⟩]

/-- The input is minus two. -/
def distanceValues : Valuation ℝ := fun x => Int.cast (if x = "A_out" then -2 else 2)

/-- The input may be minus two, but the output is said to be below two. -/
theorem abs_true_iff_distance :
    ∃ p q, distanceSite.inlets.flatMap Inlet.facts = [p] ∧
      (ofKind .abs).advance distanceSite 0 p = .propagate q ∧
      (∀ e ∈
        (Encoding.ofBlock distance distanceSite.block .abs : Encoding Float).definitions,
        e.Satisfied (Binary64.exactReading fun _ _ => 0) distanceValues) ∧
      p.toFormula.TrueAt (Binary64.extendedReading fun _ _ => 0) distanceValues ∧
      ¬q.toFormula.TrueAt (Binary64.extendedReading fun _ _ => 0) distanceValues := by
  let ρ : ExtendedReading Float := Binary64.extendedReading fun _ _ => 0
  let σ : Reading Float ℝ := Binary64.exactReading fun _ _ => 0
  let r : Range Float := ⟨-2, 2, false, true⟩
  have hρ : ρ.Negates := Binary64.extendedReading_negates _
  have htwo : ρ.lit 2 = ((2 : ℝ) : EReal) := Binary64.extendedValue_two
  have hminus : ρ.lit (-2) = ((-2 : ℝ) : EReal) := Binary64.extendedValue_neg_two
  have hlopsided : r.LopsidedAt ρ (-2 : ℝ) :=
    ⟨hminus, by rw [← EReal.coe_neg, neg_neg]; exact htwo, rfl, rfl⟩
  have hcovers : r.Covers ρ (-2 : ℝ) := by
    show ρ.lit (-2) ≤ (-2 : ℝ) ∧ ((-2 : ℝ) : EReal) < ρ.lit 2
    rw [hminus, htwo, EReal.coe_lt_coe_iff]
    exact ⟨le_rfl, by norm_num⟩
  have hinput : (Encoding.input distance distanceSite.block 0 : Term Float) =
    .var "A_out" := rfl
  have hoperand : Encoding.operand distanceValues distance distanceSite.block 0 = -2 := by
    show ((-2 : ℤ) : ℝ) = -2
    norm_num
  have hlegible : (Fact.ofRange (.var "A_out") r).Legible ρ := fun c hc t ht =>
    (r.isBound_toInterval _ t (List.mem_singleton.mp hc ▸ ht)).legible
  have habout : (Fact.ofRange (.var "A_out") r).About
      (Encoding.input distance distanceSite.block 0) :=
    Boundary.about_ofRange _ r
  have htrue : (Fact.ofRange (.var "A_out") r).toFormula.TrueAt ρ distanceValues := by
    rw [Fact.trueAt_iff_allows habout, Encoding.extended_input, hoperand]
    exact Boundary.allows_ofRange hcovers _
  have hencoding : ∀ e ∈
      (Encoding.ofBlock distance distanceSite.block .abs : Encoding Float).definitions,
      e.Satisfied σ distanceValues := by
    intro e he
    obtain rfl := List.mem_singleton.mp he
    have hguard : ¬(Formula.compare (.var "A_out") .ge (.num (0 : Float))).Holds σ
        distanceValues := by
      rw [Encoding.holds_compare_iff, Term.eval_num, σ.lit_zero, Term.eval_var]
      norm_num [Comparison.Compares, distanceValues]
    refine List.forall_mem_cons.mpr ⟨fun h =>
      absurd h hguard, List.forall_mem_singleton.mpr fun _ => ?_⟩
    show distanceValues "B_out" = (Term.neg (.var "A_out") : Term Float).eval σ
      distanceValues
    simp [distanceValues]
  have hrange : (Constraint.interval (r.toInterval (.var "A_out"))).range? = some r := by
    have hlo : Scalar.isFinite (-2 : Float) = true := by decide
    have hhi : Scalar.isFinite (2 : Float) = true := by decide
    simp [Constraint.range?, Interval.range?, Interval.endOf?, Range.toInterval,
      r, hlo, hhi]
  obtain ⟨_, _, htransfer⟩ := abs_true_iff hρ σ
  obtain ⟨q, hq, _, _, hnecessary⟩ :=
    htransfer distance distanceSite 0 _ distanceValues rfl
    (Fact.ranged_ofRange _ r) hlegible habout htrue hencoding
  refine ⟨_, q, rfl, hq, hencoding, htrue, fun hqtrue => ?_⟩
  obtain ⟨c, hc, _, heven⟩ := hnecessary _ rfl hqtrue
  obtain rfl := List.mem_singleton.mp hc
  exact heven r hrange (hoperand ▸ hlopsided)

end TransferRule

end SignalFlow
