import SignalFlow.Proofs.BlockMeaning
import SignalFlow.Proofs.FactMeaning
import SignalFlow.Transfer.Rule

/-!
# Transfer through blocks without state

Facts are transferred through a block as the block computes: if all facts at the inputs of
a site allow the numbers there, then the facts that its rule gives for the output allow the
number that the block computes from them.

A sum or product is transferred from one input, with the ranges of the others; an input
that nothing is known about leaves the full range.  A minimum or maximum has its ends among
those of its inputs: the least range above all lower ends, or below all upper ends, reaches
the value where one of the inputs does.

**Results.**
* `Transfer.describes_gain`, `describes_sum`, `describes_product`, `describes_saturation`,
  `describes_minMax`, `describes_switch`, `describes_selected`: one for each rule.
* `TransferRule.describes_advance`, `TransferRule.describes_generate`: rules describe what
  blocks compute.
-/

namespace SignalFlow

variable {R : Type} [Scalar R] {ρ : ExtendedReading R} {v : Valuation ℝ}

/-- The fact is about the term, with determinate bounds that allow the value. -/
structure Fact.Describes (ρ : ExtendedReading R) (v : Valuation ℝ) (t : Term R) (a : ℝ)
    (p : Fact R) : Prop where
  about : p.About t
  determinate : p.Determinate
  allows : p.Allows ρ v a

namespace Fact

theorem Describes.trueAt {p : Fact R} {t : Term R} {a : ℝ} (h : p.Describes ρ v t a)
    (ht : t.extended ρ v = a) : p.toFormula.TrueAt ρ v := by
  rw [trueAt_iff_allows h.about, ht]
  exact h.allows

omit [Scalar R] in
theorem items_retarget (t : Term R) (p : Fact R) :
    (p.retarget t).items = p.items.map (Constraint.retarget t) := by
  cases p with
  | single c => rfl
  | boundary b => rfl
  | discrete bs =>
      simp [retarget, items, List.flatMap_map, List.map_flatMap, Boundary.retarget]
  | control gs => rfl
  | data rs => rfl

theorem Determinate.retarget {p : Fact R} (h : p.Determinate) (t : Term R) :
    (p.retarget t).Determinate := by
  intro c hc
  rw [items_retarget] at hc
  obtain ⟨c', hc', rfl⟩ := List.mem_map.mp hc
  rw [Constraint.Determinate, Constraint.bounds_retarget]
  exact h c' hc'

theorem describes_retarget {p : Fact R} {a : ℝ} (hdet : p.Determinate)
    (ha : p.Allows ρ v a) (t : Term R) : (p.retarget t).Describes ρ v t a :=
  ⟨p.about_retarget t, hdet.retarget t, (p.allows_retarget t).mpr ha⟩

theorem describes_passThrough {p q : Fact R} {t : Term R} {a : ℝ} (hdet : p.Determinate)
    (ha : p.Allows ρ v a) (h : p.passThrough t = .propagate q) : q.Describes ρ v t a := by
  unfold passThrough at h
  split at h
  · cases h
  · cases h
    exact describes_retarget hdet ha t

theorem describes_mapRanges? (hρ : ρ.Exact) {p q : Fact R} {t : Term R}
    {f : Range R → Range R} {a y : ℝ} (hdet : p.Determinate) (ha : p.Allows ρ v a)
    (hf : ∀ r, r.Encloses ρ a → (f r).Encloses ρ y) (h : p.mapRanges? t f = some q)
    (v' : Valuation ℝ) : q.Describes ρ v' t y :=
  ⟨(about_mapRanges? h).1, (about_mapRanges? h).2,
    allows_mapRanges? (hdet.legible hρ) h ha (fun r hr => (hf r hr).covers) v'⟩

theorem describes_mapEffect (hρ : ρ.Exact) {p q : Fact R} {t : Term R}
    {f : Range R → Range R} {a y : ℝ} (hdet : p.Determinate) (ha : p.Allows ρ v a)
    (hf : ∀ r, r.Encloses ρ a → (f r).Encloses ρ y) (h : p.mapEffect t f = .propagate q) :
    q.Describes ρ v t y := by
  unfold mapEffect Effect.ofOption at h
  split at h
  · next q' hq' =>
      cases h
      exact describes_mapRanges? hρ hdet ha hf hq' v
  · cases h

theorem describes_ofRange {r : Range R} {a : ℝ} (h : r.Encloses ρ a) (t : Term R) :
    (ofRange t r).Describes ρ v t a :=
  ⟨Boundary.about_ofRange t r, Boundary.determinate_ofRange t r,
    Boundary.allows_ofRange h.covers t⟩

theorem describes_closed {lo hi : R} {a : ℝ} (h : (Range.closed lo hi).Covers ρ a)
    (t : Term R) : (single (.closed t lo hi)).Describes ρ v t a := by
  refine ⟨rfl, fun c hc => ?_, Range.allows_toInterval h t⟩
  obtain rfl := List.mem_singleton.mp hc
  exact Range.determinate_toInterval _ t

end Fact

/-- The number of inputs that a block reads. -/
def Block.arity (b : Block) : BlockKind → Nat
  | .gain => 1
  | .saturation => 1
  | .unitDelay => 1
  | .memory => 1
  | _ => max b.inputs 1

/-- Every fact at the site is at an input that the block reads, and allows the value
there. -/
structure Site.Admits (ρ : ExtendedReading R) (v : Valuation ℝ) (s : Site R)
    (k : BlockKind) (u : Nat → ℝ) : Prop where
  length_le : s.inlets.length ≤ max s.block.inputs 1
  facts : ∀ pin i, s.inlets[pin]? = some i → ∀ p ∈ i.facts,
    pin < s.block.arity k ∧ p.Determinate ∧ p.Allows ρ v (u pin)

theorem Site.Admits.encloses (hρ : ρ.Exact) {s : Site R} {k : BlockKind} {u : Nat → ℝ}
    (h : s.Admits ρ v k u) {pin : Nat} {r : Range R} (hr : s.hull? pin = some r) :
    r.Encloses ρ (u pin) := by
  obtain ⟨i, hi, hhull⟩ := Option.bind_eq_some_iff.mp hr
  have hfacts : ∀ p ∈ i.facts, p.Legible ρ ∧ p.Allows ρ v (u pin) := by
    intro p hp
    obtain ⟨_, hdet, ha⟩ := h.facts pin i hi p hp
    exact ⟨hdet.legible hρ, ha⟩
  exact Fact.encloses_of_hullOf? hfacts hhull

namespace Transfer

variable (hρ : ρ.Exact) {s : Site R} {u : Nat → ℝ} {y : ℝ} {p q : Fact R}

include hρ

theorem describes_gain (hfinite : s.block.FiniteParam R "Gain")
    (hy : s.block.Computes hρ .gain u y) (hdet : p.Determinate) (ha : p.Allows ρ v (u 0))
    (h : gain s p = .propagate q) : q.Describes ρ v s.output y := by
  obtain ⟨value, _, hscalar, hvalue⟩ := hfinite.exists_value
  have hg : Scalar.isFinite (value.getD 1) = true := by
    cases value with
    | none => exact hρ.isFinite_one
    | some g => exact hvalue g rfl
  have hcomputed : y = u 0 * hρ.real.lit (value.getD 1) := hy _ (hscalar 1)
  unfold gain at h
  rw [hscalar 1] at h
  dsimp only at h
  split at h
  · next hone =>
      have hlit : hρ.real.lit (value.getD 1) = 1 := by
        rw [hρ.real.lit_eq_of_beq hone, hρ.real.lit_one]
      rw [hlit, mul_one] at hcomputed
      rw [hcomputed]
      exact Fact.describes_passThrough hdet ha h
  · rw [hcomputed]
    exact Fact.describes_mapEffect hρ hdet ha (fun r hr => hr.scale hρ hg) h

/-! ### Sums -/

omit hρ in
theorem signedSum_update_of_lt {own pin : Nat} (h : own < pin) (a : ℝ)
    (signs : List Bool) :
    Block.signedSum (Function.update u own a) pin signs = Block.signedSum u pin signs := by
  induction signs generalizing pin with
  | nil => rfl
  | cons subtracted signs ih =>
      have hne : pin ≠ own := by omega
      simp [Block.signedSum, Function.update_of_ne hne, ih (Nat.lt_succ_of_lt h)]

omit hρ in
/-- A sum is one of its summands and the sum of the others. -/
theorem signedSum_eq_add {own pin : Nat} {signs : List Bool} (hpin : pin ≤ own)
    (hown : own < pin + signs.length) :
    Block.signedSum u pin signs = (if signs.getD (own - pin) false then -u own
      else u own) +
      Block.signedSum (Function.update u own 0) pin signs := by
  induction signs generalizing pin with
  | nil =>
      simp only [List.length_nil] at hown
      omega
  | cons subtracted signs ih =>
      rcases Nat.eq_or_lt_of_le hpin with rfl | hlt
      · simp [Block.signedSum, signedSum_update_of_lt (Nat.lt_succ_self pin)]
      · have hne : pin ≠ own := by omega
        have hsub : own - pin = (own - (pin + 1)) + 1 := by omega
        rw [List.length_cons] at hown
        rw [Block.signedSum, ih hlt (by omega), Block.signedSum, hsub, List.getD_cons_succ,
          Function.update_of_ne hne]
        ring

theorem encloses_signed {r : Range R} {a : ℝ} (h : r.Encloses ρ a) (subtracted : Bool) :
    (signed subtracted r).Encloses ρ (if subtracted then -a else a) := by
  cases subtracted with
  | false => exact h
  | true => exact h.neg hρ

/-- The ranges of the other inputs enclose the sum of their values. -/
theorem encloses_sumOthers (hhull : ∀ pin r, s.hull? pin = some r → r.Encloses ρ (u pin))
    (own : Nat) {signs : List Bool} {pin : Nat} {acc : Range R} {c : ℝ}
    (hacc : acc.Encloses ρ c) :
    (sumOthers s own pin acc signs).Encloses ρ
      (c + Block.signedSum (Function.update u own 0) pin signs) := by
  induction signs generalizing pin acc c with
  | nil => simpa [sumOthers, Block.signedSum] using hacc
  | cons subtracted signs ih =>
      rw [sumOthers, Block.signedSum]
      split
      · next hown =>
          obtain rfl : pin = own := by simpa using hown
          simpa using ih hacc
      · next hown =>
          have hne : pin ≠ own := by simpa using hown
          split
          · exact .full ρ _
          · next r hr =>
              rw [Function.update_of_ne hne, ← add_assoc]
              exact ih (hacc.add hρ (encloses_signed hρ (hhull pin r hr) subtracted))

theorem describes_sum (hhull : ∀ pin r, s.hull? pin = some r → r.Encloses ρ (u pin))
    (hy : y = Block.signedSum u 0 s.block.subtracted) {pin : Nat}
    (hpin : pin < max s.block.inputs 1) (hdet : p.Determinate) (ha : p.Allows ρ v (u pin))
    (h : sum s pin p = .propagate q) : q.Describes ρ v s.output y := by
  have hlength : s.block.subtracted.length = max s.block.inputs 1 :=
    s.block.length_invertedBy _ _ _
  unfold sum at h
  dsimp only at h
  split at h
  · next hsingle =>
      -- There is one input.
      simp only [Bool.and_eq_true, decide_eq_true_eq] at hsingle
      obtain ⟨subtracted, hsigns⟩ : ∃ subtracted, s.block.subtracted = [subtracted] := by
        rw [← List.length_eq_one_iff]
        omega
      obtain rfl : pin = 0 := by omega
      rw [hsigns] at h hy
      simp only [Block.signedSum, add_zero] at hy
      rw [hy]
      cases subtracted with
      | false => exact Fact.describes_passThrough hdet ha h
      | true => exact Fact.describes_mapEffect hρ hdet ha (fun r hr => hr.neg hρ) h
  · have hsplit : y = (if s.block.subtracted.getD pin false then -u pin else u pin) +
        (0 + Block.signedSum (Function.update u pin 0) 0 s.block.subtracted) := by
      rw [hy, zero_add]
      exact signedSum_eq_add (Nat.zero_le pin) (by rwa [hlength, zero_add])
    have hothers : (sumOthers s pin 0 (.point 0) s.block.subtracted).Encloses ρ
        (0 + Block.signedSum (Function.update u pin 0) 0 s.block.subtracted) :=
      encloses_sumOthers hρ hhull pin (.point ρ.defined_zero ρ.lit_zero)
    rw [hsplit]
    exact Fact.describes_mapEffect hρ hdet ha
      (fun r hr => (encloses_signed hρ hr _).add hρ hothers) h

/-! ### Products -/

omit hρ in
theorem plainProduct_update_of_lt {own pin : Nat} (h : own < pin) (a : ℝ)
    (ops : List Bool) :
    Block.plainProduct (Function.update u own a) pin ops = Block.plainProduct u
      pin ops := by
  induction ops generalizing pin with
  | nil => rfl
  | cons divisor ops ih =>
      have hne : pin ≠ own := by omega
      simp [Block.plainProduct, Function.update_of_ne hne, ih (Nat.lt_succ_of_lt h)]

omit hρ in
/-- A product is one of its factors times the product of the others. -/
theorem plainProduct_eq_mul {own pin : Nat} {ops : List Bool} (hpin : pin ≤ own)
    (hown : own < pin + ops.length) :
    Block.plainProduct u pin ops = u own * Block.plainProduct
      (Function.update u own 1) pin ops := by
  induction ops generalizing pin with
  | nil =>
      simp only [List.length_nil] at hown
      omega
  | cons divisor ops ih =>
      rcases Nat.eq_or_lt_of_le hpin with rfl | hlt
      · simp [Block.plainProduct, plainProduct_update_of_lt (Nat.lt_succ_self pin)]
      · have hne : pin ≠ own := by omega
        rw [List.length_cons] at hown
        rw [Block.plainProduct, ih hlt (by omega), Block.plainProduct,
          Function.update_of_ne hne]
        ring

/-- The ranges of the other inputs enclose the product of their values, if none is a
divisor. -/
theorem encloses_productOthers
    (hhull : ∀ pin r, s.hull? pin = some r → r.Encloses ρ (u pin)) (own : Nat)
    {ops : List Bool} (hops : ∀ divisor ∈ ops, divisor = false) {pin : Nat}
    {acc : Range R} {c : ℝ} (hacc : acc.Encloses ρ c) :
    (productOthers s own pin acc ops).Encloses ρ
      (c * Block.plainProduct (Function.update u own 1) pin ops) := by
  induction ops generalizing pin acc c with
  | nil => simpa [productOthers, Block.plainProduct] using hacc
  | cons divisor ops ih =>
      rw [List.forall_mem_cons] at hops
      obtain ⟨rfl, hops⟩ := hops
      rw [productOthers, Block.plainProduct]
      split
      · next hown =>
          obtain rfl : pin = own := by simpa using hown
          simpa using ih hops hacc
      · next hown =>
          have hne : pin ≠ own := by simpa using hown
          split
          · exact .full ρ _
          · next r hr =>
              obtain ⟨r', hr', hfactor⟩ := Option.bind_eq_some_iff.mp hr
              obtain rfl : r' = r := by simpa [factor?] using hfactor
              rw [Function.update_of_ne hne, ← mul_assoc]
              exact ih hops (hacc.mul hρ (hhull pin r' hr'))

theorem describes_product (hhull : ∀ pin r, s.hull? pin = some r → r.Encloses ρ (u pin))
    (hops : ∀ divisor ∈ s.block.divisors, divisor = false)
    (hy : y = Block.plainProduct u 0 s.block.divisors) {pin : Nat}
    (hpin : pin < max s.block.inputs 1) (hdet : p.Determinate) (ha : p.Allows ρ v (u pin))
    (h : product s pin p = .propagate q) : q.Describes ρ v s.output y := by
  have hlength : s.block.divisors.length = max s.block.inputs 1 :=
    s.block.length_invertedBy _ _ _
  unfold product at h
  dsimp only at h
  split at h
  · next hsingle =>
      -- There is one input.
      simp only [Bool.and_eq_true, decide_eq_true_eq] at hsingle
      obtain ⟨divisor, hdivisors⟩ : ∃ divisor, s.block.divisors = [divisor] := by
        rw [← List.length_eq_one_iff]
        omega
      obtain rfl : pin = 0 := by omega
      obtain rfl : divisor = false := hops divisor (by simp [hdivisors])
      rw [hdivisors] at h hy
      simp only [Block.plainProduct, mul_one] at hy
      rw [hy]
      exact Fact.describes_passThrough hdet ha h
  · have hplain : s.block.divisors.getD pin false = false := by
      rw [List.getD_eq_getElem?_getD]
      cases hget : s.block.divisors[pin]? with
      | none => rfl
      | some divisor => exact hops divisor (List.mem_of_getElem? hget)
    rw [hplain] at h
    have hsplit : y = u pin *
        (1 * Block.plainProduct (Function.update u pin 1) 0 s.block.divisors) := by
      rw [hy, one_mul]
      exact plainProduct_eq_mul (Nat.zero_le pin) (by rwa [hlength, zero_add])
    have hothers : (productOthers s pin 0 (.point 1) s.block.divisors).Encloses ρ
        (1 * Block.plainProduct (Function.update u pin 1) 0 s.block.divisors) :=
      encloses_productOthers hρ hhull pin hops (.point hρ.defined_one hρ.lit_one)
    rw [hsplit]
    exact Fact.describes_mapEffect hρ hdet ha (fun r hr => hr.mul hρ hothers) h

/-! ### Saturations -/

theorem describes_saturation (hregular : s.block.Regular R .saturation)
    (hy : s.block.Computes hρ .saturation u y) (hdet : p.Determinate)
    (ha : p.Allows ρ v (u 0)) (h : saturation s p = .propagate q) :
    q.Describes ρ v s.output y := by
  obtain ⟨hlower, hupper, -⟩ := hregular
  obtain ⟨lower, -, hlo, hlofinite⟩ := hlower.exists_value
  obtain ⟨upper, -, hhi, hhifinite⟩ := hupper.exists_value
  have hlodefined := Block.defined_getD hlofinite ρ.defined_neg_infinity
  have hhidefined := Block.defined_getD hhifinite ρ.defined_infinity
  have hcut := hy _ _ (hlo _) (hhi _)
  unfold saturation at h
  rw [hlo, hhi] at h
  dsimp only at h
  split at h
  · exact Fact.describes_mapEffect hρ hdet ha
      (fun r hr => hr.clamp hlodefined hhidefined hcut) h
  · cases h

/-! ### Minima and maxima

The end of a range that a value must not pass, as the value is an extremum, and the end
that it has to reach. -/

omit hρ

/-- The lower end does not exceed a maximum, the upper end is no less than a minimum. -/
def Admissible (ρ : ExtendedReading R) (maximum : Bool) (y : ℝ) (r : Range R) : Prop :=
  if maximum then ρ.lit r.lo ≤ y else (y : EReal) ≤ ρ.lit r.hi

/-- The upper end reaches a maximum, the lower end a minimum. -/
def Reaches (ρ : ExtendedReading R) (maximum : Bool) (y : ℝ) (r : Range R) : Prop :=
  if maximum then (y : EReal) ≤ ρ.lit r.hi else ρ.lit r.lo ≤ y

theorem extremum_iff (maximum : Bool) {r t : Range R} (hr : r.DefinedEnds)
    (ht : t.DefinedEnds) :
    (extremum maximum r t).DefinedEnds ∧
      (Admissible ρ maximum y (extremum maximum r t) ↔ Admissible ρ maximum y r ∧
        Admissible ρ maximum y t) ∧
      (Reaches ρ maximum y (extremum maximum r t) ↔ Reaches ρ maximum y r ∨
        Reaches ρ maximum y t) := by
  cases maximum with
  | true =>
      obtain ⟨hlo, hlolit⟩ := ρ.lit_greater hr.1 ht.1
      obtain ⟨hhi, hhilit⟩ := ρ.lit_greater hr.2 ht.2
      refine ⟨⟨hlo, hhi⟩, ?_, ?_⟩
      · simp [Admissible, extremum, Range.closed, hlolit]
      · simp [Reaches, extremum, Range.closed, hhilit]
  | false =>
      obtain ⟨hlo, hlolit⟩ := ρ.lit_lesser hr.1 ht.1
      obtain ⟨hhi, hhilit⟩ := ρ.lit_lesser hr.2 ht.2
      refine ⟨⟨hlo, hhi⟩, ?_, ?_⟩
      · simp [Admissible, extremum, Range.closed, hhilit]
      · simp [Reaches, extremum, Range.closed, hlolit]

theorem foldl_extremum {maximum : Bool} {rs : List (Range R)} {r : Range R}
    (hdefined : ∀ t ∈ r :: rs, t.DefinedEnds)
    (hadmissible : ∀ t ∈ r :: rs, Admissible ρ maximum y t) :
    (rs.foldl (extremum maximum) r).DefinedEnds ∧
      Admissible ρ maximum y (rs.foldl (extremum maximum) r) ∧
      ((∃ t ∈ r :: rs, Reaches ρ maximum y t) →
        Reaches ρ maximum y (rs.foldl (extremum maximum) r)) := by
  induction rs generalizing r with
  | nil => exact ⟨hdefined r (by simp), hadmissible r (by simp), by simp⟩
  | cons t rs ih =>
      simp only [List.forall_mem_cons] at hdefined hadmissible
      obtain ⟨hends, hadm, hreach⟩ :=
        extremum_iff (ρ := ρ) (y := y) maximum hdefined.1 hdefined.2.1
      obtain ⟨hends', hadm', hreach'⟩ := ih (r := extremum maximum r t)
        (List.forall_mem_cons.mpr ⟨hends, hdefined.2.2⟩)
        (List.forall_mem_cons.mpr ⟨hadm.mpr ⟨hadmissible.1, hadmissible.2.1⟩,
          hadmissible.2.2⟩)
      refine ⟨hends', hadm', fun hexists => hreach' ?_⟩
      simp only [List.exists_mem_cons_iff] at hexists ⊢
      rwa [hreach, or_assoc]

theorem extremumOf_admissible {maximum : Bool} {rs : List (Range R)}
    (hdefined : ∀ t ∈ rs, t.DefinedEnds)
    (hadmissible : ∀ t ∈ rs, Admissible ρ maximum y t) :
    (extremumOf maximum rs).DefinedEnds ∧ Admissible ρ maximum y (extremumOf maximum rs) ∧
      ((∃ t ∈ rs, Reaches ρ maximum y t) →
        Reaches ρ maximum y (extremumOf maximum rs)) := by
  cases rs with
  | nil =>
      have hfull := Range.Encloses.full ρ y
      refine ⟨hfull.defined, ?_, by simp⟩
      cases maximum with
      | true => exact hfull.lower.le
      | false => exact hfull.upper.le
  | cons r rs => exact foldl_extremum hdefined hadmissible

/-- The extremum of two ranges is closed, so that it encloses what it admits and
reaches. -/
theorem encloses_extremum {maximum : Bool} {r t : Range R}
    (hdefined : (extremum maximum r t).DefinedEnds)
    (hadmissible : Admissible ρ maximum y (extremum maximum r t))
    (hreaches : Reaches ρ maximum y (extremum maximum r t)) :
    (extremum maximum r t).Encloses ρ y := by
  cases maximum with
  | true => exact .closed hdefined.1 hdefined.2 hadmissible hreaches
  | false => exact .closed hdefined.1 hdefined.2 hreaches hadmissible

/-- The range of an input admits the extremum of all inputs, and reaches it if the input is
that extremum. -/
theorem admissible_of_encloses {maximum : Bool} {n i : Nat}
    (hy : Block.IsExtremum maximum n u y) (hi : i < n) {r : Range R}
    (hr : r.Encloses ρ (u i)) :
    Admissible ρ maximum y r ∧ (y = u i → Reaches ρ maximum y r) := by
  have hbeats := hy.2 i hi
  cases maximum with
  | true =>
      have hle : (u i : EReal) ≤ y := EReal.coe_le_coe_iff.mpr hbeats
      exact ⟨hr.lower.le.trans hle, fun heq => heq ▸ hr.upper.le⟩
  | false =>
      have hle : (y : EReal) ≤ u i := EReal.coe_le_coe_iff.mpr hbeats
      exact ⟨hle.trans hr.upper.le, fun heq => heq ▸ hr.lower.le⟩

/-- An input that nothing is known about has the full range. -/
theorem encloses_hull_or_full
    (hhull : ∀ pin r, s.hull? pin = some r → r.Encloses ρ (u pin)) (pin : Nat) :
    ((s.hull? pin).getD .full).Encloses ρ (u pin) := by
  cases h : s.hull? pin with
  | none => exact .full ρ _
  | some r => exact hhull pin r h

theorem describes_minMax (hρ : ρ.Exact)
    (hhull : ∀ pin r, s.hull? pin = some r → r.Encloses ρ (u pin))
    (hlength : s.inlets.length ≤ max s.block.inputs 1)
    (hy : Block.IsExtremum s.block.takesMaximum (max s.block.inputs 1) u y) {pin : Nat}
    (hpin : pin < max s.block.inputs 1) (hdet : p.Determinate) (ha : p.Allows ρ v (u pin))
    (h : minMax s pin p = .propagate q) : q.Describes ρ v s.output y := by
  unfold minMax at h
  split at h
  · next hsingle =>
      unfold Site.inputCount at hsingle
      obtain ⟨i, hi, rfl⟩ := hy.1
      obtain rfl : i = pin := by omega
      exact Fact.describes_passThrough hdet ha h
  · next hmany =>
      have hcount : s.inputCount = max s.block.inputs 1 := by
        unfold Site.inputCount at hmany ⊢
        omega
      refine Fact.describes_mapEffect hρ hdet ha (fun r hr => ?_) h
      have hother : ∀ t ∈ otherRanges s pin, ∃ i < max s.block.inputs 1,
          t.Encloses ρ (u i) := by
        intro t ht
        obtain ⟨i, hi, rfl⟩ := List.mem_map.mp ht
        exact ⟨i, hcount ▸ List.mem_range.mp (List.mem_filter.mp hi).1,
          encloses_hull_or_full hhull i⟩
      obtain ⟨hdefined, hadmissible, hreaches⟩ := extremumOf_admissible (ρ := ρ) (y := y)
        (fun t ht => (hother t ht).elim fun i hi => hi.2.defined)
        fun t ht => (hother t ht).elim fun i hi => (admissible_of_encloses hy hi.1 hi.2).1
      obtain ⟨hends, hadm, hreach⟩ :=
        extremum_iff (ρ := ρ) (y := y) s.block.takesMaximum hr.defined hdefined
      refine encloses_extremum hends
        (hadm.mpr ⟨(admissible_of_encloses hy hpin hr).1, hadmissible⟩)
        (hreach.mpr ?_)
      -- The extremum is the value of some input, whose range reaches it.
      obtain ⟨i, hi, hyi⟩ := hy.1
      by_cases hown : i = pin
      · exact Or.inl ((admissible_of_encloses hy hi (hown ▸ hr)).2 hyi)
      · refine Or.inr (hreaches ⟨(s.hull? i).getD .full, List.mem_map_of_mem ?_, ?_⟩)
        · simp [hcount, hi, hown]
        · exact (admissible_of_encloses hy hi (encloses_hull_or_full hhull i)).2 hyi

/-! ### Switches -/

include hρ

/-- The condition of a switch is true as the control value compares with the threshold. -/
theorem trueAt_guard_iff {op : Comparison} {c : R} (hc : Scalar.isFinite c = true)
    {control : String} :
    (Formula.compare (.var control) op (.num c)).TrueAt ρ v ↔
      op.Compares (v control) (hρ.real.lit c) := by
  rw [Formula.compare, Formula.trueAt_rel, hρ.trueAt_iff_holds]
  · simp [Relation.Holds]
  · simp
  · simp [hρ.coe_lit_real hc]

theorem describes_switch (hthreshold : s.block.FiniteParam R "Threshold")
    (hinputs : s.block.inputs = 3) (hcontrol : ∀ x, s.inputVar? 1 = some x → v x = u 1)
    (hy : s.block.Computes hρ .switch u y) {pin : Nat} (hpin : pin < max s.block.inputs 1)
    (ha : p.Allows ρ v (u pin)) (h : switch s pin p = .propagate q) :
    q.Describes ρ v s.output y := by
  obtain ⟨op, c, hc, hguard⟩ := s.block.switchGuard_eq hthreshold ρ.isFinite_zero
  obtain ⟨hfirst, hthird⟩ := hy op c hguard
  unfold switch at h
  split at h
  · cases h
  · next hselects =>
      split at h
      · next control b hvar hb =>
          cases h
          have hbounds : b.Allows ρ v (u pin) := (Fact.allows_of_asBoundary? hb).mp ha
          have hvalue := hcontrol control hvar
          refine ⟨?_, ?_, ?_⟩
          · intro g hg
            obtain rfl := List.mem_singleton.mp hg
            exact b.about_retarget s.output
          · intro c hc
            cases hc
          · intro g hg htrue
            obtain rfl := List.mem_singleton.mp hg
            refine (b.allows_retarget s.output).mpr ?_
            simp only [hguard] at htrue
            by_cases hzero : pin = 0
            · subst hzero
              have hcompares := (trueAt_guard_iff hρ hc).mp htrue
              rw [hvalue] at hcompares
              rwa [hfirst hcompares]
            · have htwo : pin = 2 := by
                have hone : pin ≠ 1 := fun hone => hselects (by simp [hone])
                omega
              subst htwo
              have hcompares : ¬op.Compares (v control) (hρ.real.lit c) := by
                rw [← trueAt_guard_iff hρ hc]
                exact (Formula.trueUnder_not _ _).mp htrue
              rw [hvalue] at hcompares
              rwa [hthird hcompares]
      · cases h

/-- A decided condition holds, or fails, at the control value. -/
theorem compares_of_decideGuard? {op : Comparison} {c : R} (hc : Scalar.isFinite c = true)
    {control : Term R} {r : Range R} {a : ℝ} (hr : r.Encloses ρ a) {holds : Bool}
    (h : decideGuard? (.compare control op (.num c)) r = some holds) :
    op.Compares a (hρ.real.lit c) ↔ holds = true := by
  have hshift : ∀ op : Comparison, op.Compares (a + hρ.real.lit (-c)) 0 ↔
      op.Compares a (hρ.real.lit c) := by
    intro op
    rw [hρ.lit_real_neg (ExtendedReading.defined_of_isFinite hc), ← sub_eq_add_neg]
    cases op <;> simp [Comparison.Compares, sub_eq_zero]
  have hshifted := hr.offset hρ (hρ.isFinite_neg hc)
  simp only [decideGuard?, Formula.compare, Term.value?_num] at h
  split at h
  · next hall =>
      cases h
      simpa using (hshift op).mp (hshifted.compares_of_allSatisfySign hall)
  · split at h
    · next hnone =>
        cases h
        have hfails := (hshift op.negate).mp (hshifted.compares_of_allSatisfySign hnone)
        simpa using (Comparison.compares_negate _ _ _).mp hfails
    · cases h

theorem describes_selected (hhull : ∀ pin r, s.hull? pin = some r → r.Encloses ρ (u pin))
    (hthreshold : s.block.FiniteParam R "Threshold") (hy : s.block.Computes hρ .switch u y)
    (h : selected? s = some q) : q.Describes ρ v s.output y := by
  obtain ⟨op, c, hc, hguard⟩ := s.block.switchGuard_eq hthreshold ρ.isFinite_zero
  obtain ⟨hfirst, hthird⟩ := hy op c hguard
  obtain ⟨r, hr, rfl⟩ := Option.map_eq_some_iff.mp h
  refine Fact.describes_ofRange ?_ s.output
  unfold selectedRange? at hr
  simp only [hguard] at hr
  split at hr
  · next hdecided =>
      obtain ⟨control, hcontrol, hdecided⟩ := Option.bind_eq_some_iff.mp hdecided
      have hcompares :=
        (compares_of_decideGuard? hρ hc (hhull 1 _ hcontrol) hdecided).mpr rfl
      exact hfirst hcompares ▸ hhull 0 r hr
  · next hdecided =>
      obtain ⟨control, hcontrol, hdecided⟩ := Option.bind_eq_some_iff.mp hdecided
      have hfails :=
        mt (compares_of_decideGuard? hρ hc (hhull 1 _ hcontrol) hdecided).mp (by simp)
      exact hthird hfails ▸ hhull 2 r hr
  · split at hr
    · next r₀ r₂ hr₀ hr₂ =>
        cases hr
        have henc₀ := hhull 0 r₀ hr₀
        have henc₂ := hhull 2 r₂ hr₂
        by_cases hcompares : op.Compares (u 1) (hρ.real.lit c)
        · exact hfirst hcompares ▸ henc₀.hull_left henc₂.defined
        · exact hthird hcompares ▸ henc₂.hull_right henc₀.defined
    · cases hr

/-! ### Facts that need no input -/

theorem describes_limits (hregular : s.block.Regular R .saturation)
    (hy : s.block.Computes hρ .saturation u y)
    (hq : q ∈ Fact.between s.output (s.block.paramTerm? "LowerLimit")
      (s.block.paramTerm? "UpperLimit")) :
    q.Describes ρ v s.output y := by
  obtain ⟨hlower, hupper, hordered⟩ := hregular
  obtain ⟨lower, hloterm, hlo, hlofinite⟩ := hlower.exists_value
  obtain ⟨upper, hhiterm, hhi, hhifinite⟩ := hupper.exists_value
  have hcut := hy _ _ (hlo _) (hhi _)
  have hle := (ρ.le_iff (Block.defined_getD hlofinite ρ.defined_neg_infinity)
    (Block.defined_getD hhifinite ρ.defined_infinity)).mp (hordered _ _ (hlo _) (hhi _))
  rw [hloterm, hhiterm] at hq
  unfold Fact.between at hq
  split at hq
  · cases hq
  · obtain rfl := List.mem_singleton.mp hq
    refine ⟨rfl, ?_, ?_, ?_⟩
    · intro c hc t ht
      obtain rfl := List.mem_singleton.mp hc
      rcases List.mem_append.mp ht with ht | ht <;> obtain ⟨b, hb, rfl⟩ :=
        List.mem_map.mp ht
      · obtain ⟨lo, hlo, rfl⟩ : ∃ lo ∈ lower, Bound.inclusive (.num lo) = b := by
          simpa using hb
        exact Term.determinate_of_isFinite (hlofinite lo hlo)
      · obtain ⟨hi, hhi, rfl⟩ : ∃ hi ∈ upper, Bound.inclusive (.num hi) = b := by
          simpa using hb
        exact Term.determinate_of_isFinite (hhifinite hi hhi)
    · intro b hb
      obtain ⟨lo, hlo, rfl⟩ : ∃ lo ∈ lower, Bound.inclusive (.num lo) = b := by
        simpa using hb
      rw [Option.mem_def.mp hlo] at hcut hle
      show (Term.num lo).extended ρ v ≤ y
      rw [hcut, Term.extended_num]
      exact le_min (le_max_right _ _) hle
    · intro b hb
      obtain ⟨hi, hhi, rfl⟩ : ∃ hi ∈ upper, Bound.inclusive (.num hi) = b := by
        simpa using hb
      rw [Option.mem_def.mp hhi] at hcut
      show (y : EReal) ≤ (Term.num hi).extended ρ v
      rw [hcut, Term.extended_num]
      exact min_le_right _ _

theorem describes_truthValues (hy : y = 0 ∨ y = 1) :
    (Fact.boundary ⟨[.equals s.output 0, .equals s.output 1]⟩ : Fact R).Describes ρ v
      s.output y := by
  refine ⟨?_, ?_, ?_⟩
  · intro c hc
    rcases List.mem_pair.mp hc with rfl | rfl <;> rfl
  · intro c hc t ht
    rcases List.mem_pair.mp hc with rfl | rfl
    · obtain rfl := List.mem_singleton.mp ht
      exact Term.determinate_of_isFinite ρ.isFinite_zero
    · obtain rfl := List.mem_singleton.mp ht
      exact Term.determinate_of_isFinite hρ.isFinite_one
  · rcases hy with rfl | rfl
    · exact ⟨_, List.mem_cons_self, by
        simp [Constraint.equals, Constraint.Allows, Comparison.Compares, ρ.lit_zero]⟩
    · exact ⟨_, List.mem_cons_of_mem _ List.mem_cons_self,
        by simp [Constraint.equals, Constraint.Allows, Comparison.Compares, hρ.lit_one]⟩

end Transfer

namespace TransferRule

variable (hρ : ρ.Exact) {s : Site R} {k : BlockKind} {u : Nat → ℝ} {y : ℝ}

include hρ

/-- A fact that is transferred describes what the block computes. -/
theorem describes_advance (hregular : s.block.Regular R k) (hs : s.Admits ρ v k u)
    (hy : s.block.Computes hρ k u y)
    (hswitch : k = .switch → s.block.inputs = 3 ∧ ∀ x, s.inputVar? 1 = some x → v x = u 1)
    {pin : Nat} {i : Inlet R} (hi : s.inlets[pin]? = some i) {p q : Fact R}
    (hp : p ∈ i.facts) (h : (ofKind k).advance s pin p = .propagate q) :
    q.Describes ρ v s.output y := by
  obtain ⟨hpin, hdet, ha⟩ := hs.facts pin i hi p hp
  have hhull : ∀ pin r, s.hull? pin = some r → r.Encloses ρ (u pin) := fun _ _ hr =>
    hs.encloses hρ hr
  cases k with
  | gain =>
      obtain rfl : pin = 0 := Nat.lt_one_iff.mp hpin
      exact Transfer.describes_gain hρ hregular hy hdet ha h
  | sum => exact Transfer.describes_sum hρ hhull hy hpin hdet ha h
  | add => exact Transfer.describes_sum hρ hhull hy hpin hdet ha h
  | subtract => exact Transfer.describes_sum hρ hhull hy hpin hdet ha h
  | product => exact Transfer.describes_product hρ hhull hregular hy hpin hdet ha h
  | saturation =>
      obtain rfl : pin = 0 := Nat.lt_one_iff.mp hpin
      exact Transfer.describes_saturation hρ hregular hy hdet ha h
  | minMax => exact Transfer.describes_minMax hρ hhull hs.length_le hy hpin hdet ha h
  | switch =>
      obtain ⟨hinputs, hcontrol⟩ := hswitch rfl
      exact Transfer.describes_switch hρ hregular hinputs hcontrol hy hpin ha h
  | relationalOperator => cases h
  | _ => exact hregular.elim

/-- A fact that a rule establishes by itself describes what the block computes. -/
theorem describes_generate (hregular : s.block.Regular R k)
    (hy : s.block.Computes hρ k u y) {q : Fact R} (hq : q ∈ (ofKind k).generate s.block) :
    q.Describes ρ v s.output y := by
  cases k with
  | saturation => exact Transfer.describes_limits hρ hregular hy hq
  | relationalOperator =>
      obtain rfl := List.mem_singleton.mp hq
      exact Transfer.describes_truthValues hρ hy
  | gain => cases hq
  | sum => cases hq
  | add => cases hq
  | subtract => cases hq
  | product => cases hq
  | minMax => cases hq
  | switch => cases hq
  | _ => exact hregular.elim

/-- A fact from the direct evaluation of a guard describes what the block computes. -/
theorem describes_select? (hregular : s.block.Regular R k) (hs : s.Admits ρ v k u)
    (hy : s.block.Computes hρ k u y) {q : Fact R} (hq : (ofKind k).select? s = some q) :
    q.Describes ρ v s.output y := by
  cases k with
  | switch =>
      exact Transfer.describes_selected hρ (fun _ _ hr => hs.encloses hρ hr) hregular hy hq
  | gain => cases hq
  | sum => cases hq
  | add => cases hq
  | subtract => cases hq
  | product => cases hq
  | saturation => cases hq
  | minMax => cases hq
  | relationalOperator => cases hq
  | _ => exact hregular.elim

end TransferRule
end SignalFlow
