import SignalFlow.Proofs.RangeArithmetic
import SignalFlow.Proofs.SettledObligation
import SignalFlow.Transfer.Basic

/-!
# The values that facts allow

A fact constrains a term by bounds.  Whether its bounds *allow* a value depends on the
bounds alone, so that the same is asked of the value when the fact is retargeted; the fact
is true if the value of its subject is allowed.

A bound is *determinate* if it has variables or a defined value.  It is *legible* if the
computed value is also what the bound is read as: under exact arithmetic that goes for all
determinate bounds, and without it for literals and variables.  With legible bounds, the
range of a constraint encloses every value that the constraint allows, and so do hulls of
several constraints and common ranges of several facts.  A fact whose ranges are mapped
allows the image of every value that it allowed.

**Results.**
* `Fact.trueAt_iff_allows`, `Fact.allows_retarget`: truth, and statements about another
  term.
* `Constraint.allows_of_beq`, `Boundary.allows_of_beq`: what is equal allows the same.
* `Constraint.Legible.encloses`, `Boundary.encloses_of_hull?`, `Fact.encloses_of_hullOf?`:
  ranges.
* `Fact.allows_mapRanges?`: facts with mapped ranges.
* `Fact.allows_conjoin?`: one boundary for several facts.
-/

namespace SignalFlow

variable {R : Type} [Scalar R] {ρ : ExtendedReading R} {v : Valuation ℝ}

/-- An element of a list has a property if one of the distinct elements has it. -/
theorem exists_distinct_iff {α : Type} [BEq α] {xs : List α} {P : α → Prop}
    (hP : ∀ x y, (x == y) = true → P x → P y) : (∃ x ∈ distinct xs, P x) ↔
      ∃ x ∈ xs, P x := by
  constructor
  · rintro ⟨x, hx, hPx⟩
    exact ⟨x, mem_of_mem_distinct hx, hPx⟩
  · rintro ⟨x, hx, hPx⟩
    obtain ⟨y, hy, rfl | hxy⟩ := exists_mem_distinct hx
    · exact ⟨y, hy, hPx⟩
    · exact ⟨y, hy, hP x y hxy hPx⟩

/-- Elements of lists that are equal part by part have equal partners. -/
theorem exists_mem_beq {α : Type} [BEq α] {xs ys : List α} (h : (xs == ys) = true) {x : α}
    (hx : x ∈ xs) : ∃ y ∈ ys, (x == y) = true := by
  induction xs generalizing ys with
  | nil => cases hx
  | cons x' xs ih =>
      cases ys with
      | nil => cases h
      | cons y ys =>
          have hparts : (x' == y) = true ∧ (xs == ys) = true := by simpa using h
          rcases List.mem_cons.mp hx with rfl | hx
          · exact ⟨y, by simp, hparts.1⟩
          · obtain ⟨y', hy', hxy'⟩ := ih hparts.2 hx
            exact ⟨y', List.mem_cons_of_mem _ hy', hxy'⟩

/-! ### Allowed values -/

namespace Constraint

/-- The bounds allow the value. -/
def Allows (ρ : ExtendedReading R) (v : Valuation ℝ) (c : Constraint R)
    (a : EReal) : Prop :=
  match c with
  | .interval i =>
      (∀ b ∈ i.lower, Range.Under b.strict (b.value.extended ρ v) a) ∧
        ∀ b ∈ i.upper, Range.Under b.strict a (b.value.extended ρ v)
  | .relation r => r.op.Compares a (r.rhs.extended ρ v)

theorem trueAt_iff_allows (c : Constraint R) :
    c.toFormula.TrueAt ρ v ↔ c.Allows ρ v (c.subject.extended ρ v) := by
  cases c with
  | interval i =>
      have hlower : (∀ r ∈ i.lowerRelation?, r.TrueAt ρ v) ↔
          ∀ b ∈ i.lower, Range.Under b.strict (b.value.extended ρ v)
          (i.term.extended ρ v) := by
        cases hi : i.lower with
        | none => simp [Interval.lowerRelation?, hi]
        | some b =>
            obtain ⟨t, strict⟩ := b
            cases strict <;>
              simp [Interval.lowerRelation?, hi, Relation.TrueAt, Comparison.Compares,
                Range.Under]
      have hupper : (∀ r ∈ i.upperRelation?, r.TrueAt ρ v) ↔
          ∀ b ∈ i.upper, Range.Under b.strict (i.term.extended ρ v)
          (b.value.extended ρ v) := by
        cases hi : i.upper with
        | none => simp [Interval.upperRelation?, hi]
        | some b =>
            obtain ⟨t, strict⟩ := b
            cases strict <;>
              simp [Interval.upperRelation?, hi, Relation.TrueAt, Comparison.Compares,
                Range.Under]
      rw [toFormula, Interval.trueAt_toFormula, hlower, hupper]
      rfl
  | relation r => exact Formula.trueAt_rel ρ v r

theorem allows_retarget (t : Term R) (c : Constraint R) {a : EReal} :
    (c.retarget t).Allows ρ v a ↔ c.Allows ρ v a := by
  cases c <;> rfl

omit [Scalar R] in
@[simp] theorem subject_retarget (t : Term R) (c : Constraint R) :
    (c.retarget t).subject = t := by
  cases c <;> rfl

omit [Scalar R] in
@[simp] theorem bounds_retarget (t : Term R) (c : Constraint R) :
    (c.retarget t).bounds = c.bounds := by
  cases c <;> rfl

omit [Scalar R] in
/-- Optional bounds that are equal have equal partners. -/
theorem exists_bound_of_beq [BEq R] {o o' : Option (Bound R)} (h : (o == o') = true)
    {b' : Bound R} (hb' : b' ∈ o') :
    ∃ b ∈ o, b.strict = b'.strict ∧ Term.beq b.value b'.value = true := by
  rw [Option.mem_def.mp hb'] at h
  cases o with
  | none => cases h
  | some b =>
      have hparts : Term.beq b.value b'.value = true ∧ (b.strict == b'.strict) = true :=
        Bool.and_eq_true_iff.mp h
      exact ⟨b, rfl, eq_of_beq hparts.2, hparts.1⟩

/-- Equal constraints allow the same. -/
theorem allows_of_beq {c c' : Constraint R} (h : (c == c') = true) {a : EReal}
    (ha : c.Allows ρ v a) : c'.Allows ρ v a := by
  cases c with
  | interval i =>
      cases c' with
      | interval i' =>
          obtain ⟨_, hbounds⟩ := Bool.and_eq_true_iff.mp h
          obtain ⟨hlower, hupper⟩ := Bool.and_eq_true_iff.mp hbounds
          refine ⟨fun b' hb' => ?_, fun b' hb' => ?_⟩
          · obtain ⟨b, hb, hstrict, hvalue⟩ := exists_bound_of_beq hlower hb'
            rw [← hstrict, ← Term.extended_eq_of_beq ρ v _ _ hvalue]
            exact ha.1 b hb
          · obtain ⟨b, hb, hstrict, hvalue⟩ := exists_bound_of_beq hupper hb'
            rw [← hstrict, ← Term.extended_eq_of_beq ρ v _ _ hvalue]
            exact ha.2 b hb
      | relation r' => cases h
  | relation r =>
      cases c' with
      | interval i' => cases h
      | relation r' =>
          have hparts : (r == r') = true := h
          simp only [Relation.beq_iff, Bool.and_eq_true] at hparts
          have hop : r.op = r'.op := by simpa using hparts.2.1
          have hcompares : r.op.Compares a (r.rhs.extended ρ v) := ha
          show r'.op.Compares a (r'.rhs.extended ρ v)
          rwa [← hop, ← Term.extended_eq_of_beq ρ v _ _ hparts.2.2]

end Constraint

namespace Boundary

/-- One of the constraints allows the value. -/
def Allows (ρ : ExtendedReading R) (v : Valuation ℝ) (b : Boundary R) (a : EReal) : Prop :=
  ∃ c ∈ b.items, c.Allows ρ v a

/-- All constraints are about the term. -/
def About (t : Term R) (b : Boundary R) : Prop :=
  ∀ c ∈ b.items, c.subject = t

theorem trueAt_iff_allows {b : Boundary R} {t : Term R} (h : b.About t) :
    b.toFormula.TrueAt ρ v ↔ b.Allows ρ v (t.extended ρ v) := by
  rw [toFormula, Formula.trueAt_disj]
  constructor
  · rintro ⟨p, hp, htrue⟩
    obtain ⟨c, hc, rfl⟩ := List.mem_map.mp hp
    rw [c.trueAt_iff_allows, h c hc] at htrue
    exact ⟨c, hc, htrue⟩
  · rintro ⟨c, hc, ha⟩
    refine ⟨c.toFormula, List.mem_map_of_mem hc, ?_⟩
    rw [c.trueAt_iff_allows, h c hc]
    exact ha

omit [Scalar R] in
theorem about_retarget (t : Term R) (b : Boundary R) : (b.retarget t).About t := by
  intro c hc
  obtain ⟨c', _, rfl⟩ := List.mem_map.mp hc
  exact c'.subject_retarget t

theorem allows_retarget (t : Term R) (b : Boundary R) {a : EReal} :
    (b.retarget t).Allows ρ v a ↔ b.Allows ρ v a := by
  simp [Allows, retarget, Constraint.allows_retarget]

theorem allows_flatten (bs : List (Boundary R)) {a : EReal} :
    (flatten bs).Allows ρ v a ↔ ∃ b ∈ bs, b.Allows ρ v a := by
  unfold Allows flatten
  rw [exists_distinct_iff fun _ _ h => Constraint.allows_of_beq h]
  simp only [List.mem_flatMap]
  constructor
  · rintro ⟨c, ⟨b, hb, hc⟩, ha⟩
    exact ⟨b, hb, c, hc, ha⟩
  · rintro ⟨b, hb, c, hc, ha⟩
    exact ⟨c, ⟨b, hb, hc⟩, ha⟩

theorem about_flatten {bs : List (Boundary R)} {t : Term R} (h : ∀ b ∈ bs, b.About t) :
    (flatten bs).About t := by
  intro c hc
  obtain ⟨b, hb, hcb⟩ := List.mem_flatMap.mp (mem_of_mem_distinct hc)
  exact h b hb c hcb

/-- Equal boundaries allow the same. -/
theorem allows_of_beq {b b' : Boundary R} (h : (b == b') = true) {a : EReal}
    (ha : b.Allows ρ v a) : b'.Allows ρ v a := by
  obtain ⟨c, hc, hca⟩ := ha
  have hitems : (b.items == b'.items) = true := h
  obtain ⟨c', hc', hcc'⟩ := exists_mem_beq hitems hc
  exact ⟨c', hc', Constraint.allows_of_beq hcc' hca⟩

end Boundary

namespace Fact

/-- The fact allows the value.  Antecedents, and relations between signals, are true or not
whatever the value is. -/
def Allows (ρ : ExtendedReading R) (v : Valuation ℝ) (p : Fact R) (a : EReal) : Prop :=
  match p with
  | .single c => c.Allows ρ v a
  | .boundary b => b.Allows ρ v a
  | .discrete bs => ∃ b ∈ bs, b.Allows ρ v a
  | .control gs => ∀ g ∈ gs, g.antecedent.TrueAt ρ v → g.consequent.Allows ρ v a
  | .data rs => ∀ r ∈ rs, r.TrueAt ρ v

/-- All constraints of a fact are about the term. -/
def About (t : Term R) : Fact R → Prop
  | .single c => c.subject = t
  | .boundary b => b.About t
  | .discrete bs => ∀ b ∈ bs, b.About t
  | .control gs => ∀ g ∈ gs, g.consequent.About t
  | .data _ => True

/-- A fact is true if it allows the value of what it is about. -/
theorem trueAt_iff_allows {p : Fact R} {t : Term R} (h : p.About t) :
    p.toFormula.TrueAt ρ v ↔ p.Allows ρ v (t.extended ρ v) := by
  cases p with
  | single c =>
      have hsubject : c.subject = t := h
      rw [← hsubject]
      exact c.trueAt_iff_allows
  | boundary b => exact Boundary.trueAt_iff_allows h
  | discrete bs =>
      refine (Boundary.trueAt_iff_allows (Boundary.about_flatten h)).trans ?_
      exact Boundary.allows_flatten bs
  | control gs =>
      have himplies : ∀ g ∈ gs, g.toFormula.TrueAt ρ v ↔
          (g.antecedent.TrueAt ρ v → g.consequent.Allows ρ v (t.extended ρ v)) := by
        intro g hg
        rw [← Boundary.trueAt_iff_allows (h g hg)]
        exact Formula.trueUnder_implies _ _ _
      rw [toFormula, Formula.trueAt_conj, List.forall_mem_map]
      exact forall₂_congr himplies
  | data rs =>
      rw [toFormula, Formula.trueAt_conj, List.forall_mem_map]
      exact forall₂_congr fun r _ => Formula.trueAt_rel ρ v r

omit [Scalar R] in
theorem about_retarget (t : Term R) (p : Fact R) : (p.retarget t).About t := by
  cases p with
  | single c => exact c.subject_retarget t
  | boundary b => exact b.about_retarget t
  | discrete bs => exact List.forall_mem_map.mpr fun b _ => b.about_retarget t
  | control gs => exact List.forall_mem_map.mpr fun g _ => g.consequent.about_retarget t
  | data rs => trivial

theorem allows_retarget (t : Term R) (p : Fact R) {a : EReal} :
    (p.retarget t).Allows ρ v a ↔ p.Allows ρ v a := by
  cases p with
  | single c => exact c.allows_retarget t
  | boundary b => exact b.allows_retarget t
  | discrete bs => simp [Allows, retarget, Boundary.allows_retarget]
  | control gs => simp [Allows, retarget, Guarded.retarget, Boundary.allows_retarget]
  | data rs => exact Iff.rfl

/-- A retargeted fact is true of a term whose value is allowed. -/
theorem trueAt_retarget (t : Term R) (p : Fact R) :
    (p.retarget t).toFormula.TrueAt ρ v ↔ p.Allows ρ v (t.extended ρ v) := by
  rw [trueAt_iff_allows (p.about_retarget t), p.allows_retarget]

/-- A signal fact allows what its boundary allows. -/
theorem allows_of_asBoundary? {p : Fact R} {b : Boundary R} (h : p.asBoundary? = some b)
    {a : EReal} : p.Allows ρ v a ↔ b.Allows ρ v a := by
  cases p with
  | single c =>
      cases h
      simp [Allows, Boundary.Allows]
  | boundary b' =>
      cases h
      exact Iff.rfl
  | discrete bs =>
      cases h
      exact (Boundary.allows_flatten bs).symm
  | control gs => cases h
  | data rs => cases h

end Fact

/-! ### Ranges -/

/-- A term without variables has a defined value. -/
def Term.Determinate (t : Term R) : Prop :=
  ∀ a, t.value? = some a → Scalar.Defined a

/-- All bounds are determinate. -/
def Constraint.Determinate (c : Constraint R) : Prop :=
  ∀ t ∈ c.bounds, t.Determinate

/-- All bounds are determinate. -/
def Boundary.Determinate (b : Boundary R) : Prop :=
  ∀ c ∈ b.items, c.Determinate

/-- All bounds of a signal fact are determinate. -/
def Fact.Determinate (p : Fact R) : Prop :=
  ∀ c ∈ p.items, c.Determinate

theorem Term.determinate_of_isFinite {a : R} (h : Scalar.isFinite a = true) :
    (Term.num a).Determinate := by
  intro b hb
  rw [value?_num, Option.some.injEq] at hb
  exact hb ▸ ExtendedReading.defined_of_isFinite h

theorem Boundary.Determinate.retarget {b : Boundary R} (h : b.Determinate) (t : Term R) :
    (b.retarget t).Determinate := by
  intro c hc
  obtain ⟨c', hc', rfl⟩ := List.mem_map.mp hc
  simpa [Constraint.Determinate] using h c' hc'

/-- The constraints of the boundary of a signal fact are its constraints. -/
theorem Fact.mem_items_of_asBoundary? {p : Fact R} {b : Boundary R}
    (hb : p.asBoundary? = some b) {c : Constraint R} (hc : c ∈ b.items) : c ∈ p.items := by
  cases p with
  | single c' =>
      cases hb
      exact hc
  | boundary b' =>
      cases hb
      exact hc
  | discrete bs =>
      cases hb
      exact mem_of_mem_distinct hc
  | control gs => cases hb
  | data rs => cases hb

theorem Fact.Determinate.asBoundary? {p : Fact R} (h : p.Determinate) {b : Boundary R}
    (hb : p.asBoundary? = some b) : b.Determinate :=
  fun c hc => h c (mem_items_of_asBoundary? hb hc)

/-- A term without variables has a defined value, and is read as that value. -/
def Term.Legible (ρ : ExtendedReading R) (t : Term R) : Prop :=
  ∀ a, t.value? = some a → Scalar.Defined a ∧ ∀ v : Valuation ℝ, t.extended ρ v = ρ.lit a

/-- All bounds are legible. -/
def Constraint.Legible (ρ : ExtendedReading R) (c : Constraint R) : Prop :=
  ∀ t ∈ c.bounds, t.Legible ρ

/-- All bounds are legible. -/
def Boundary.Legible (ρ : ExtendedReading R) (b : Boundary R) : Prop :=
  ∀ c ∈ b.items, c.Legible ρ

/-- All bounds of a signal fact are legible. -/
def Fact.Legible (ρ : ExtendedReading R) (p : Fact R) : Prop :=
  ∀ c ∈ p.items, c.Legible ρ

theorem Fact.Legible.asBoundary? {p : Fact R} (h : p.Legible ρ) {b : Boundary R}
    (hb : p.asBoundary? = some b) : b.Legible ρ :=
  fun c hc => h c (mem_items_of_asBoundary? hb hc)

/-- Exact arithmetic computes what a term is read as. -/
theorem Term.Determinate.legible {t : Term R} (h : t.Determinate) (hρ : ρ.Exact) :
    t.Legible ρ :=
  fun a ha => ⟨h a ha, fun v => hρ.extended_of_value? v t a ha (h a ha)⟩

theorem Constraint.Determinate.legible {c : Constraint R} (h : c.Determinate)
    (hρ : ρ.Exact) : c.Legible ρ :=
  fun t ht => (h t ht).legible hρ

theorem Fact.Determinate.legible {p : Fact R} (h : p.Determinate) (hρ : ρ.Exact) :
    p.Legible ρ :=
  fun c hc => (h c hc).legible hρ

/-- Nothing is computed for a literal or a variable. -/
theorem Term.IsBound.legible {t : Term R} (h : t.IsBound) : t.Legible ρ := by
  intro a ha
  obtain ⟨rfl, hdefined⟩ := h.eq_num ha
  exact ⟨hdefined, fun v => Term.extended_num ρ v a⟩

section Ranges

namespace Constraint

/-- An end of a range is the value of the bound, or open. -/
theorem extended_of_endOf? {missing : R} {bound : Option (Bound R)}
    (hlegible : ∀ b ∈ bound, b.value.Legible ρ) {x : R} {strict : Bool}
    (h : Interval.endOf? missing bound = some (x, strict)) :
    (bound = none ∧ x = missing ∧ strict = true) ∨
      ∃ b ∈ bound, Scalar.Defined x ∧ b.strict = strict ∧ ∀ v :
        Valuation ℝ, b.value.extended ρ v = ρ.lit x := by
  cases bound with
  | none =>
      cases h
      exact Or.inl ⟨rfl, rfl, rfl⟩
  | some b =>
      obtain ⟨y, hy, hpair⟩ := Option.map_eq_some_iff.mp h
      cases hpair
      obtain ⟨hdefined, hvalue⟩ := hlegible b rfl _ hy
      exact Or.inr ⟨b, rfl, hdefined, rfl, hvalue⟩

/-- The range of a constraint has defined ends, and encloses what the constraint allows. -/
theorem Legible.encloses {c : Constraint R} (hlegible : c.Legible ρ) {r : Range R}
    (h : c.range? = some r) :
    r.DefinedEnds ∧ ∀ (v : Valuation ℝ) (a : ℝ), c.Allows ρ v a → r.Encloses ρ a := by
  cases c with
  | interval i =>
      have hlower : ∀ b ∈ i.lower, b.value.Legible ρ := fun b hb =>
        hlegible _ (by simp [bounds, Option.mem_def.mp hb])
      have hupper : ∀ b ∈ i.upper, b.value.Legible ρ := fun b hb =>
        hlegible _ (by simp [bounds, Option.mem_def.mp hb])
      change i.range? = some r at h
      unfold Interval.range? at h
      split at h
      · next lo loStrict hi hiStrict hlo hhi =>
          cases h
          have hlo' : Scalar.Defined lo ∧ ∀ (v : Valuation ℝ) (a : ℝ),
              (Constraint.interval i).Allows ρ v a →
              Range.Under loStrict (ρ.lit lo) a := by
            rcases extended_of_endOf? hlower hlo with
              ⟨_, rfl, rfl⟩ | ⟨b, hb, hdefined, rfl, hvalue⟩
            · refine ⟨ρ.defined_neg_infinity, fun v a _ => ?_⟩
              rw [ρ.lit_neg_infinity]
              exact EReal.bot_lt_coe a
            · refine ⟨hdefined, fun v a ha => ?_⟩
              rw [← hvalue v]
              exact ha.1 b hb
          have hhi' : Scalar.Defined hi ∧ ∀ (v : Valuation ℝ) (a : ℝ),
              (Constraint.interval i).Allows ρ v a →
              Range.Under hiStrict a (ρ.lit hi) := by
            rcases extended_of_endOf? hupper hhi with
              ⟨_, rfl, rfl⟩ | ⟨b, hb, hdefined, rfl, hvalue⟩
            · refine ⟨ρ.defined_infinity, fun v a _ => ?_⟩
              rw [ρ.lit_infinity]
              exact EReal.coe_lt_top a
            · refine ⟨hdefined, fun v a ha => ?_⟩
              rw [← hvalue v]
              exact ha.2 b hb
          exact ⟨⟨hlo'.1, hhi'.1⟩, fun v a ha =>
            ⟨⟨hlo'.1, hhi'.1⟩, hlo'.2 v a ha, hhi'.2 v a ha⟩⟩
      · cases h
  | relation q =>
      obtain ⟨x, hx, rfl⟩ := Option.map_eq_some_iff.mp h
      obtain ⟨hdefined, hvalue⟩ := hlegible q.rhs (by simp [bounds]) x hx
      have hends := Range.definedEnds_ofComparison ρ q.op hdefined
      refine ⟨hends, fun v a ha => .of_covers hends ?_⟩
      by_cases hne : q.op = .ne
      · rw [hne]
        exact Range.covers_full ρ a
      · rw [Range.covers_ofComparison ρ hne, ← hvalue v]
        exact ha

/-- Under exact arithmetic determinate bounds suffice. -/
theorem encloses_of_range? (hρ : ρ.Exact) {c : Constraint R} (hdet : c.Determinate)
    {r : Range R} (h : c.range? = some r) :
    r.DefinedEnds ∧ ∀ (v : Valuation ℝ) (a : ℝ), c.Allows ρ v a → r.Encloses ρ a :=
  (hdet.legible hρ).encloses h

end Constraint

/-- Images of all elements, if each has one, are the images. -/
theorem mem_mapM_iff {α β : Type} {f : α → Option β} {xs : List α} {ys : List β}
    (h : xs.mapM f = some ys) (y : β) : y ∈ ys ↔ ∃ x ∈ xs, f x = some y := by
  induction xs generalizing ys with
  | nil =>
      have hnil : ([] : List β) = ys := by simpa using h
      simp [← hnil]
  | cons x xs ih =>
      rw [List.mapM_cons] at h
      cases hx : f x with
      | none => simp [hx] at h
      | some z =>
          cases hxs : xs.mapM f with
          | none => simp [hx, hxs] at h
          | some zs =>
              have hcons : z :: zs = ys := by simpa [hx, hxs] using h
              rw [← hcons, List.mem_cons, ih hxs]
              simp [hx, eq_comm]

/-- Every element has an image, if all images are collected. -/
theorem exists_of_mapM {α β : Type} {f : α → Option β} {xs : List α} {ys : List β}
    (h : xs.mapM f = some ys) {x : α} (hx : x ∈ xs) : ∃ y ∈ ys, f x = some y := by
  induction xs generalizing ys with
  | nil => cases hx
  | cons x' xs ih =>
      rw [List.mapM_cons] at h
      cases hx' : f x' with
      | none => simp [hx'] at h
      | some z =>
          cases hxs : xs.mapM f with
          | none => simp [hx', hxs] at h
          | some zs =>
              have hcons : z :: zs = ys := by simpa [hx', hxs] using h
              rw [← hcons]
              rcases List.mem_cons.mp hx with rfl | hx
              · exact ⟨z, by simp, hx'⟩
              · obtain ⟨y, hy, hfy⟩ := ih hxs hx
                exact ⟨y, List.mem_cons_of_mem _ hy, hfy⟩

namespace Boundary

/-- The ranges of a boundary have defined ends, and one of them encloses an allowed
value. -/
theorem encloses_of_mapM {b : Boundary R} (hlegible : b.Legible ρ) {rs : List (Range R)}
    (h : b.items.mapM Constraint.range? = some rs) :
    (∀ r ∈ rs, r.DefinedEnds) ∧
      ∀ (v : Valuation ℝ) (a : ℝ), b.Allows ρ v a → ∃ r ∈ rs, r.Encloses ρ a := by
  refine ⟨fun r hr => ?_, fun v a ha => ?_⟩
  · obtain ⟨c, hc, hrange⟩ := (mem_mapM_iff h r).mp hr
    exact ((hlegible c hc).encloses hrange).1
  · obtain ⟨c, hc, hca⟩ := ha
    obtain ⟨r, hr, hrange⟩ := exists_of_mapM h hc
    exact ⟨r, hr, ((hlegible c hc).encloses hrange).2 v a hca⟩

/-- A hull of ranges encloses what one of them encloses. -/
theorem encloses_foldl_hull {a : ℝ} {r : Range R} {rs : List (Range R)}
    (hr : r.DefinedEnds) (hrs : ∀ s ∈ rs, s.DefinedEnds)
    (h : ∃ s ∈ r :: rs, s.Encloses ρ a) : (rs.foldl Range.hull r).Encloses ρ a := by
  induction rs generalizing r with
  | nil =>
      obtain ⟨s, hs, hsa⟩ := h
      exact List.mem_singleton.mp hs ▸ hsa
  | cons s rs ih =>
      rw [List.forall_mem_cons] at hrs
      refine ih (Range.Encloses.definedEnds_hull ρ hr hrs.1) hrs.2 ?_
      obtain ⟨t, ht, hta⟩ := h
      rcases List.mem_cons.mp ht with rfl | ht
      · exact ⟨t.hull s, by simp, hta.hull_left hrs.1⟩
      · rcases List.mem_cons.mp ht with rfl | ht
        · exact ⟨r.hull t, by simp, Range.Encloses.hull_right hr hta⟩
        · exact ⟨t, List.mem_cons_of_mem _ ht, hta⟩

/-- The hull of a boundary encloses what the boundary allows. -/
theorem encloses_of_hull? {b : Boundary R} (hlegible : b.Legible ρ) {r : Range R}
    (h : b.hull? = some r) {a : ℝ} (ha : b.Allows ρ v a) : r.Encloses ρ a := by
  unfold hull? at h
  split at h
  · next r' rs hrs =>
      cases h
      obtain ⟨hdefined, hencloses⟩ := encloses_of_mapM hlegible hrs
      rw [List.forall_mem_cons] at hdefined
      exact encloses_foldl_hull hdefined.1 hdefined.2 (hencloses v a ha)
  · cases h

end Boundary

/-- The interval of a range allows what the range covers. -/
theorem Range.allows_toInterval {r : Range R} {a : EReal} (h : r.Covers ρ a) (t : Term R) :
    (Constraint.interval (r.toInterval t)).Allows ρ v a := by
  obtain ⟨hlower, hupper⟩ := h
  refine ⟨fun b hb => ?_, fun b hb => ?_⟩
  · unfold Range.toInterval at hb
    by_cases hfinite : Scalar.isFinite r.lo = true
    · obtain rfl : (⟨.num r.lo, r.loStrict⟩ : Bound R) = b := by simpa [hfinite] using hb
      rw [Term.extended_num]
      exact hlower
    · simp [hfinite] at hb
  · unfold Range.toInterval at hb
    by_cases hfinite : Scalar.isFinite r.hi = true
    · obtain rfl : (⟨.num r.hi, r.hiStrict⟩ : Bound R) = b := by simpa [hfinite] using hb
      rw [Term.extended_num]
      exact hupper
    · simp [hfinite] at hb

/-- The bounds of the interval of a range are finite literals. -/
theorem Range.isBound_toInterval (r : Range R) (t : Term R) :
    ∀ u ∈ (Constraint.interval (r.toInterval t)).bounds, u.IsBound := by
  intro u hu
  unfold Range.toInterval Constraint.bounds at hu
  rcases List.mem_append.mp hu with hu | hu <;> obtain ⟨b, hb, rfl⟩ := List.mem_map.mp hu
  · by_cases hfinite : Scalar.isFinite r.lo = true
    · obtain rfl : b = ⟨.num r.lo, r.loStrict⟩ := by simpa [hfinite] using hb
      exact Or.inl ⟨r.lo, rfl, ExtendedReading.defined_of_isFinite hfinite⟩
    · simp [hfinite] at hb
  · by_cases hfinite : Scalar.isFinite r.hi = true
    · obtain rfl : b = ⟨.num r.hi, r.hiStrict⟩ := by simpa [hfinite] using hb
      exact Or.inl ⟨r.hi, rfl, ExtendedReading.defined_of_isFinite hfinite⟩
    · simp [hfinite] at hb

theorem Range.determinate_toInterval (r : Range R) (t : Term R) :
    (Constraint.interval (r.toInterval t)).Determinate :=
  fun u hu _ ha => ((r.isBound_toInterval t u hu).eq_num ha).2

namespace Boundary

/-- Every constraint of a boundary with mapped ranges is the interval of an image. -/
theorem mem_items_mapRanges? {b b' : Boundary R} {t : Term R} {f : Range R → Range R}
    (h : b.mapRanges? t f = some b') {c : Constraint R} (hc : c ∈ b'.items) :
    ∃ r, c = .interval ((f r).toInterval t) := by
  obtain ⟨rs, _, rfl⟩ := Option.map_eq_some_iff.mp h
  obtain ⟨r, _, rfl⟩ := List.mem_map.mp (mem_of_mem_distinct hc)
  exact ⟨r, rfl⟩

/-- A boundary with mapped ranges allows, in every valuation, the image of a value that was
allowed. -/
theorem allows_mapRanges? {b b' : Boundary R} (hlegible : b.Legible ρ) {t : Term R}
    {f : Range R → Range R} (h : b.mapRanges? t f = some b') {a y : ℝ}
    (ha : b.Allows ρ v a) (hf : ∀ r, r.Encloses ρ a → (f r).Covers ρ y)
    (v' : Valuation ℝ) : b'.Allows ρ v' y := by
  obtain ⟨rs, hrs, rfl⟩ := Option.map_eq_some_iff.mp h
  obtain ⟨r, hr, hra⟩ := (encloses_of_mapM hlegible hrs).2 v a ha
  refine (exists_distinct_iff fun _ _ h => Constraint.allows_of_beq h).mpr
    ⟨_, List.mem_map_of_mem hr, ?_⟩
  exact Range.allows_toInterval (hf r hra) t

theorem about_ofRange (t : Term R) (r : Range R) : (ofRange t r).About t := by
  simp [About, ofRange, Constraint.subject, Range.toInterval]

theorem allows_ofRange {r : Range R} {a : EReal} (h : r.Covers ρ a) (t : Term R) :
    (ofRange t r).Allows ρ v a :=
  ⟨_, by simp [ofRange], Range.allows_toInterval h t⟩

theorem determinate_ofRange (t : Term R) (r : Range R) : (ofRange t r).Determinate := by
  intro c hc
  obtain rfl : c = .interval (r.toInterval t) := by simpa [ofRange] using hc
  exact r.determinate_toInterval t

end Boundary

namespace Fact

/-- A fact with mapped ranges is about the new term, with determinate bounds. -/
theorem about_mapRanges? {p q : Fact R} {t : Term R} {f : Range R → Range R}
    (h : p.mapRanges? t f = some q) : q.About t ∧ q.Determinate := by
  have hboundary : ∀ {b b' : Boundary R}, b.mapRanges? t f = some b' → b'.About t ∧
      b'.Determinate := by
    intro b b' hb
    refine ⟨fun c hc => ?_, fun c hc => ?_⟩ <;> obtain ⟨r, rfl⟩ :=
      Boundary.mem_items_mapRanges? hb hc
    · rfl
    · exact (f r).determinate_toInterval t
  unfold mapRanges? at h
  split at h
  · next bs =>
      obtain ⟨bs', hbs', rfl⟩ := Option.map_eq_some_iff.mp h
      have hparts : ∀ b' ∈ distinct bs', b'.About t ∧ b'.Determinate := by
        intro b' hb'
        obtain ⟨b, _, hb⟩ := (mem_mapM_iff hbs' b').mp (mem_of_mem_distinct hb')
        exact hboundary hb
      refine ⟨fun b' hb' => (hparts b' hb').1, fun c hc => ?_⟩
      obtain ⟨b', hb', hcb'⟩ := List.mem_flatMap.mp hc
      exact (hparts b' hb').2 c hcb'
  · obtain ⟨b', hb', rfl⟩ := Option.map_eq_some_iff.mp h
    obtain ⟨b, _, hb⟩ := Option.bind_eq_some_iff.mp hb'
    exact hboundary hb

/-- A fact with mapped ranges allows, in every valuation, the image of a value that was
allowed. -/
theorem allows_mapRanges? {p q : Fact R} (hlegible : p.Legible ρ) {t : Term R}
    {f : Range R → Range R} (h : p.mapRanges? t f = some q) {a y : ℝ} (ha : p.Allows ρ v a)
    (hf : ∀ r, r.Encloses ρ a → (f r).Covers ρ y) (v' : Valuation ℝ) :
    q.Allows ρ v' y := by
  unfold mapRanges? at h
  split at h
  · next bs =>
      obtain ⟨bs', hbs', rfl⟩ := Option.map_eq_some_iff.mp h
      obtain ⟨b, hb, hba⟩ := ha
      obtain ⟨b', hb', hmap⟩ := exists_of_mapM hbs' hb
      have hblegible : b.Legible ρ := fun c hc =>
        hlegible c (List.mem_flatMap.mpr ⟨b, hb, hc⟩)
      refine (exists_distinct_iff fun _ _ h => Boundary.allows_of_beq h).mpr ⟨b', hb', ?_⟩
      exact Boundary.allows_mapRanges? hblegible hmap hba hf v'
  · obtain ⟨b', hb', rfl⟩ := Option.map_eq_some_iff.mp h
    obtain ⟨b, hb, hmap⟩ := Option.bind_eq_some_iff.mp hb'
    exact Boundary.allows_mapRanges? (hlegible.asBoundary? hb) hmap
      ((allows_of_asBoundary? hb).mp ha) hf v'

/-- A fact narrows what is known, or is passed over. -/
theorem encloses_meetHull {p : Fact R} {a : ℝ} (hlegible : p.Legible ρ)
    (ha : p.Allows ρ v a) {known : Option (Range R)}
    (hknown : ∀ r ∈ known, r.Encloses ρ a) :
    ∀ r ∈ Range.meetHull known p, r.Encloses ρ a := by
  intro r hr
  unfold Range.meetHull at hr
  split at hr
  · exact hknown r hr
  · next hull hhull =>
      obtain ⟨b, hb, hbhull⟩ := Option.bind_eq_some_iff.mp hhull
      have hencloses := Boundary.encloses_of_hull? (hlegible.asBoundary? hb) hbhull
        ((allows_of_asBoundary? hb).mp ha)
      cases known with
      | none =>
          cases hr
          exact hencloses
      | some s =>
          obtain ⟨meet, hmeet, hmeeta⟩ := (hknown s rfl).intersect? hencloses
          simp only [hmeet, Option.getD_some] at hr
          cases hr
          exact hmeeta

/-- The common range of facts encloses what all of them allow. -/
theorem encloses_of_hullOf? {facts : List (Fact R)} {a : ℝ}
    (hfacts : ∀ p ∈ facts, p.Legible ρ ∧ p.Allows ρ v a) {r : Range R}
    (h : hullOf? facts = some r) : r.Encloses ρ a :=
  List.foldlRecOn (motive := fun known : Option (Range R) =>
    ∀ r ∈ known, r.Encloses ρ a) facts Range.meetHull
    (by simp) (fun _ hknown p hp =>
      encloses_meetHull (hfacts p hp).1 (hfacts p hp).2 hknown) r h

/-- The common range of boundaries exists, and encloses what all of them allow. -/
theorem encloses_meetHulls? {bs : List (Boundary R)} {a : ℝ}
    (hbs : ∀ b ∈ bs, b.Legible ρ ∧ b.Allows ρ v a) {acc : Range R}
    (hacc : acc.Encloses ρ a) : ∃ r, meetHulls? acc bs = some r ∧ r.Encloses ρ a := by
  induction bs generalizing acc with
  | nil => exact ⟨acc, rfl, hacc⟩
  | cons b bs ih =>
      rw [List.forall_mem_cons] at hbs
      unfold meetHulls?
      cases hhull : b.hull? with
      | none => exact ih hbs.2 hacc
      | some s =>
          obtain ⟨meet, hmeet, hmeeta⟩ :=
            hacc.intersect? (Boundary.encloses_of_hull? hbs.1.1 hhull hbs.1.2)
          simp only [hmeet]
          exact ih hbs.2 hmeeta

/-- The boundary that stands for several facts allows what all of them allow. -/
theorem allows_conjoin? {facts : List (Fact R)} {a : ℝ}
    (hfacts : ∀ p ∈ facts, p.Legible ρ ∧ p.Allows ρ v a) {t : Term R} {b : Boundary R}
    (h : conjoin? t facts = some b) : b.Allows ρ v a := by
  have hparts : ∀ b ∈ facts.filterMap asBoundary?, b.Legible ρ ∧ b.Allows ρ v a := by
    intro b hb
    obtain ⟨p, hp, hpb⟩ := List.mem_filterMap.mp hb
    exact ⟨(hfacts p hp).1.asBoundary? hpb, (allows_of_asBoundary? hpb).mp (hfacts p hp).2⟩
  unfold conjoin? at h
  split at h
  · cases h
  · next b' hb' =>
      cases h
      rw [b'.allows_retarget]
      exact (hparts b' (by simp [hb'])).2
  · next b' bs _ hbs =>
      rw [hbs] at hparts
      obtain ⟨r, hr, hra⟩ := encloses_meetHulls? hparts (Range.Encloses.full ρ a)
      rw [hr] at h
      cases h
      exact Boundary.allows_ofRange hra.covers t

end Fact

end Ranges

end SignalFlow
