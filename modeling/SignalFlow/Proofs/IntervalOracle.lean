import SignalFlow.Proofs.Binary64Order
import SignalFlow.Proofs.Clauses
import SignalFlow.Proofs.RangeMeaning
import SignalFlow.Satisfiability.Interval

/-!
# The interval oracle

The oracle reads every relation of a clause as a bound on one variable, a comparison of
constants, or nothing it understands.  What it knows after some relations allows exactly
the valuations that satisfy those it understood, so that a contradiction excludes every
valuation.  At the end each variable has a proper range and finitely many excluded points;
unless such a point is all that is left, a value can be chosen for every variable on its
own.

**Results.**
* `classify_describes`: how a relation is read.
* `narrow?_none`, `narrow?_some`: a bound narrows what is allowed, and nothing else.
* `exists_allowed`: some valuation is allowed, unless an excluded point is the only value
  left.
* `decideFrom_answers`, `decideAny_answers`: the verdict on a clause and on a disjunction
  of clauses.
-/

namespace SignalFlow

variable {R : Type}

theorem Term.varsList_eq_flatMap (ts : List (Term R)) : varsList ts = ts.flatMap vars := by
  induction ts with
  | nil => simp [varsList]
  | cons t ts ih => simp [varsList, ih]

variable [Scalar R]

namespace Term

theorem value?_of_sumFrom? {ts : List (Term R)} {acc a : R}
    (h : sumFrom? acc ts = some a) : ∀ t ∈ ts, ∃ b, t.value? = some b := by
  induction ts generalizing acc with
  | nil => simp
  | cons t ts ih =>
      rw [sumFrom?] at h
      split at h
      · cases h
      · next b hb => exact List.forall_mem_cons.mpr ⟨⟨b, hb⟩, ih h⟩

theorem value?_of_productFrom? {ts : List (Term R)} {acc a : R}
    (h : productFrom? acc ts = some a) : ∀ t ∈ ts, ∃ b, t.value? = some b := by
  induction ts generalizing acc with
  | nil => simp
  | cons t ts ih =>
      rw [productFrom?] at h
      split at h
      · cases h
      · next b hb => exact List.forall_mem_cons.mpr ⟨⟨b, hb⟩, ih h⟩

/-- A term with a value has no variables. -/
theorem vars_eq_nil_of_value? {t : Term R} {a : R} (h : t.value? = some a) :
    t.vars = [] := by
  induction t generalizing a with
  | num b => simp [vars]
  | var x => simp [value?] at h
  | add ts ih =>
      rw [value?] at h
      rw [vars, varsList_eq_flatMap, List.flatMap_eq_nil_iff]
      intro t ht
      obtain ⟨b, hb⟩ := value?_of_sumFrom? h t ht
      exact ih t ht hb
  | mul ts ih =>
      rw [value?] at h
      rw [vars, varsList_eq_flatMap, List.flatMap_eq_nil_iff]
      intro t ht
      obtain ⟨b, hb⟩ := value?_of_productFrom? h t ht
      exact ih t ht hb
  | neg t ih =>
      simp only [value?, Option.map_eq_some_iff] at h
      obtain ⟨b, hb, _⟩ := h
      simpa [vars] using ih hb
  | div t u iht ihu =>
      simp only [value?] at h
      split at h
      · cases h
      · next d hd =>
          split at h
          · cases h
          · obtain ⟨b, hb, _⟩ := Option.map_eq_some_iff.mp h
            simp [vars, iht hb, ihu hd]
  | pow t u iht ihu =>
      simp only [value?] at h
      split at h
      · next b c hb hc => simp [vars, iht hb, ihu hc]
      · cases h

/-- A term without variables is a single defined literal. -/
def LiteralIfConstant (t : Term R) : Prop :=
  t.vars = [] → ∃ a, t = .num a ∧ Scalar.Defined a

theorem literalIfConstant_num {a : R} (h : Scalar.Defined a) :
    (Term.num a).LiteralIfConstant :=
  fun _ => ⟨a, rfl, h⟩

theorem literalIfConstant_var (x : String) : (Term.var x : Term R).LiteralIfConstant := by
  intro h
  simp [vars] at h

theorem LiteralIfConstant.cases {t : Term R} (h : t.LiteralIfConstant) :
    (∃ a, t = .num a ∧ Scalar.Defined a) ∨ t.value? = none := by
  cases ht : t.value? with
  | none => exact Or.inr rfl
  | some a => exact Or.inl (h (vars_eq_nil_of_value? ht))

end Term

namespace Relation

/-- The constant sides are single defined literals. -/
def LiteralConstants (r : Relation R) : Prop :=
  r.lhs.LiteralIfConstant ∧ r.rhs.LiteralIfConstant

/-- A variable is compared with a literal, or two literals are compared. -/
def Simple (r : Relation R) : Prop :=
  match r.lhs, r.rhs with
  | .var _, .num _ => True
  | .num _, .var _ => True
  | .num _, .num _ => True
  | _, _ => False

end Relation

namespace Satisfiability

variable (ρ : ExtendedReading R)

/-- What the oracle takes a relation for says what the relation says. -/
def Atom.Describes (r : Relation R) : Atom R → Prop
  | .bound x op c =>
      Scalar.Defined c ∧ ∀ v : Valuation ℝ, r.TrueAt ρ v ↔
        op.Compares (v x : EReal) (ρ.lit c)
  | .ground holds => ∀ v : Valuation ℝ, r.TrueAt ρ v ↔ holds = true
  | .unclear => ¬r.Simple

theorem not_simple_of_value? {r : Relation R} (hl : r.lhs.value? = none)
    (hr : r.rhs.value? = none) : ¬r.Simple := by
  intro h
  unfold Relation.Simple at h
  split at h
  · next x a _ hrhs => simp [hrhs] at hr
  · next a x hlhs _ => simp [hlhs] at hl
  · next a b hlhs _ => simp [hlhs] at hl
  · exact h

/-- Relations with literals for constants are read, and the simple ones are understood. -/
theorem classify_describes {r : Relation R} (hr : r.LiteralConstants) :
    ∃ atom, classify r = .ok atom ∧ atom.Describes ρ r := by
  obtain ⟨lhs, op, rhs⟩ := r
  obtain ⟨hl, hr⟩ := hr
  simp only at hl hr
  rcases hl.cases with ⟨a, rfl, ha⟩ | hlhs
  · have ha' : Scalar.isUndefined a = false := ha
    rcases hr.cases with ⟨b, rfl, hb⟩ | hrhs
    · have hb' : Scalar.isUndefined b = false := hb
      refine ⟨.ground (op.holds a b), by simp [classify, ha', hb'], fun v => ?_⟩
      simpa [Relation.TrueAt] using (op.holds_iff_compares ρ ha hb).symm
    · cases rhs with
      | var x =>
          refine ⟨.bound x op.flip a, by simp [classify, ha'], ha, fun v => ?_⟩
          simpa [Relation.TrueAt] using (op.compares_flip _ _).symm
      | num b => simp at hrhs
      | _ =>
          refine ⟨.unclear, by simp [classify, hrhs, ha'], ?_⟩
          simp [Atom.Describes, Relation.Simple]
  · rcases hr.cases with ⟨b, rfl, hb⟩ | hrhs
    · have hb' : Scalar.isUndefined b = false := hb
      cases lhs with
      | var x =>
          refine ⟨.bound x op b, by simp [classify, hb'], hb, fun v => ?_⟩
          simp [Relation.TrueAt]
      | num a => simp at hlhs
      | _ =>
          refine ⟨.unclear, by simp [classify, hlhs, hb'], ?_⟩
          simp [Atom.Describes, Relation.Simple]
    · exact ⟨.unclear, by simp [classify, hlhs, hrhs], not_simple_of_value? hlhs hrhs⟩

namespace Knowledge

/-- The ranges are proper and the excluded points are defined. -/
structure WellKept (k : Knowledge R) : Prop where
  proper : ∀ e ∈ k.ranges, e.2.Proper ρ
  defined : ∀ e ∈ k.excluded, Scalar.Defined e.2

/-- The valuation agrees with what is known. -/
structure Allows (k : Knowledge R) (v : Valuation ℝ) : Prop where
  covered : ∀ x, (k.rangeOf x).Covers ρ (v x)
  apart : ∀ e ∈ k.excluded, (v e.1 : EReal) ≠ ρ.lit e.2

theorem wellKept_empty : (empty : Knowledge R).WellKept ρ :=
  ⟨by simp [empty], by simp [empty]⟩

/-- Without knowledge every valuation is allowed. -/
theorem allows_empty (v : Valuation ℝ) : (empty : Knowledge R).Allows ρ v :=
  ⟨fun x => Range.covers_full ρ (v x), by simp [empty]⟩

variable {k : Knowledge R}

theorem WellKept.proper_of_lookup (hk : k.WellKept ρ) {x : String} {r : Range R}
    (h : k.ranges.lookup x = some r) : r.Proper ρ := by
  obtain ⟨before, after, hranges, _⟩ := List.lookup_eq_some_iff.mp h
  exact hk.proper (x, r) (by simp [hranges])

theorem WellKept.proper_rangeOf (hk : k.WellKept ρ) (x : String) :
    (k.rangeOf x).Proper ρ := by
  unfold rangeOf
  cases h : k.ranges.lookup x with
  | none => exact Range.proper_full ρ
  | some r => exact hk.proper_of_lookup ρ h

theorem lookup_filter_ne {α : Type} {es : List (String × α)} {x y : String} (h : y ≠ x) :
    (es.filter fun e => e.1 != x).lookup y = es.lookup y := by
  induction es with
  | nil => rfl
  | cons e es ih =>
      obtain ⟨z, a⟩ := e
      by_cases hz : z = x
      · subst hz
        have hy : (y == z) = false := by simpa using h
        simp [List.lookup_cons, ih, hy]
      · have hz' : (z != x) = true := by simpa using hz
        simp [hz', List.lookup_cons, ih]

theorem rangeOf_setRange_self (x : String) (r : Range R) :
    (k.setRange x r).rangeOf x = r := by
  simp [rangeOf, setRange]

theorem rangeOf_setRange_of_ne {x y : String} (h : y ≠ x) (r : Range R) :
    (k.setRange x r).rangeOf y = k.rangeOf y := by
  have hy : (y == x) = false := by simpa using h
  simp [rangeOf, setRange, List.lookup_cons, hy, lookup_filter_ne h]

/-- A bound that leaves nothing contradicts what is known. -/
theorem narrow?_none (hk : k.WellKept ρ) {x : String} {r : Range R} (hr : r.DefinedEnds)
    (h : k.narrow? x r = none) {v : Valuation ℝ} (hv : k.Allows ρ v) :
    ¬r.Covers ρ (v x) := by
  have hdefined := (hk.proper_rangeOf ρ x).defined
  rw [narrow?, Option.map_eq_none_iff, Range.intersect?_eq] at h
  split at h
  · next hempty =>
      intro hcovers
      have hmeet := (Range.covers_meet ρ hdefined hr (v x)).mpr ⟨hv.covered x, hcovers⟩
      exact Range.not_covers_of_isEmpty ρ (Range.definedEnds_meet ρ hdefined hr)
        hempty _ hmeet
  · cases h

/-- A bound narrows what is allowed to what it covers. -/
theorem narrow?_some (hk : k.WellKept ρ) {x : String} {r : Range R} (hr : r.DefinedEnds)
    {k' : Knowledge R} (h : k.narrow? x r = some k') :
    k'.WellKept ρ ∧ k'.unclear = k.unclear ∧
      ∀ v, k'.Allows ρ v ↔ k.Allows ρ v ∧ r.Covers ρ (v x) := by
  have hproper := hk.proper_rangeOf ρ x
  rw [narrow?, Option.map_eq_some_iff] at h
  obtain ⟨m, hm, rfl⟩ := h
  rw [Range.intersect?_eq] at hm
  split at hm
  · cases hm
  · next hempty =>
      cases hm
      have hmeet := Range.covers_meet ρ hproper.defined hr
      refine ⟨⟨?_, hk.defined⟩, rfl, fun v => ?_⟩
      · simp only [setRange, List.mem_cons, List.mem_filter]
        rintro e (rfl | he)
        · exact Range.proper_meet ρ hproper hr (by simpa using hempty)
        · exact hk.proper e he.1
      · constructor
        · intro hv
          have hx := hv.covered x
          rw [rangeOf_setRange_self, hmeet] at hx
          refine ⟨⟨fun y => ?_, hv.apart⟩, hx.2⟩
          by_cases hy : y = x
          · rw [hy]
            exact hx.1
          · have hcovered := hv.covered y
            rwa [rangeOf_setRange_of_ne hy] at hcovered
        · rintro ⟨hv, hx⟩
          refine ⟨fun y => ?_, hv.apart⟩
          by_cases hy : y = x
          · rw [hy, rangeOf_setRange_self, hmeet]
            exact ⟨hv.covered x, hx⟩
          · rw [rangeOf_setRange_of_ne hy]
            exact hv.covered y

/-- An excluded point is taken in. -/
theorem allows_exclude {x : String} {b : R} {v : Valuation ℝ} :
    Allows ρ { k with excluded := k.excluded ++ [(x, b)] } v ↔
      k.Allows ρ v ∧ (v x : EReal) ≠ ρ.lit b := by
  constructor
  · rintro ⟨hcovered, hapart⟩
    rw [List.forall_mem_append, List.forall_mem_singleton] at hapart
    exact ⟨⟨hcovered, hapart.1⟩, hapart.2⟩
  · rintro ⟨⟨hcovered, hapart⟩, hx⟩
    refine ⟨hcovered, ?_⟩
    rw [List.forall_mem_append, List.forall_mem_singleton]
    exact ⟨hapart, hx⟩

/-- A range that is a point has been bounded, and its only value is noticed. -/
theorem WellKept.pinned_of_point (hk : k.WellKept ρ) {x : String} {c : R}
    (hc : Scalar.Defined c) (hpoint : ρ.lit (k.rangeOf x).lo = ρ.lit (k.rangeOf x).hi)
    (heq : ρ.lit c = ρ.lit (k.rangeOf x).lo) : k.pinned x c = true := by
  unfold rangeOf at hpoint heq
  cases h : k.ranges.lookup x with
  | none => simp [h, Range.full, ρ.lit_infinity, ρ.lit_neg_infinity] at hpoint
  | some r =>
      have hdefined := (hk.proper_of_lookup ρ h).defined
      simp only [h, Option.getD_some] at hpoint heq
      simp only [pinned, h, Bool.and_eq_true]
      exact ⟨(ρ.beq_iff hdefined.1 hc).mpr heq.symm,
        (ρ.beq_iff hdefined.2 hc).mpr (hpoint.symm.trans heq.symm)⟩

/-- Some valuation is allowed, unless the only value left for a variable is excluded. -/
theorem exists_allowed (hk : k.WellKept ρ)
    (h : k.excluded.any (fun e => k.pinned e.1 e.2) = false) : ∃ v, k.Allows ρ v := by
  rw [List.any_eq_false] at h
  have hvalue : ∀ x, ∃ c : ℝ, (k.rangeOf x).Covers ρ c ∧
      ∀ e ∈ k.excluded, e.1 = x → (c : EReal) ≠ ρ.lit e.2 := by
    intro x
    have hapart : ρ.lit (k.rangeOf x).lo = ρ.lit (k.rangeOf x).hi →
        ∀ c ∈ (k.excluded.filter fun e => e.1 == x).map Prod.snd,
          ρ.lit c ≠ ρ.lit (k.rangeOf x).lo := by
      intro hpoint
      rw [List.forall_mem_map]
      intro e he heq
      rw [List.mem_filter, beq_iff_eq] at he
      obtain ⟨he, rfl⟩ := he
      exact h e he (hk.pinned_of_point ρ (hk.defined e he) hpoint heq)
    obtain ⟨c, hc, hne⟩ := Range.exists_covered ρ (hk.proper_rangeOf ρ x) _ hapart
    refine ⟨c, hc, fun e he hx => hne e.2 (List.mem_map.mpr ⟨e, ?_, rfl⟩)⟩
    simp [he, hx]
  choose v hv using hvalue
  exact ⟨v, fun x => (hv x).1, fun e he => (hv e.1).2 e he rfl⟩

/-- An excluded point that is all that is left contradicts what is known. -/
theorem not_allows_of_pinned
    (h : k.excluded.any (fun e => k.pinned e.1 e.2) = true) (v : Valuation ℝ) :
    ¬k.Allows ρ v := by
  intro hv
  obtain ⟨e, he, hpinned⟩ := List.any_eq_true.mp h
  unfold pinned at hpinned
  split at hpinned
  · next r hr =>
      have hrange : k.rangeOf e.1 = r := by simp [rangeOf, hr]
      simp only [Bool.and_eq_true] at hpinned
      have hlo := ρ.lit_eq_of_beq hpinned.1
      have hhi := ρ.lit_eq_of_beq hpinned.2
      obtain ⟨hge, hle⟩ := hv.covered e.1
      rw [hrange, hlo] at hge
      rw [hrange, hhi] at hle
      have hle' : (v e.1 : EReal) ≤ ρ.lit e.2 := by
        split at hle
        · exact hle.le
        · exact hle
      have hge' : ρ.lit e.2 ≤ (v e.1 : EReal) := by
        split at hge
        · exact hge.le
        · exact hge
      exact hv.apart e he (le_antisymm hle' hge')
  · cases hpinned

end Knowledge

/-- A verdict that is right about a condition on valuations, and definite if the condition
is `clear`. -/
structure Answers (verdict : Verdict) (condition : Valuation ℝ → Prop)
    (clear : Prop) : Prop where
  unsatisfiable : verdict = .unsatisfiable → ∀ v, ¬condition v
  satisfiable : verdict = .satisfiable → ∃ v, condition v
  definite : clear → verdict = .satisfiable ∨ verdict = .unsatisfiable

theorem Answers.congr {verdict : Verdict} {condition condition' : Valuation ℝ → Prop}
    {clear clear' : Prop} (h : Answers verdict condition clear)
    (hcondition : ∀ v, condition v ↔ condition' v) (hclear : clear' → clear) :
    Answers verdict condition' clear' := by
  refine ⟨fun hu v hv => ?_, fun hs => ?_, fun hc => h.definite (hclear hc)⟩
  · exact h.unsatisfiable hu v ((hcondition v).mpr hv)
  · obtain ⟨v, hv⟩ := h.satisfiable hs
    exact ⟨v, (hcondition v).mp hv⟩

theorem answers_unsatisfiable {condition : Valuation ℝ → Prop} {clear : Prop}
    (h : ∀ v, ¬condition v) : Answers .unsatisfiable condition clear :=
  ⟨fun _ => h, nofun, fun _ => Or.inr rfl⟩

theorem Knowledge.verdict_answers {k : Knowledge R} (hk : k.WellKept ρ) :
    Answers k.verdict (k.Allows ρ) (k.unclear = false) := by
  unfold verdict
  split
  · next h => exact answers_unsatisfiable (Knowledge.not_allows_of_pinned ρ h)
  · next h =>
      have hallowed := Knowledge.exists_allowed ρ hk (by simpa using h)
      split
      · next hunclear =>
          refine ⟨nofun, nofun, fun hc => ?_⟩
          simp [hunclear] at hc
      · exact ⟨nofun, fun _ => hallowed, fun _ => Or.inl rfl⟩

/-- Once a relation was not understood, a clause is not called satisfiable. -/
theorem decideFrom_ne_satisfiable {c : Clause R} {k : Knowledge R}
    (hk : k.unclear = true) : decideFrom k c ≠ .satisfiable := by
  induction c generalizing k with
  | nil =>
      simp only [decideFrom, Knowledge.verdict, hk, if_true]
      split <;> simp
  | cons r rs ih =>
      rw [decideFrom]
      split
      · simp
      · exact ih hk
      · simp
      · exact ih rfl
      · exact ih hk
      · split
        · simp
        · next x op b _ _ k' hk' =>
            obtain ⟨m, _, rfl⟩ := Option.map_eq_some_iff.mp hk'
            exact ih hk

theorem decideFrom_bound {r : Relation R} {x : String} {op : Comparison} {b : R}
    (h : classify r = .ok (.bound x op b)) (hop : op ≠ .ne) (k : Knowledge R)
    (rs : Clause R) :
    decideFrom k (r :: rs) =
      match k.narrow? x (.ofComparison op b) with
      | none => .unsatisfiable
      | some k' => decideFrom k' rs := by
  rw [decideFrom, h]
  cases op with
  | ne => exact absurd rfl hop
  | _ => rfl

/-- The verdict on a clause, given what is known from its earlier relations. -/
theorem decideFrom_answers {c : Clause R} (hc : ∀ r ∈ c, r.LiteralConstants)
    {k : Knowledge R} (hk : k.WellKept ρ) :
    Answers (decideFrom k c) (fun v => k.Allows ρ v ∧ ∀ r ∈ c, r.TrueAt ρ v)
      (k.unclear = false ∧ ∀ r ∈ c, r.Simple) := by
  induction c generalizing k with
  | nil => exact (Knowledge.verdict_answers ρ hk).congr (by simp) And.left
  | cons r rs ih =>
      rw [List.forall_mem_cons] at hc
      obtain ⟨atom, hatom, hdescribes⟩ := classify_describes ρ hc.1
      simp only [List.forall_mem_cons]
      cases atom with
      | ground holds =>
          rw [decideFrom, hatom]
          cases holds with
          | true =>
              refine (ih hc.2 hk).congr (fun v => ?_) (fun h => ⟨h.1, h.2.2⟩)
              simp [(hdescribes v).mpr rfl]
          | false =>
              refine answers_unsatisfiable fun v hv => ?_
              exact absurd ((hdescribes v).mp hv.2.1) Bool.false_ne_true
      | unclear =>
          rw [decideFrom, hatom]
          have hrest := ih hc.2 (k := { k with unclear := true }) ⟨hk.proper, hk.defined⟩
          refine ⟨fun hu v hv => ?_, fun hs => ?_, fun h => absurd h.2.1 hdescribes⟩
          · exact hrest.unsatisfiable hu v ⟨⟨hv.1.covered, hv.1.apart⟩, hv.2.2⟩
          · exact absurd hs (decideFrom_ne_satisfiable rfl)
      | bound x op b =>
          obtain ⟨hb, htrue⟩ := hdescribes
          by_cases hop : op = .ne
          · subst hop
            rw [decideFrom, hatom]
            have hkept :
                Knowledge.WellKept ρ { k with excluded := k.excluded ++ [(x, b)] } := by
              refine ⟨hk.proper, ?_⟩
              rw [List.forall_mem_append, List.forall_mem_singleton]
              exact ⟨hk.defined, hb⟩
            refine (ih hc.2 hkept).congr (fun v => ?_) (fun h => ⟨h.1, h.2.2⟩)
            rw [Knowledge.allows_exclude, htrue, and_assoc]
            rfl
          · rw [decideFrom_bound hatom hop]
            have hends := Range.definedEnds_ofComparison ρ op hb
            have hcovers : ∀ v : Valuation ℝ,
                (Range.ofComparison op b).Covers ρ (v x) ↔ r.TrueAt ρ v := fun v => by
              rw [htrue, Range.covers_ofComparison ρ hop]
            split
            · next hnarrow =>
                refine answers_unsatisfiable fun v hv => ?_
                exact Knowledge.narrow?_none ρ hk hends hnarrow hv.1
                  ((hcovers v).mpr hv.2.1)
            · next k' hnarrow =>
                obtain ⟨hkept, hunclear, hallows⟩ :=
                  Knowledge.narrow?_some ρ hk hends hnarrow
                refine (ih hc.2 hkept).congr (fun v => ?_)
                  (fun h => ⟨hunclear.trans h.1, h.2.2⟩)
                rw [hallows, hcovers, and_assoc]

/-- Once a clause was left open, a disjunction is not called unsatisfiable. -/
theorem decideAny_ne_unsatisfiable (cs : List (Clause R)) :
    decideAny true cs ≠ .unsatisfiable := by
  induction cs with
  | nil => simp [decideAny]
  | cons c cs ih =>
      rw [decideAny]
      split
      · simp
      · exact ih
      · exact ih
      · simp

/-- The verdict on a disjunction of clauses. -/
theorem decideAny_answers {cs : List (Clause R)}
    (hcs : ∀ c ∈ cs, ∀ r ∈ c, r.LiteralConstants) (unclear : Bool) :
    Answers (decideAny unclear cs) (fun v => ∃ c ∈ cs, ∀ r ∈ c, r.TrueAt ρ v)
      (unclear = false ∧ ∀ c ∈ cs, ∀ r ∈ c, r.Simple) := by
  induction cs generalizing unclear with
  | nil =>
      cases unclear with
      | true => exact ⟨nofun, nofun, by simp⟩
      | false => exact answers_unsatisfiable (by simp)
  | cons c cs ih =>
      rw [List.forall_mem_cons] at hcs
      have hclause : Answers (decideFrom Knowledge.empty c)
          (fun v => ∀ r ∈ c, r.TrueAt ρ v)
          (∀ r ∈ c, r.Simple) := by
        refine (decideFrom_answers ρ hcs.1 (Knowledge.wellKept_empty ρ)).congr
          (fun v => ?_)
          (fun h => ⟨rfl, h⟩)
        simp [Knowledge.allows_empty ρ v]
      simp only [List.exists_mem_cons_iff, List.forall_mem_cons]
      rw [decideAny]
      split
      · next hverdict =>
          obtain ⟨v, hv⟩ := hclause.satisfiable hverdict
          exact ⟨nofun, fun _ => ⟨v, Or.inl hv⟩, fun _ => Or.inl rfl⟩
      · next hverdict =>
          refine (ih hcs.2 unclear).congr (fun v => ?_) (fun h => ⟨h.1, h.2.2⟩)
          simp [hclause.unsatisfiable hverdict v]
      · next hverdict =>
          refine ⟨fun hu => absurd hu (decideAny_ne_unsatisfiable cs), fun hs =>
            ?_, fun h => ?_⟩
          · obtain ⟨v, hv⟩ := (ih hcs.2 true).satisfiable hs
            exact ⟨v, Or.inr hv⟩
          · have hdefinite := hclause.definite h.2.1
            simp [hverdict] at hdefinite
      · next message hverdict =>
          refine ⟨nofun, nofun, fun h => ?_⟩
          have hdefinite := hclause.definite h.2.1
          simp [hverdict] at hdefinite

end Satisfiability

namespace Oracle

variable {p : Formula R}

theorem positive_literalConstants (hp : ∀ r ∈ p.relations, r.LiteralConstants) :
    (p.nnf false).Positive Relation.LiteralConstants :=
  Formula.positive_nnf p (fun r hr => ⟨hp r hr, hp r hr⟩) false

/-- The oracle decides the clauses of the normal form, if they are not too many on the
way. -/
theorem interval_eq (hp : ∀ r ∈ p.relations, r.LiteralConstants) (maxClauses : Nat) :
    Oracle.interval maxClauses p =
      if (p.nnf false).peak ≤ max maxClauses 1 then
        Satisfiability.decideAny false (p.nnf false).spread
      else .unknown := by
  have hclauses := Formula.clauses?_eq (le_max_right maxClauses 1)
    (positive_literalConstants hp)
  rw [Oracle.interval, hclauses]
  split
  · next hnone =>
      split at hnone
      · cases hnone
      · next hpeak => rw [if_neg hpeak]
  · next cs hsome =>
      split at hsome
      · next hpeak =>
          cases hsome
          rw [if_pos hpeak]
      · cases hsome

/-- A formula is true where all relations of a clause of its normal form are. -/
theorem exists_clause_iff (ρ : ExtendedReading R)
    (hp : ∀ r ∈ p.relations, r.LiteralConstants) (v : Valuation ℝ) :
    (∃ c ∈ (p.nnf false).spread, ∀ r ∈ c, r.TrueAt ρ v) ↔ p.TrueAt ρ v := by
  rw [Formula.exists_mem_spread (positive_literalConstants hp), Formula.TrueAt,
    Formula.trueUnder_nnf (Relation.respects_trueAt ρ v) (Relation.trueAt_negate ρ v)]
  simp

/-- The verdict of the interval oracle. -/
theorem interval_answers (ρ : ExtendedReading R) (maxClauses : Nat)
    (hp : ∀ r ∈ p.relations, r.LiteralConstants) :
    Satisfiability.Answers (Oracle.interval maxClauses p) (p.TrueAt ρ)
      ((p.nnf false).peak ≤ max maxClauses 1 ∧ ∀ r ∈ p.relations, r.Simple) := by
  have hliteral := Formula.good_of_mem_spread (positive_literalConstants hp)
  rw [interval_eq hp]
  split
  · refine (Satisfiability.decideAny_answers ρ hliteral false).congr
      (exists_clause_iff ρ hp) ?_
    rintro ⟨_, hsimple⟩
    have hpositive := Formula.positive_nnf p
      (fun r hr => ⟨hsimple r hr, hsimple r hr⟩) false
    exact ⟨rfl, Formula.good_of_mem_spread hpositive⟩
  · next hpeak => exact ⟨nofun, nofun, fun h => absurd h.1 hpeak⟩

/-- The interval oracle is never wrong: what it calls unsatisfiable is true at no real
valuation, and what it calls satisfiable is true at one.  About simple relations it is
silent only if the clauses are too many. -/
theorem interval_sound_and_definite (ρ : ExtendedReading R) (maxClauses : Nat)
    (p : Formula R) (hp : ∀ r ∈ p.relations, r.LiteralConstants) :
    (Oracle.interval maxClauses p = .unsatisfiable → ∀ v, ¬p.TrueAt ρ v) ∧
      (Oracle.interval maxClauses p = .satisfiable → ∃ v, p.TrueAt ρ v) ∧
      ((∀ r ∈ p.relations, r.Simple) →
        ((Oracle.interval maxClauses p = .satisfiable ∨
            Oracle.interval maxClauses p = .unsatisfiable) ↔
          (p.nnf false).peak ≤ max maxClauses 1)) := by
  have hanswers := interval_answers ρ maxClauses hp
  refine ⟨hanswers.unsatisfiable, hanswers.satisfiable, fun hsimple =>
    ⟨fun hdefinite => ?_, ?_⟩⟩
  · by_contra hpeak
    rw [interval_eq hp, if_neg hpeak] at hdefinite
    rcases hdefinite with h | h <;> cases h
  · exact fun hpeak => hanswers.definite ⟨hpeak, hsimple⟩

/-- From two to three without the lower end, and a second variable below infinity. -/
def openStrip : Formula Float :=
  .all [.implies (.compare (.var "x") .lt (.num 2)) .bottom,
    .not (.any [.compare (.num 3) .lt (.var "x"),
      .compare (.var "y") .ge (.num Scalar.infinity)]),
    .compare (.var "x") .ne (.num 2)]

/-- A single point that is excluded. -/
def missingPoint : Formula Float :=
  .all [.compare (.var "x") .ge (.num 2), .not (.compare (.var "x") .gt (.num 2)),
    .compare (.num 2) .ne (.var "x")]

theorem literalConstants_openStrip : ∀ r ∈ openStrip.relations, r.LiteralConstants := by
  have htwo : Scalar.Defined (2 : Float) := rfl
  have hthree : Scalar.Defined (3 : Float) := rfl
  have hinfinity : Scalar.Defined (Scalar.infinity : Float) := rfl
  simp [openStrip, Formula.relations, Formula.relationsList, Formula.compare,
    Relation.LiteralConstants, Term.literalIfConstant_num, Term.literalIfConstant_var,
    htwo, hthree,
    hinfinity]

theorem literalConstants_missingPoint :
    ∀ r ∈ missingPoint.relations, r.LiteralConstants := by
  have htwo : Scalar.Defined (2 : Float) := rfl
  simp [missingPoint, Formula.relations, Formula.relationsList, Formula.compare,
    Relation.LiteralConstants, Term.literalIfConstant_num,
    Term.literalIfConstant_var, htwo]

/-- The strip has a point, and the excluded point is none; one clause is enough for
both. -/
theorem interval_openStrip_missingPoint :
    (∀ r ∈ openStrip.relations, r.LiteralConstants) ∧
      (∀ r ∈ missingPoint.relations, r.LiteralConstants) ∧
      (∃ v, openStrip.TrueAt (Binary64.extendedReading fun _ _ => 0) v) ∧
      (∀ v, ¬missingPoint.TrueAt (Binary64.extendedReading fun _ _ => 0) v) ∧
      (openStrip.nnf false).peak ≤ 1 := by
  have hstrip := interval_sound_and_definite (Binary64.extendedReading fun _ _ =>
    0) 0 openStrip
    literalConstants_openStrip
  have hpoint := interval_sound_and_definite (Binary64.extendedReading fun _ _ =>
    0) 0 missingPoint
    literalConstants_missingPoint
  have hsimple : ∀ r ∈ openStrip.relations, r.Simple := by
    simp [openStrip, Formula.relations, Formula.relationsList, Formula.compare,
      Relation.Simple]
  exact ⟨literalConstants_openStrip, literalConstants_missingPoint, hstrip.2.1 rfl,
    hpoint.1 rfl,
    (hstrip.2.2 hsimple).mp (Or.inl rfl)⟩

end Oracle
end SignalFlow
