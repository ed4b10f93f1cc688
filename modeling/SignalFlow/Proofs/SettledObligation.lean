import Mathlib
import SignalFlow.Obligation
import SignalFlow.Proofs.FactGrowth
import SignalFlow.Proofs.IntervalOracle

/-!
# Obligations that are left out

A divisor needs no proof if one of the facts on its edge excludes zero, and a bound of an
integrator needs none if an oracle finds that the input cannot move the state towards it.
Both are justified by the facts: whatever real values make all facts on the edge true, the
divisor is not zero, and the input has the sign that keeps the state from the bound.

The facts have to speak about the signal they are attached to (`Edge.FactsAboutSignal`):
every item of a signal fact is about the variable of the edge, and its bounds are defined
literals or variables.  A bound that is a variable excludes nothing.

**Results.**
* `Constraint.ne_zero_of_excludesZero`, `Fact.ne_zero_of_crossesZero`: what excludes zero
  does so for every valuation.
* `requires_of_mem_derive`: what is derived is among the obligations.
-/

namespace SignalFlow

variable {R : Type} [Scalar R] (ρ : ExtendedReading R)

/-- A defined literal or a variable. -/
def Term.IsBound (t : Term R) : Prop :=
  (∃ a, t = .num a ∧ Scalar.Defined a) ∨ ∃ x, t = .var x

instance (t : Term R) : Decidable t.IsBound :=
  match t with
  | .num a => decidable_of_iff (Scalar.Defined a) (by simp [Term.IsBound])
  | .var x => isTrue (Or.inr ⟨x, rfl⟩)
  | .add _ => isFalse (by simp [Term.IsBound])
  | .mul _ => isFalse (by simp [Term.IsBound])
  | .neg _ => isFalse (by simp [Term.IsBound])
  | .div _ _ => isFalse (by simp [Term.IsBound])
  | .pow _ _ => isFalse (by simp [Term.IsBound])

theorem Term.IsBound.eq_num {t : Term R} (h : t.IsBound) {a : R} (ha : t.value? = some a) :
    t = .num a ∧ Scalar.Defined a := by
  rcases h with ⟨b, rfl, hb⟩ | ⟨x, rfl⟩
  · rw [value?_num, Option.some.injEq] at ha
    subst ha
    exact ⟨rfl, hb⟩
  · simp at ha

namespace Constraint

/-- The terms that the subject is compared with. -/
def bounds : Constraint R → List (Term R)
  | .interval i => i.lower.toList.map Bound.value ++ i.upper.toList.map Bound.value
  | .relation r => [r.rhs]

/-- The constraint is about a variable, with literals and variables for bounds. -/
def IsAbout (x : String) (c : Constraint R) : Prop :=
  c.subject = .var x ∧ ∀ t ∈ c.bounds, t.IsBound

end Constraint

namespace Interval

/-- The end of a range is missing, or it is the literal of a bound. -/
theorem endOf?_cases {missing : R} {bound : Option (Bound R)}
    (hbound : ∀ b ∈ bound, b.value.IsBound) {a : R} {strict : Bool}
    (h : endOf? missing bound = some (a, strict)) :
    (bound = none ∧ a = missing ∧ strict = true) ∨
      (bound = some ⟨.num a, strict⟩ ∧ Scalar.Defined a) := by
  cases bound with
  | none =>
      cases h
      exact Or.inl ⟨rfl, rfl, rfl⟩
  | some b =>
      obtain ⟨value, bstrict⟩ := b
      obtain ⟨c, hc, hpair⟩ := Option.map_eq_some_iff.mp h
      cases hpair
      obtain ⟨hvalue, hdefined⟩ := (hbound _ rfl).eq_num hc
      simp only at hvalue
      subst hvalue
      exact Or.inr ⟨rfl, hdefined⟩

theorem trueAt_toFormula (i : Interval R) (v : Valuation ℝ) :
    i.toFormula.TrueAt ρ v ↔
      (∀ r ∈ i.lowerRelation?, r.TrueAt ρ v) ∧ ∀ r ∈ i.upperRelation?, r.TrueAt ρ v := by
  rw [toFormula, Formula.trueAt_conj, List.forall_mem_append, List.forall_mem_map,
    List.forall_mem_map]
  simp [Formula.trueAt_rel]

/-- A lower end is reached by no value that the interval allows, or by nothing less. -/
theorem lower_of_endOf? {i : Interval R} {x : String} (hterm : i.term = .var x)
    (hbound : ∀ b ∈ i.lower, b.value.IsBound) {lo : R} {strict : Bool}
    (h : endOf? (-Scalar.infinity) i.lower = some (lo, strict)) :
    Scalar.Defined lo ∧ ∀ v : Valuation ℝ, (∀ r ∈ i.lowerRelation?, r.TrueAt ρ v) →
      if strict then ρ.lit lo < v x else ρ.lit lo ≤ v x := by
  rcases endOf?_cases hbound h with ⟨_, rfl, rfl⟩ | ⟨hlower, hdefined⟩
  · refine ⟨ρ.defined_neg_infinity, fun v _ => ?_⟩
    simp [ρ.lit_neg_infinity, EReal.bot_lt_coe]
  · refine ⟨hdefined, fun v htrue => ?_⟩
    have hrelation := htrue ⟨.var x, if strict then .gt else .ge, .num lo⟩
      (by simp [lowerRelation?, hlower, hterm])
    cases strict <;> simpa [Relation.TrueAt, Comparison.Compares] using hrelation

theorem upper_of_endOf? {i : Interval R} {x : String} (hterm : i.term = .var x)
    (hbound : ∀ b ∈ i.upper, b.value.IsBound) {hi : R} {strict : Bool}
    (h : endOf? Scalar.infinity i.upper = some (hi, strict)) :
    Scalar.Defined hi ∧ ∀ v : Valuation ℝ, (∀ r ∈ i.upperRelation?, r.TrueAt ρ v) →
      if strict then v x < ρ.lit hi else v x ≤ ρ.lit hi := by
  rcases endOf?_cases hbound h with ⟨_, rfl, rfl⟩ | ⟨hupper, hdefined⟩
  · refine ⟨ρ.defined_infinity, fun v _ => ?_⟩
    simp [ρ.lit_infinity, EReal.coe_lt_top]
  · refine ⟨hdefined, fun v htrue => ?_⟩
    have hrelation := htrue ⟨.var x, if strict then .lt else .le, .num hi⟩
      (by simp [upperRelation?, hupper, hterm])
    cases strict <;> simpa [Relation.TrueAt, Comparison.Compares] using hrelation

/-- The range of an interval covers every value that the interval allows. -/
theorem covers_of_range? {i : Interval R} {x : String}
    (habout : (Constraint.interval i).IsAbout x) {r : Range R} (h : i.range? = some r) :
    r.DefinedEnds ∧ ∀ v : Valuation ℝ, i.toFormula.TrueAt ρ v → r.Covers ρ (v x) := by
  obtain ⟨hterm, hbounds⟩ := habout
  have hlower : ∀ b ∈ i.lower, b.value.IsBound := fun b hb =>
    hbounds _ (by simp [Constraint.bounds, Option.mem_def.mp hb])
  have hupper : ∀ b ∈ i.upper, b.value.IsBound := fun b hb =>
    hbounds _ (by simp [Constraint.bounds, Option.mem_def.mp hb])
  unfold range? at h
  split at h
  · next lo loStrict hi hiStrict hlo hhi =>
      cases h
      obtain ⟨hlodefined, hlotrue⟩ := lower_of_endOf? ρ hterm hlower hlo
      obtain ⟨hhidefined, hhitrue⟩ := upper_of_endOf? ρ hterm hupper hhi
      refine ⟨⟨hlodefined, hhidefined⟩, fun v htrue => ?_⟩
      rw [trueAt_toFormula] at htrue
      exact ⟨hlotrue v htrue.1, hhitrue v htrue.2⟩
  · cases h

end Interval

/-- A constraint that excludes zero is false where the variable is zero. -/
theorem Constraint.ne_zero_of_excludesZero {c : Constraint R} {x : String}
    (habout : c.IsAbout x) (h : c.excludesZero = true) {v : Valuation ℝ}
    (htrue : c.toFormula.TrueAt ρ v) : v x ≠ 0 := by
  intro hzero
  have hzero' : (v x : EReal) = 0 := by simp [hzero]
  unfold excludesZero at h
  split at h
  · next i =>
      obtain ⟨r, hr, hzeroFree⟩ := (Option.any_eq_true _ _).mp h
      obtain ⟨hdefined, hcovers⟩ := Interval.covers_of_range? ρ habout hr
      have hcovered := hcovers v htrue
      rw [hzero', ← Range.containsZero_iff_covers ρ hdefined] at hcovered
      simp [hcovered] at hzeroFree
  · next lhs rhs =>
      obtain ⟨a, ha, hazero⟩ := (Option.any_eq_true _ _).mp h
      obtain ⟨rfl, _⟩ := (habout.2 rhs (by simp [bounds])).eq_num ha
      have hlhs : lhs = .var x := habout.1
      subst hlhs
      have hne : (v x : EReal) ≠ ρ.lit a := by
        simpa [toFormula, Formula.trueAt_rel, Relation.TrueAt, Comparison.Compares]
          using htrue
      rw [hzero', ρ.lit_eq_of_beq hazero, ρ.lit_zero] at hne
      exact hne rfl
  · next lhs op rhs hop =>
      obtain ⟨a, ha, hzeroFree⟩ := (Option.any_eq_true _ _).mp h
      obtain ⟨rfl, hdefined⟩ := (habout.2 rhs (by simp [bounds])).eq_num ha
      have hlhs : lhs = .var x := habout.1
      subst hlhs
      have hop' : op ≠ .ne := fun he => hop he
      have hcovered : (Range.ofComparison op a).Covers ρ (v x) := by
        rw [Range.covers_ofComparison ρ hop']
        simpa [toFormula, Formula.trueAt_rel, Relation.TrueAt] using htrue
      rw [hzero', ← Range.containsZero_iff_covers ρ
        (Range.definedEnds_ofComparison ρ op hdefined)]
        at hcovered
      simp [hcovered] at hzeroFree

namespace Fact

/-- The constraints of a signal fact. -/
def items : Fact R → List (Constraint R)
  | .single c => [c]
  | .boundary b => b.items
  | .discrete bs => bs.flatMap Boundary.items
  | .control _ => []
  | .data _ => []

/-- A signal fact is true if one of the constraints of its boundary is. -/
theorem exists_item_of_trueAt {f : Fact R} {b : Boundary R} (h : f.asBoundary? = some b)
    {v : Valuation ℝ} (htrue : f.toFormula.TrueAt ρ v) :
    ∃ c ∈ b.items, c ∈ f.items ∧ c.toFormula.TrueAt ρ v := by
  have hboundary : ∀ b : Boundary R, b.toFormula.TrueAt ρ v →
      ∃ c ∈ b.items, c.toFormula.TrueAt ρ v := by
    intro b hb
    simpa [Boundary.toFormula, Formula.trueAt_disj] using hb
  cases f with
  | single c =>
      cases h
      exact ⟨c, by simp, by simp [items], htrue⟩
  | boundary b =>
      cases h
      obtain ⟨c, hc, hctrue⟩ := hboundary _ htrue
      exact ⟨c, hc, hc, hctrue⟩
  | discrete bs =>
      cases h
      obtain ⟨c, hc, hctrue⟩ := hboundary _ htrue
      exact ⟨c, hc, mem_of_mem_distinct hc, hctrue⟩
  | control gs => cases h
  | data rs => cases h

/-- A fact that zero does not fit is false where the variable is zero. -/
theorem ne_zero_of_crossesZero {f : Fact R} {x : String}
    (habout : ∀ c ∈ f.items, c.IsAbout x) (h : f.crossesZero = false) {v : Valuation ℝ}
    (htrue : f.toFormula.TrueAt ρ v) : v x ≠ 0 := by
  unfold crossesZero at h
  split at h
  · next b hb =>
      obtain ⟨c, hc, hitem, hctrue⟩ := exists_item_of_trueAt ρ hb htrue
      have hexcludes : c.excludesZero = true := by
        simp only [Boundary.crossesZero, Bool.or_eq_false_iff, List.any_eq_false] at h
        simpa using h.2 c hc
      exact c.ne_zero_of_excludesZero ρ (habout c hitem) hexcludes hctrue
  · cases h

end Fact

/-- Every signal fact on the edge is about its variable. -/
def Edge.FactsAboutSignal (e : Edge R) : Prop :=
  ∀ f ∈ e.facts, ∀ c ∈ f.items, c.IsAbout e.var

/-- The values make all facts on the edge true. -/
def Edge.Admits (e : Edge R) (v : Valuation ℝ) : Prop :=
  ∀ f ∈ e.facts, f.toFormula.TrueAt ρ v

section Oracle

/-- What the oracle calls unsatisfiable is true nowhere. -/
def Oracle.Sound (oracle : Oracle R) : Prop :=
  ∀ p, oracle p = .unsatisfiable → ∀ v, ¬p.TrueAt ρ v

/-- The interval oracle, asked about bounds only. -/
def Oracle.bounds : Oracle R := fun p =>
  if ∀ r ∈ p.relations, r.lhs.IsBound ∧ r.rhs.IsBound then Oracle.interval 64 p
    else .unknown

theorem Oracle.sound_bounds : (Oracle.bounds : Oracle R).Sound ρ := by
  have hliteral : ∀ t : Term R, t.IsBound → t.LiteralIfConstant := by
    rintro t (⟨a, rfl, ha⟩ | ⟨x, rfl⟩)
    · exact Term.literalIfConstant_num ha
    · exact Term.literalIfConstant_var x
  intro p hp
  unfold Oracle.bounds at hp
  split at hp
  · next hbounds =>
      have hconstants : ∀ r ∈ p.relations, r.LiteralConstants := fun r hr =>
        ⟨hliteral _ (hbounds r hr).1, hliteral _ (hbounds r hr).2⟩
      exact (Oracle.interval_answers ρ 64 hconstants).unsatisfiable hp
  · cases hp

end Oracle

namespace FlowGraph

/-- The formula, or one equal to it, is among the obligations. -/
def Requires (g : FlowGraph R) (p : Formula R) : Prop :=
  ∃ q ∈ g.obligations, q = p ∨ (p == q) = true

theorem obligations_foldl_addObligation (ps : List (Formula R)) (g : FlowGraph R) :
    (ps.foldl addObligation g).obligations = ps.foldl insertLast g.obligations := by
  induction ps generalizing g with
  | nil => rfl
  | cons p ps ih =>
      rw [List.foldl_cons, ih]
      rfl

/-- What is derived is among the obligations. -/
theorem requires_of_mem_derive {oracle : Oracle R} {l : Limits} {d : Diagram}
    {g : FlowGraph R} {p : Formula R} (h : p ∈ Obligation.derive oracle l d g) :
    (g.withObligations oracle l d).Requires p := by
  unfold Requires withObligations
  rw [obligations_foldl_addObligation]
  exact exists_mem_foldl_insertLast h g.obligations

omit [Scalar R] in
theorem mem_edges_of_inputEdge? {g : FlowGraph R} {n : NodeId} {pin : Nat} {e : Edge R}
    (h : g.inputEdge? n pin = some e) : e ∈ g.edges := by
  have hmem := List.mem_of_find?_eq_some h
  unfold incoming at hmem
  split at hmem
  · obtain ⟨i, _, hi⟩ := List.mem_filterMap.mp hmem
    exact List.mem_of_getElem? hi
  · simp at hmem

end FlowGraph

namespace Obligation

omit [Scalar R] in
theorem mem_forNodes {d : Diagram} {g : FlowGraph R} {nodes : List NodeId}
    {rule : Block → NodeId → List (Formula R)} {n : NodeId} (hn : n ∈ nodes) {b : Block}
    (hb : (g.blockOf? n).bind d.block? = some b) {p : Formula R} (hp : p ∈ rule b n) :
    p ∈ forNodes d g nodes rule := by
  refine List.mem_flatMap.mpr ⟨n, hn, ?_⟩
  rw [hb]
  exact hp

/-- A fact on the edge of a divisor without an obligation excludes zero. -/
theorem exists_fact_of_not_mem_ofDivision {g : FlowGraph R} {b : Block} {n : NodeId}
    {e : Edge R} (hkind : kind? b = some .product ∨ kind? b = some .divide) {pin : Nat}
    (hpin : b.divisors[pin]? = some true) (he : g.inputEdge? n pin = some e)
    (h : nonzero e.var ∉ ofDivision g b n) :
    ∃ f ∈ informative e, f.crossesZero = false := by
  have hedge : e ∈ divisorEdges g b n := by
    refine List.mem_filterMap.mpr ⟨(true, pin), ?_, by simp [he]⟩
    rw [List.mem_zipIdx_iff_getElem?]
    exact hpin
  have hsettled : (informative e).all Fact.crossesZero = false := by
    by_contra hall
    apply h
    have hmem : (nonzero e.var : Formula R) ∈ ((divisorEdges g b n).filter fun e =>
        (informative e).all Fact.crossesZero).map fun e => nonzero e.var := by
      refine List.mem_map.mpr ⟨e, List.mem_filter.mpr ⟨hedge, by simpa using hall⟩, rfl⟩
    unfold ofDivision
    rcases hkind with hkind | hkind <;> rw [hkind] <;> exact hmem
  obtain ⟨f, hf, hcrosses⟩ := List.all_eq_false.mp hsettled
  exact ⟨f, hf, by simpa using hcrosses⟩

/-- A divisor without an obligation is not zero, whatever its facts allow. -/
theorem ne_zero_of_not_mem_ofDivision {g : FlowGraph R} {b : Block} {n : NodeId}
    {e : Edge R} (hkind : kind? b = some .product ∨ kind? b = some .divide) {pin : Nat}
    (hpin : b.divisors[pin]? = some true) (he : g.inputEdge? n pin = some e)
    (hfacts : e.FactsAboutSignal) (h : nonzero e.var ∉ ofDivision g b n) {v : Valuation ℝ}
    (hv : e.Admits ρ v) : v e.var ≠ 0 := by
  obtain ⟨f, hf, hcrosses⟩ := exists_fact_of_not_mem_ofDivision hkind hpin he h
  have hf' : f ∈ e.facts := (List.mem_filter.mp hf).1
  exact f.ne_zero_of_crossesZero ρ (hfacts f hf') hcrosses (hv f hf')

/-- A comparison that is impossible, as a sound oracle finds, contradicts the facts of the
edge. -/
theorem not_compares_of_mayBe {oracle : Oracle R} (horacle : oracle.Sound ρ) {e : Edge R}
    {c : Comparison} (h : mayBe oracle e c = false) {v : Valuation ℝ} (hv : e.Admits ρ v) :
    ¬c.Compares (v e.var) 0 := by
  intro hcompares
  unfold mayBe at h
  split at h
  · cases h
  · have hunsat : oracle (.conj [.conj ((informative e).map Fact.toFormula),
        .compare e.term c (.num 0)]) = .unsatisfiable := by
      unfold Verdict.isPossible at h
      split at h
      · assumption
      · cases h
    apply horacle _ hunsat v
    rw [Formula.trueAt_conj, List.forall_mem_cons, List.forall_mem_singleton,
      Formula.trueAt_conj, List.forall_mem_map]
    refine ⟨fun f hf => hv f (List.mem_filter.mp hf).1, ?_⟩
    have hreal : c.Compares (v e.var : EReal) 0 := by
      cases c <;> simpa [Comparison.Compares] using hcompares
    simpa [Formula.compare, Formula.trueAt_rel, Relation.TrueAt, Edge.term, ρ.lit_zero]
      using hreal

/-- Whether the first input of a node may stand in a comparison to zero; it may if it is
not wired. -/
def inputMayBe (oracle : Oracle R) (g : FlowGraph R) (n : NodeId)
    (c : Comparison) : Bool :=
  match g.inputEdge? n 0 with
  | some e => mayBe oracle e c
  | none => true

theorem ofIntegrator_eq (oracle : Oracle R) (l : Limits) (g : FlowGraph R) {b : Block}
    (n : NodeId) (hkind : kind? b = some .integrator ∨ kind? b = some .discreteIntegrator)
    (hlimit : b.isOn "LimitOutput" = false) (hwrap : b.isOn "WrapState" = false) :
    ofIntegrator oracle l g b n =
      (if inputMayBe oracle g n .lt then [atLeast l (b.outputVar 0)] else [])
        ++ if inputMayBe oracle g n .gt then [atMost l (b.outputVar 0)] else [] := by
  unfold ofIntegrator
  rcases hkind with hkind | hkind <;> rw [hkind] <;> simp [hlimit, hwrap] <;> rfl

/-- An input that cannot stand in a comparison to zero is wired, and its facts contradict
it. -/
theorem exists_edge_of_not_inputMayBe {oracle : Oracle R} (horacle : oracle.Sound ρ)
    {g : FlowGraph R} {n : NodeId} {c : Comparison} (h : ¬inputMayBe oracle g n c = true) :
    ∃ e, g.inputEdge? n 0 = some e ∧ ∀ v, e.Admits ρ v → ¬c.Compares (v e.var) 0 := by
  unfold inputMayBe at h
  split at h
  · next e he =>
      refine ⟨e, he, fun v hv => ?_⟩
      exact not_compares_of_mayBe ρ horacle (by simpa using h) hv
  · exact absurd rfl h

/-- An obligation is left out only where the facts settle it.  A divisor without one is not
zero, and an integrator that lacks one of its bounds has a wired input that does not move
the state towards it, whatever real values the facts on the edge allow. -/
theorem omitted_only_if_settled {oracle : Oracle R} (horacle : oracle.Sound ρ) (l : Limits)
    (d : Diagram) (g : FlowGraph R) (hfacts : ∀ e ∈ g.edges, e.FactsAboutSignal)
    {n : NodeId} (hn : n ∈ g.nodes.map Node.id) {b : Block}
    (hb : (g.blockOf? n).bind d.block? = some b) :
    (kind? b = some .product ∨ kind? b = some .divide →
      ∀ pin e, b.divisors[pin]? = some true → g.inputEdge? n pin = some e →
        ¬(g.withObligations oracle l d).Requires (nonzero e.var) →
          ∀ v, e.Admits ρ v → v e.var ≠ 0) ∧
      (kind? b = some .integrator ∨ kind? b = some .discreteIntegrator →
        b.isOn "LimitOutput" = false → b.isOn "WrapState" = false →
          (¬(g.withObligations oracle l d).Requires (atLeast l (b.outputVar 0)) →
            ∃ e, g.inputEdge? n 0 = some e ∧ ∀ v, e.Admits ρ v → 0 ≤ v e.var) ∧
          (¬(g.withObligations oracle l d).Requires (atMost l (b.outputVar 0)) →
            ∃ e, g.inputEdge? n 0 = some e ∧ ∀ v, e.Admits ρ v → v e.var ≤ 0)) := by
  have hdivision : ∀ p ∈ ofDivision g b n, (g.withObligations oracle l d).Requires p := by
    intro p hp
    apply FlowGraph.requires_of_mem_derive
    simp only [derive, List.mem_append]
    exact Or.inl (Or.inl (Or.inl (mem_forNodes hn hb hp)))
  have hintegrator : ∀ p ∈ ofIntegrator oracle l g b n,
      (g.withObligations oracle l d).Requires p := by
    intro p hp
    apply FlowGraph.requires_of_mem_derive
    simp only [derive, List.mem_append]
    exact Or.inl (Or.inl (Or.inr (mem_forNodes hn hb hp)))
  constructor
  · intro hkind pin e hpin he homitted v hv
    exact ne_zero_of_not_mem_ofDivision ρ hkind hpin he
      (hfacts e (FlowGraph.mem_edges_of_inputEdge? he))
      (fun hp => homitted (hdivision _ hp)) hv
  · intro hkind hlimit hwrap
    have hrule := ofIntegrator_eq oracle l g n hkind hlimit hwrap
    constructor
    · intro homitted
      have hnot : ¬inputMayBe oracle g n .lt = true := fun h =>
        homitted (hintegrator _ (by simp [hrule, h]))
      obtain ⟨e, he, hsign⟩ := exists_edge_of_not_inputMayBe ρ horacle hnot
      exact ⟨e, he, fun v hv => not_lt.mp (hsign v hv)⟩
    · intro homitted
      have hnot : ¬inputMayBe oracle g n .gt = true := fun h =>
        homitted (hintegrator _ (by simp [hrule, h]))
      obtain ⟨e, he, hsign⟩ := exists_edge_of_not_inputMayBe ρ horacle hnot
      exact ⟨e, he, fun v hv => not_lt.mp (hsign v hv)⟩

section Witness

/-- A signal that is divided by itself and integrated. -/
def positiveInput : Diagram where
  name := "positive"
  blocks :=
    [⟨1, "A", "Inport", 0, 1, []⟩, ⟨2, "Q", "Product", 2, 1, [("Inputs", "*/")]⟩,
      ⟨3, "I", "Integrator", 1, 1, []⟩]
  signals := [⟨1, ⟨1, 0⟩, ⟨2, 0⟩⟩, ⟨2, ⟨1, 0⟩, ⟨2, 1⟩⟩, ⟨3, ⟨1, 0⟩, ⟨3, 0⟩⟩]

/-- The signal lies above zero up to five, or is seven. -/
def positiveFact : Fact Float :=
  .boundary
    ⟨[.interval ⟨.var "A_out", some (.exclusive (.num 0)), some (.inclusive (.num 5))⟩,
      .relation ⟨.var "A_out", .eq, .num 7⟩]⟩

/-- The graph of the diagram, with the fact on all edges. -/
def positiveGraph : FlowGraph Float :=
  [0, 1, 2].foldl (fun g i => g.addEdgeFact i positiveFact)
    (.ofDiagram positiveInput positiveInput.runOrder)

/-- What the graph of the diagram looks like. -/
theorem positiveGraph_eq : positiveGraph =
    { nodes :=
        [{ id := 0, block := 1, outgoing := [0, 1, 2] },
          { id := 1, block := 2, incoming := [0, 1] },
          { id := 2, block := 3, incoming := [2] }]
      edges :=
        [⟨0, 1, ⟨0, 0⟩, ⟨1, 0⟩, "A_out", [positiveFact], [false]⟩,
          ⟨1, 2, ⟨0, 0⟩, ⟨1, 1⟩, "A_out", [positiveFact], [false]⟩,
          ⟨2, 3, ⟨0, 0⟩, ⟨2, 0⟩, "A_out", [positiveFact], [false]⟩]
      nodeIndex := [(3, 2), (2, 1), (1, 0)]
      edgeIndex := [(3, 2), (2, 1), (1, 0)]
      allocator := ⟨3, 3⟩ } := by
  cbv

theorem factsAboutSignal_positiveGraph :
    ∀ e ∈ positiveGraph.edges, e.FactsAboutSignal := by
  have hzero : (Term.num (0 : Float)).IsBound := Or.inl ⟨0, rfl, rfl⟩
  have hfive : (Term.num (5 : Float)).IsBound := Or.inl ⟨5, rfl, rfl⟩
  have hseven : (Term.num (7 : Float)).IsBound := Or.inl ⟨7, rfl, rfl⟩
  simp [positiveGraph_eq, Edge.FactsAboutSignal, positiveFact, Fact.items,
    Constraint.IsAbout, Constraint.subject, Constraint.bounds, Bound.exclusive,
    Bound.inclusive, hzero,
    hfive, hseven]

theorem not_requires_of_all {g : FlowGraph R} {p : Formula R} (hself : (p == p) = true)
    (h : (g.obligations.all fun q => !(p == q)) = true) : ¬g.Requires p := by
  rintro ⟨q, hq, heq⟩
  have hne : (p == q) = false := by simpa using List.all_eq_true.mp h q hq
  rcases heq with rfl | heq
  · rw [hself] at hne
    cases hne
  · rw [heq] at hne
    cases hne

theorem wired_positiveGraph : positiveGraph.Wired := by
  have hextends : FlowGraph.Extends _ positiveGraph :=
    .foldl (fun g i => g.extends_addEdgeFact i positiveFact) [0, 1, 2] _
  rw [← FlowGraph.wired_layout, hextends.layout, FlowGraph.wired_layout]
  exact FlowGraph.Wired.ofDiagram positiveInput positiveInput.runOrder

/-- Only the upper bound of the integrator is left to prove: the divisor, which ends at the
second input of the quotient, is not zero, and the input of the integrator is not
negative. -/
theorem omitted_positiveGraph :
    (Oracle.bounds : Oracle Float).Sound (Binary64.extendedReading fun _ _ => 0) ∧
      (∀ e ∈ positiveGraph.edges, e.FactsAboutSignal) ∧
      (∃ e ∈ positiveGraph.edges, e.target = ⟨1, 1⟩ ∧
        ∀ v, e.Admits (Binary64.extendedReading fun _ _ => 0) v → v e.var ≠ 0) ∧
      ∃ e, positiveGraph.inputEdge? 2 0 = some e ∧
        ∀ v, e.Admits (Binary64.extendedReading fun _ _ => 0) v → 0 ≤ v e.var := by
  have hsound := Oracle.sound_bounds (Binary64.extendedReading fun _ _ => 0)
  have hdivision := (omitted_only_if_settled _ hsound {} positiveInput positiveGraph
    factsAboutSignal_positiveGraph (n := 1) (by simp [positiveGraph_eq])
    (by rw [positiveGraph_eq]; rfl)).1
  have hintegrator := (omitted_only_if_settled _ hsound {} positiveInput positiveGraph
    factsAboutSignal_positiveGraph (n := 2) (by simp [positiveGraph_eq])
    (by rw [positiveGraph_eq]; rfl)).2
  refine ⟨hsound, factsAboutSignal_positiveGraph, ?_, ?_⟩
  · let e : Edge Float := ⟨1, 2, ⟨0, 0⟩, ⟨1, 1⟩, "A_out", [positiveFact], [false]⟩
    have he : e ∈ positiveGraph.edges := by simp [positiveGraph_eq, e]
    have hone : ∀ e' ∈ positiveGraph.edges, e'.target = e.target → e' = e := by
      simp [positiveGraph_eq, e]
    have hedge := wired_positiveGraph.inputEdge?_eq_some he hone
    refine ⟨e, he, rfl, hdivision (Or.inl rfl) 1 e rfl hedge (not_requires_of_all ?_ ?_)⟩
    · decide +kernel
    · rw [positiveGraph_eq]
      decide +kernel
  · refine (hintegrator (Or.inl rfl) rfl rfl).1 (not_requires_of_all ?_ ?_)
    · decide +kernel
    · rw [positiveGraph_eq]
      decide +kernel

end Witness

end Obligation

end SignalFlow
