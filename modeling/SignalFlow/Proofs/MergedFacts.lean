import SignalFlow.Proofs.Binary64Order
import SignalFlow.Proofs.ConstantBounds

/-!
# Merged facts

Several facts about one signal are merged: into one boundary, from which loops are
simulated, and into one range, from which blocks with several inputs are evaluated.  Hulls
fill gaps, symbolic bounds and excluded values are passed over, and facts that exclude each
other are not merged at all; but no value is lost that all facts allow.

Scalars round, so nothing is asked of their arithmetic.  The bounds are literals or
variables, and merging only compares them.

**Results.**
* `Fact.isSome_hullOf?_iff`, `Fact.isSome_conjoin?_iff`: when there is a range, and a
  boundary.
* `Fact.isAbout_conjoin?`: the boundary is about the same signal.
* `Fact.merge_keeps_values`: what all facts allow is allowed by all that is made of them.
-/

namespace SignalFlow

variable {R : Type} [Scalar R] {ρ : ExtendedReading R} {v : Valuation ℝ} {x : String}

namespace Constraint

theorem IsAbout.retarget {c : Constraint R} (h : c.IsAbout x) :
    (c.retarget (.var x)).IsAbout x :=
  ⟨c.subject_retarget _, by simpa using h.2⟩

theorem IsAbout.legible {c : Constraint R} (h : c.IsAbout x) : c.Legible ρ :=
  fun t ht => (h.2 t ht).legible

end Constraint

namespace Boundary

/-- Values that satisfy the boundary lie in its hull. -/
theorem covers_of_hull? {b : Boundary R} (habout : ∀ c ∈ b.items, c.IsAbout x)
    (htrue : b.toFormula.TrueAt ρ v) {r : Range R} (hr : b.hull? = some r) :
    r.Covers ρ (v x) := by
  have hsubject : b.About (.var x) := fun c hc => (habout c hc).1
  have hallows : b.Allows ρ v (v x) := by
    rw [trueAt_iff_allows hsubject, Term.extended_var] at htrue
    exact htrue
  exact (encloses_of_hull? (fun c hc => (habout c hc).legible) hr hallows).covers

end Boundary

namespace Fact

/-- A signal fact about a variable, with literals and variables for bounds. -/
def IsAbout (x : String) (p : Fact R) : Prop :=
  p.category = .signal ∧ ∀ c ∈ p.items, c.IsAbout x

theorem IsAbout.about {p : Fact R} (h : p.IsAbout x) : p.About (.var x) := by
  obtain ⟨hcategory, hitems⟩ := h
  cases p with
  | single c => exact (hitems c (List.mem_singleton_self c)).1
  | boundary b => exact fun c hc => (hitems c hc).1
  | discrete bs => exact fun b hb c hc => (hitems c (List.mem_flatMap.mpr ⟨b, hb, hc⟩)).1
  | control gs => cases hcategory
  | data rs => cases hcategory

theorem IsAbout.legible {p : Fact R} (h : p.IsAbout x) : p.Legible ρ :=
  fun c hc => (h.2 c hc).legible

theorem isSome_asBoundary?_iff (p : Fact R) : p.asBoundary?.isSome ↔
      p.category = .signal := by
  cases p <;> simp [asBoundary?, category]

/-- There is a boundary unless there are no facts. -/
theorem isSome_conjoin?_iff {facts : List (Fact R)} (h : ∀ p ∈ facts, p.category = .signal)
    (t : Term R) : (conjoin? t facts).isSome ↔ facts ≠ [] := by
  have hempty : facts.filterMap asBoundary? = [] ↔ facts = [] := by
    rw [List.filterMap_eq_nil_iff, List.eq_nil_iff_forall_not_mem]
    refine forall₂_congr fun p hp => ?_
    have hboundary := (isSome_asBoundary?_iff p).mpr (h p hp)
    rw [Option.isSome_iff_ne_none] at hboundary
    exact iff_of_false hboundary id
  rw [← not_iff_not, not_not, ← hempty, conjoin?]
  split
  · next hnil => simp [hnil]
  · next b hone => simp [hone]
  · next b bs _ hmany => split <;> simp [hmany]

/-- There is a range if one of the facts has one. -/
theorem isSome_hullOf?_iff (facts : List (Fact R)) :
    (hullOf? facts).isSome ↔ ∃ p ∈ facts, ∃ b, p.asBoundary? = some b ∧
      b.hull?.isSome := by
  have hfold : ∀ known : Option (Range R), (facts.foldl Range.meetHull known).isSome ↔
      known.isSome ∨ ∃ p ∈ facts, ∃ b, p.asBoundary? = some b ∧ b.hull?.isSome := by
    induction facts with
    | nil => simp
    | cons p facts ih =>
        intro known
        have hstep : (Range.meetHull known p).isSome ↔
            known.isSome ∨ ∃ b, p.asBoundary? = some b ∧ b.hull?.isSome := by
          rw [Range.meetHull]
          cases hb : p.asBoundary? with
          | none => simp
          | some b =>
              cases hr : b.hull? with
              | none => simp [hr]
              | some r => cases known <;> simp [hr]
        rw [List.foldl_cons, ih, hstep, List.exists_mem_cons_iff, or_assoc]
  simpa [hullOf?] using hfold none

/-- The boundary for several facts is about their variable. -/
theorem isAbout_conjoin? {facts : List (Fact R)} (habout : ∀ p ∈ facts, p.IsAbout x)
    {b : Boundary R} (h : conjoin? (.var x) facts = some b) :
    ∀ c ∈ b.items, c.IsAbout x := by
  have hmerged : ∀ c ∈ ((conjoin? (.var x) facts).getD (.unbounded (.var x))).items,
      c.IsAbout x := by
    refine conjoined_of_forall (P := fun b => ∀ c ∈ b.items, c.IsAbout x)
      (fun p hp b hb => ?_) (fun r => ?_) ?_
    · rw [Boundary.retarget, List.forall_mem_map]
      exact fun c hc => ((habout p hp).2 c (mem_items_of_asBoundary? hb hc)).retarget
    · rw [Boundary.ofRange, List.forall_mem_singleton]
      exact ⟨rfl, r.isBound_toInterval _⟩
    · rw [Boundary.unbounded, List.forall_mem_singleton]
      exact ⟨rfl, by simp [Constraint.bounds]⟩
  rwa [h] at hmerged

/-- Merging keeps every value that all facts allow: the boundary for the facts is true, the
hulls of the boundaries cover the value, and so does the range of an input with these
facts. -/
theorem merge_keeps_values {facts : List (Fact R)} (habout : ∀ p ∈ facts, p.IsAbout x)
    (htrue : ∀ p ∈ facts, p.toFormula.TrueAt ρ v) :
    ((conjoin? (.var x) facts).isSome ↔ facts ≠ []) ∧
    (∀ b, conjoin? (.var x) facts = some b → b.toFormula.TrueAt ρ v) ∧
    (∀ b r, (∃ p ∈ facts, p.asBoundary? = some b) ∨ conjoin? (.var x) facts = some b →
      b.hull? = some r →
      r.Covers ρ (v x)) ∧
    ∀ (s : Site R) (pin : Nat) (i : Inlet R), s.inlets[pin]? = some i → i.facts = facts →
      ((s.hull? pin).isSome ↔ ∃ p ∈ facts, ∃ b, p.asBoundary? = some b ∧ b.hull?.isSome) ∧
      ∀ r, s.hull? pin = some r → r.Covers ρ (v x) := by
  have hallows : ∀ p ∈ facts, p.Legible ρ ∧ p.Allows ρ v (v x) := by
    intro p hp
    refine ⟨(habout p hp).legible, ?_⟩
    rw [← Term.extended_var ρ v x, ← trueAt_iff_allows (habout p hp).about]
    exact htrue p hp
  have hmerged : ∀ b, conjoin? (.var x) facts = some b → b.toFormula.TrueAt ρ v := by
    intro b hb
    have hsubject : b.About (.var x) := fun c hc => (isAbout_conjoin? habout hb c hc).1
    rw [Boundary.trueAt_iff_allows hsubject, Term.extended_var]
    exact allows_conjoin? hallows hb
  refine ⟨isSome_conjoin?_iff (fun p hp => (habout p hp).1) _, hmerged, ?_, ?_⟩
  · rintro b r (⟨p, hp, hb⟩ | hb) hr
    · have hbabout : ∀ c ∈ b.items, c.IsAbout x := fun c hc =>
        (habout p hp).2 c (mem_items_of_asBoundary? hb hc)
      refine Boundary.covers_of_hull? hbabout ?_ hr
      rw [Boundary.trueAt_iff_allows fun c hc => (hbabout c hc).1, Term.extended_var,
        ← allows_of_asBoundary? hb]
      exact (hallows p hp).2
    · exact Boundary.covers_of_hull? (isAbout_conjoin? habout hb) (hmerged b hb) hr
  · rintro s pin i hi rfl
    have hhull : s.hull? pin = hullOf? i.facts := by rw [Site.hull?, hi, Option.bind_some]
    rw [hhull]
    exact ⟨isSome_hullOf?_iff _, fun r hr => (encloses_of_hullOf? hallows hr).covers⟩

/-- A signal that is positive and at most another one, is not zero, and lies on one side of
zero; and, sampled in time, it is not negative or not infinite. -/
def mixedFacts (R : Type) [Scalar R] : List (Fact R) :=
  [.single (.interval ⟨.var "A_out", some ⟨.num 0, true⟩, some ⟨.var "top", false⟩⟩),
    .single (.relation ⟨.var "A_out", .ne, .num 0⟩),
    .boundary
    ⟨[.relation ⟨.var "A_out", .lt, .num 0⟩, .relation ⟨.var "A_out", .gt, .num 0⟩]⟩,
    .discrete [⟨[.relation ⟨.var "A_out", .ge, .num 0⟩]⟩,
      ⟨[.relation ⟨.var "A_out", .lt, .num Scalar.infinity⟩]⟩]]

/-- A block with these facts at its input. -/
def mixedSite : Site Float :=
  ⟨⟨1, "G", "Gain", 1, 1, []⟩, [⟨some "A_out", mixedFacts Float⟩]⟩

theorem merge_keeps_values_mixed :
    (∀ p ∈ mixedFacts Float, p.IsAbout "A_out" ∧
      p.toFormula.TrueAt (Binary64.extendedReading fun _ _ => 0) fun _ => 1) ∧
    (∃ b, conjoin? (.var "A_out") (mixedFacts Float) = some b ∧
      b.toFormula.TrueAt (Binary64.extendedReading fun _ _ => 0) fun _ => 1) ∧
    ∃ r, mixedSite.hull? 0 = some r ∧ r.Covers (Binary64.extendedReading fun _ _ => 0)
      (1 : ℝ) := by
  let ρ : ExtendedReading Float := Binary64.extendedReading fun _ _ => 0
  have hzero : (Term.num (0 : Float)).IsBound := Or.inl ⟨0, rfl, ρ.defined_zero⟩
  have hinfinity : (Term.num (Scalar.infinity : Float)).IsBound :=
    Or.inl ⟨_, rfl, ρ.defined_infinity⟩
  have htop : (Term.var "top" : Term Float).IsBound := Or.inr ⟨_, rfl⟩
  have habout : ∀ p ∈ mixedFacts Float, p.IsAbout "A_out" := by
    simp only [mixedFacts, List.forall_mem_cons]
    simp [IsAbout, category, items, Constraint.IsAbout, Constraint.subject,
      Constraint.bounds, hzero, hinfinity, htop]
  have htrue : ∀ p ∈ mixedFacts Float, p.toFormula.TrueAt ρ fun _ => 1 := by
    have hallows : ∀ p ∈ mixedFacts Float, p.Allows ρ (fun _ => 1) (1 : ℝ) := by
      simp [mixedFacts, Allows, Boundary.Allows, Constraint.Allows, Comparison.Compares,
        Range.Under, ρ.lit_zero, ρ.lit_infinity]
    intro p hp
    rw [trueAt_iff_allows (habout p hp).about, Term.extended_var]
    exact hallows p hp
  obtain ⟨hsome, hmerged, _, hinput⟩ := merge_keeps_values habout htrue
  obtain ⟨hrange, hcovers⟩ := hinput mixedSite 0 _ rfl rfl
  obtain ⟨b, hb⟩ := Option.isSome_iff_exists.mp (hsome.mpr (List.cons_ne_nil _ _))
  obtain ⟨r, hr⟩ := Option.isSome_iff_exists.mp
    (hrange.mpr ⟨.single (.relation ⟨.var "A_out", .ne, .num 0⟩),
    by simp [mixedFacts], _, rfl, by simp [Boundary.hull?, Constraint.range?]⟩)
  exact ⟨fun p hp => ⟨habout p hp, htrue p hp⟩, ⟨b, hb, hmerged b hb⟩, r, hr, hcovers r hr⟩

end Fact
end SignalFlow
