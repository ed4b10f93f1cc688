import SignalFlow.Proofs.DelayedFacts

/-!
# Facts with constant bounds

Rules give facts of two kinds.  Where ranges are computed with, the bounds are constant: so
are the facts that a block establishes by itself.  A fact with other bounds is only ever
passed on as it is, about another term, by a block that reads a single input.

**Results.**
* `Fact.ranged_retarget`, `Fact.ranged_mapRanges?`, `Fact.ranged_conjoined`: how constant
  bounds come about.
* `TransferRule.ranged_generate`, `TransferRule.advance_cases`: blocks without state.
-/

namespace SignalFlow

variable {R : Type} [Scalar R] {ρ : ExtendedReading R}

/-! ### Facts with constant bounds -/

omit [Scalar R] in
@[simp] theorem Constraint.retarget_retarget (t t' : Term R) (c : Constraint R) :
    (c.retarget t).retarget t' = c.retarget t' := by
  cases c <;> rfl

theorem Constraint.range?_retarget (t : Term R) (c : Constraint R) :
    (c.retarget t).range? = c.range? := by
  cases c <;> rfl

theorem Range.isSome_range?_toInterval (r : Range R) (t : Term R) :
    (Constraint.interval (r.toInterval t)).range?.isSome = true := by
  by_cases hlo : Scalar.isFinite r.lo = true <;> by_cases hhi :
    Scalar.isFinite r.hi = true <;>
    simp [Constraint.range?, Interval.range?, Range.toInterval, Interval.endOf?, hlo, hhi]

namespace Fact

omit [Scalar R] in
theorem retarget_retarget (t t' : Term R) (p : Fact R) :
    (p.retarget t).retarget t' = p.retarget t' := by
  have hboundary : ∀ b : Boundary R, (b.retarget t).retarget t' = b.retarget t' := by
    intro b
    simp [Boundary.retarget]
  cases p with
  | single c => simp [retarget]
  | boundary b => simp [retarget, hboundary]
  | discrete bs => simp [retarget, hboundary]
  | control gs => simp [retarget, Guarded.retarget, hboundary]
  | data rs => rfl

theorem ranged_retarget (t : Term R) (p : Fact R) : (p.retarget t).Ranged ↔ p.Ranged := by
  simp [Ranged, items_retarget, Constraint.range?_retarget]

theorem Ranged.asBoundary? {p : Fact R} (h : p.Ranged) {b : Boundary R}
    (hb : p.asBoundary? = some b) : (boundary b).Ranged := by
  cases p with
  | single c =>
      cases hb
      exact h
  | boundary b' =>
      cases hb
      exact h
  | discrete bs =>
      cases hb
      exact fun c hc => h c (mem_of_mem_distinct hc)
  | control gs => cases hb
  | data rs => cases hb

theorem ranged_ofRange (t : Term R) (r : Range R) : (ofRange t r).Ranged := by
  intro c hc
  obtain rfl := List.mem_singleton.mp hc
  exact r.isSome_range?_toInterval t

theorem ranged_mapRanges? {p q : Fact R} {t : Term R} {f : Range R → Range R}
    (h : p.mapRanges? t f = some q) : q.Ranged := by
  have hboundary : ∀ {b b' : Boundary R}, b.mapRanges? t f = some b' →
      (boundary b').Ranged := by
    intro b b' hb c hc
    obtain ⟨r, rfl⟩ := Boundary.mem_items_mapRanges? hb hc
    exact (f r).isSome_range?_toInterval t
  unfold mapRanges? at h
  split at h
  · next bs =>
      obtain ⟨bs', hbs', rfl⟩ := Option.map_eq_some_iff.mp h
      intro c hc
      obtain ⟨b', hb', hcb'⟩ := List.mem_flatMap.mp hc
      obtain ⟨b, _, hb⟩ := (mem_mapM_iff hbs' b').mp (mem_of_mem_distinct hb')
      exact hboundary hb c hcb'
  · obtain ⟨b', hb', rfl⟩ := Option.map_eq_some_iff.mp h
    obtain ⟨b, _, hb⟩ := Option.bind_eq_some_iff.mp hb'
    exact hboundary hb

theorem ranged_mapEffect {p q : Fact R} {t : Term R} {f : Range R → Range R}
    (h : p.mapEffect t f = .propagate q) : q.Ranged := by
  unfold mapEffect Effect.ofOption at h
  split at h
  · next q' hq' =>
      cases h
      exact ranged_mapRanges? hq'
  · cases h

omit [Scalar R] in
theorem eq_retarget_of_passThrough {p q : Fact R} {t : Term R}
    (h : p.passThrough t = .propagate q) : q = p.retarget t := by
  unfold passThrough at h
  split at h <;> cases h
  rfl

end Fact

/-! ### Facts that hold together -/

namespace Boundary

omit [Scalar R] in
theorem about_unbounded (t : Term R) : (unbounded t).About t := by
  simp [About, unbounded, Constraint.subject]

theorem determinate_unbounded (t : Term R) : (unbounded t).Determinate := by
  simp [Determinate, unbounded, Constraint.Determinate, Constraint.bounds]

theorem ranged_unbounded (t : Term R) : (Fact.boundary (unbounded t)).Ranged := by
  simp [Fact.Ranged, Fact.items, unbounded, Constraint.range?, Interval.range?,
    Interval.endOf?]

theorem allows_unbounded (t : Term R) (v : Valuation ℝ) (a : EReal) :
    (unbounded t).Allows ρ v a := by
  simp [Allows, unbounded, Constraint.Allows]

end Boundary

namespace Fact

/-- Conjoined facts are one of them, a range or nothing. -/
theorem conjoined_of_forall {P : Boundary R → Prop} {t : Term R} {facts : List (Fact R)}
    (hfacts : ∀ p ∈ facts, ∀ b, p.asBoundary? = some b → P (b.retarget t))
    (hrange : ∀ r, P (.ofRange t r)) (hunbounded : P (.unbounded t)) :
    P ((conjoin? t facts).getD (.unbounded t)) := by
  have hfirst : ∀ b bs, facts.filterMap asBoundary? = b :: bs → P (b.retarget t) := by
    intro b bs hbs
    obtain ⟨p, hp, hpb⟩ : ∃ p ∈ facts, p.asBoundary? = some b := by
      simpa [hbs] using List.mem_filterMap (f := asBoundary?) (l := facts) (b := b)
    exact hfacts p hp b hpb
  unfold conjoin?
  split
  · exact hunbounded
  · next b hb => exact hfirst b [] hb
  · next b bs _ hbs =>
      split
      · exact hfirst b bs hbs
      · next r _ => exact hrange r

theorem determinate_conjoined {facts : List (Fact R)} (h : ∀ p ∈ facts, p.Determinate)
    (t : Term R) :
    ((conjoin? t facts).getD (.unbounded t)).About t ∧
      ((conjoin? t facts).getD (.unbounded t)).Determinate :=
  conjoined_of_forall (P := fun b => b.About t ∧ b.Determinate)
    (fun p hp b hb => ⟨b.about_retarget t, ((h p hp).asBoundary? hb).retarget t⟩)
    (fun r => ⟨Boundary.about_ofRange t r, Boundary.determinate_ofRange t r⟩)
    ⟨Boundary.about_unbounded t, Boundary.determinate_unbounded t⟩

theorem ranged_conjoined {facts : List (Fact R)} (h : ∀ p ∈ facts, p.Ranged) (t : Term R) :
    (boundary ((conjoin? t facts).getD (.unbounded t))).Ranged :=
  conjoined_of_forall (P := fun b => (boundary b).Ranged)
    (fun p hp b hb => (ranged_retarget t (boundary b)).mpr ((h p hp).asBoundary? hb))
    (ranged_ofRange t)
    (Boundary.ranged_unbounded t)

theorem allows_conjoined (hρ : ρ.Exact) {v : Valuation ℝ} {a : ℝ} {facts : List (Fact R)}
    (h : ∀ p ∈ facts, p.Determinate ∧ p.Allows ρ v a) (t : Term R) :
    ((conjoin? t facts).getD (.unbounded t)).Allows ρ v a := by
  cases hb : conjoin? t facts with
  | none => exact Boundary.allows_unbounded t v a
  | some b => exact allows_conjoin? (fun p hp => ⟨(h p hp).1.legible hρ, (h p hp).2⟩) hb

end Fact

/-! ### Members without state -/

namespace TransferRule

variable {b : Block} {s : Site R} {k : BlockKind} {p q : Fact R}

/-- Only a switch evaluates a guard. -/
theorem behaviour_ne_control (hk : k ≠ .switch) :
    (ofKind k : TransferRule R).behaviour ≠ .control := by
  intro h
  cases k with
  | switch => exact hk rfl
  | _ => cases h

/-- Facts that a block establishes by itself have constant bounds. -/
theorem ranged_generate (hregular : b.Regular R k) (hk : k ≠ .switch)
    (hq : q ∈ (ofKind k).generate b) : q.Ranged := by
  cases k with
  | switch => exact absurd rfl hk
  | saturation =>
      obtain ⟨lower, hlower, _⟩ := hregular.1.exists_value
      obtain ⟨upper, hupper, _⟩ := hregular.2.1.exists_value
      simp only [ofKind, saturation, Fact.between, hlower, hupper] at hq
      split at hq
      · cases hq
      · obtain rfl := List.mem_singleton.mp hq
        intro c hc
        obtain rfl := List.mem_singleton.mp hc
        cases lower <;> cases upper <;>
          simp [Constraint.range?, Interval.range?, Interval.endOf?, Bound.inclusive]
  | relationalOperator =>
      obtain rfl := List.mem_singleton.mp hq
      intro c hc
      rcases List.mem_pair.mp hc with rfl | rfl <;>
        simp [Constraint.equals, Constraint.range?]
  | gain => cases hq
  | sum => cases hq
  | add => cases hq
  | subtract => cases hq
  | product => cases hq
  | minMax => cases hq
  | _ => exact hregular.elim

/-- A fact is mapped to one with constant bounds, or passed on by a block that reads a
single input. -/
theorem advance_cases (hregular : s.block.Regular R k) (hk : k ≠ .switch) {pin : Nat}
    (h : (ofKind k).advance s pin p = .propagate q) :
    q.Ranged ∨ q = p.retarget s.output ∧ s.block.arity k = 1 := by
  have hsum : Transfer.sum s pin p = .propagate q →
      q.Ranged ∨ q = p.retarget s.output ∧ max s.block.inputs 1 = 1 := by
    intro h
    unfold Transfer.sum at h
    dsimp only at h
    split at h
    · next hsingle =>
        simp only [Block.subtracted, Block.length_invertedBy, Bool.and_eq_true,
          decide_eq_true_eq] at hsingle
        split at h
        · exact Or.inl (Fact.ranged_mapEffect h)
        · exact Or.inr ⟨Fact.eq_retarget_of_passThrough h, by omega⟩
    · exact Or.inl (Fact.ranged_mapEffect h)
  cases k with
  | switch => exact absurd rfl hk
  | gain =>
      change Transfer.gain s p = .propagate q at h
      unfold Transfer.gain at h
      split at h
      · cases h
      · split at h
        · exact Or.inr ⟨Fact.eq_retarget_of_passThrough h, rfl⟩
        · exact Or.inl (Fact.ranged_mapEffect h)
  | sum => exact hsum h
  | add => exact hsum h
  | subtract => exact hsum h
  | product =>
      change Transfer.product s pin p = .propagate q at h
      unfold Transfer.product at h
      dsimp only at h
      split at h
      · next hsingle =>
          simp only [Block.divisors, Block.length_invertedBy, Bool.and_eq_true,
            decide_eq_true_eq] at hsingle
          split at h
          · exact Or.inl (Fact.ranged_mapEffect h)
          · refine Or.inr ⟨Fact.eq_retarget_of_passThrough h, ?_⟩
            simp only [Block.arity]
            omega
      · split at h
        · split at h
          · cases h
          · exact Or.inl (Fact.ranged_mapEffect h)
        · exact Or.inl (Fact.ranged_mapEffect h)
  | saturation =>
      change Transfer.saturation s p = .propagate q at h
      unfold Transfer.saturation at h
      split at h
      · split at h
        · exact Or.inl (Fact.ranged_mapEffect h)
        · cases h
      · cases h
  | minMax =>
      change Transfer.minMax s pin p = .propagate q at h
      unfold Transfer.minMax at h
      split at h
      · next hsingle =>
          refine Or.inr ⟨Fact.eq_retarget_of_passThrough h, ?_⟩
          simp only [Block.arity]
          unfold Site.inputCount at hsingle
          omega
      · exact Or.inl (Fact.ranged_mapEffect h)
  | relationalOperator => cases h
  | _ => exact hregular.elim

end TransferRule

end SignalFlow
