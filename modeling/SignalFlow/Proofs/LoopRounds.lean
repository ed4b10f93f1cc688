import SignalFlow.Proofs.FactMeaning
import SignalFlow.Proofs.Processing

/-!
# Rounds of a simulated loop

A simulation iterates a round from a seed, and ends when a round gives an entry of its
trace again.  Then the round of every entry is an entry: those before the last were
computed from their predecessors, and the round of the last was found in the trace.  The
summary is true where one of the entries is.

A round pushes facts through the members one by one, the representative last.  At an input
that is fed from inside the loop it knows what the round has computed for the source so
far, and at the others what is on the edges.

**Results.**
* `Run.closedUnder_of_closed`, `Run.forall_mem_trace`: the trace of a simulation that
  ended.
* `trueUnder_summary?`: the summary is the disjunction of the entries.
* `Propagation.simulate_eq_fixpoint`: where a summary comes from.
* `mem_memberOutput`, `mem_loopInlet`, `pushThrough_forall`, `loopRound_eq_ok`: what a
  round computes.
-/

namespace SignalFlow

variable {R : Type} [Scalar R]

/-! ### The trace -/

/-- The round of every entry is an entry, up to equality as written. -/
def Run.ClosedUnder (round : Boundary R → Except LoopFailure (Boundary R))
    (trace : List (Boundary R)) : Prop :=
  ∀ entry ∈ trace, ∃ next, round entry = .ok next ∧ ∃ entry' ∈ trace, next = entry' ∨
    (next == entry') = true

namespace Run

variable {round : Boundary R → Except LoopFailure (Boundary R)}
  {budget rounds rounds' : Nat} {trace trace' : List (Boundary R)} {current : Boundary R}

/-- All entries but the one that the simulation goes on from have their round in the
trace. -/
theorem closedUnder_of_closed
    (h : iterate round budget rounds trace current = .closed rounds' trace')
    (hmem : current ∈ trace)
    (htrace : ∀ entry ∈ trace, entry = current ∨ ∃ next ∈ trace, round entry = .ok next) :
    ClosedUnder round trace' := by
  fun_induction iterate round budget rounds trace current with
  | case1 => cases h
  | case2 => cases h
  | case3 budget rounds trace current next hnext hcontains =>
      cases h
      intro entry hentry
      rcases htrace entry hentry with rfl | ⟨next', hmem', hround⟩
      · obtain ⟨entry', hmem', heq⟩ := List.contains_iff_exists_mem_beq.mp hcontains
        exact ⟨next, hnext, entry', hmem', Or.inr heq⟩
      · exact ⟨next', hround, next', hmem', Or.inl rfl⟩
  | case4 budget rounds trace current next hnext hcontains ih =>
      refine ih h (by simp) fun entry hentry => ?_
      rcases List.mem_append.mp hentry with hentry | hentry
      · rcases htrace entry hentry with rfl | ⟨next', hmem', hround⟩
        · exact Or.inr ⟨next, by simp, hnext⟩
        · exact Or.inr ⟨next', by simp [hmem'], hround⟩
      · exact Or.inl (List.mem_singleton.mp hentry)

/-- What holds of the seed and is kept by rounds holds of all entries. -/
theorem forall_mem_trace {P : Boundary R → Prop}
    (h : iterate round budget rounds trace current = .closed rounds' trace')
    (hcurrent : P current) (htrace : ∀ entry ∈ trace, P entry)
    (hround : ∀ entry next, P entry → round entry = .ok next → P next) :
    ∀ entry ∈ trace', P entry := by
  fun_induction iterate round budget rounds trace current with
  | case1 => cases h
  | case2 => cases h
  | case3 =>
      cases h
      exact htrace
  | case4 budget rounds trace current next hnext hcontains ih =>
      have hP : P next := hround current next hcurrent hnext
      refine ih h hP fun entry hentry => ?_
      rcases List.mem_append.mp hentry with hentry | hentry
      · exact htrace entry hentry
      · exact List.mem_singleton.mp hentry ▸ hP

/-- The trace goes on from where it starts. -/
theorem head?_trace (h : iterate round budget rounds trace current =
      .closed rounds' trace') (hne : trace ≠ []) :
    trace'.head? = trace.head? := by
  fun_induction iterate round budget rounds trace current with
  | case1 => cases h
  | case2 => cases h
  | case3 =>
      cases h
      rfl
  | case4 budget rounds trace current next hnext hcontains ih =>
      rw [ih h (by simp), List.head?_append_of_ne_nil _ hne]

end Run

/-! ### The summary -/

section Summary

variable {atom : Relation R → Prop}

/-- An interval is true where the relations of its bounds are. -/
theorem Interval.trueUnder_toFormula (hatom : Respects atom) (i : Interval R) :
    i.toFormula.TrueUnder atom ↔
      (∀ b ∈ i.lower, atom ⟨i.term, if b.strict then .gt else .ge, b.value⟩) ∧
        ∀ b ∈ i.upper, atom ⟨i.term, if b.strict then .lt else .le, b.value⟩ := by
  rw [toFormula, Formula.trueUnder_conj hatom]
  cases hlower : i.lower <;> cases hupper : i.upper <;>
    simp [lowerRelation?, upperRelation?, hlower, hupper]

/-- Equal constraints are true alike. -/
theorem Constraint.trueUnder_of_beq (hatom : Respects atom) {c c' : Constraint R}
    (h : (c == c') = true) (htrue : c.toFormula.TrueUnder atom) :
    c'.toFormula.TrueUnder atom := by
  have hrelation : ∀ {t t' u u' : Term R} {op op' : Comparison},
      Term.beq t t' = true → op = op' →
      Term.beq u u' = true → atom ⟨t, op, u⟩ → atom ⟨t', op', u'⟩ := by
    intro t t' u u' op op' ht hop hu
    refine (hatom _ _ ?_).mp
    simp [Relation.beq_iff, ht, hop, hu]
  cases c with
  | interval i =>
      cases c' with
      | interval i' =>
          obtain ⟨hterm, hbounds⟩ := Bool.and_eq_true_iff.mp h
          obtain ⟨hlower, hupper⟩ := Bool.and_eq_true_iff.mp hbounds
          obtain ⟨hlowers, huppers⟩ := (i.trueUnder_toFormula hatom).mp htrue
          refine (i'.trueUnder_toFormula hatom).mpr ⟨fun b' hb' => ?_, fun b' hb' => ?_⟩
          · obtain ⟨b, hb, hstrict, hvalue⟩ := exists_bound_of_beq hlower hb'
            exact hrelation hterm (by rw [hstrict]) hvalue (hlowers b hb)
          · obtain ⟨b, hb, hstrict, hvalue⟩ := exists_bound_of_beq hupper hb'
            exact hrelation hterm (by rw [hstrict]) hvalue (huppers b hb)
      | relation r' => cases h
  | relation r =>
      cases c' with
      | interval i' => cases h
      | relation r' => exact (hatom r r' h).mp htrue

/-- A boundary is true where one of its constraints is. -/
theorem Boundary.trueUnder_toFormula (hatom : Respects atom) (b : Boundary R) :
    b.toFormula.TrueUnder atom ↔ ∃ c ∈ b.items, c.toFormula.TrueUnder atom := by
  rw [toFormula, Formula.trueUnder_disj hatom]
  simp

/-- The summary is true where one of the entries is. -/
theorem trueUnder_summary? (hatom : Respects atom) {trace : List (Boundary R)} {p : Fact R}
    (h : summary? trace = some p) :
    p.toFormula.TrueUnder atom ↔ ∃ entry ∈ trace, entry.toFormula.TrueUnder atom := by
  unfold summary? at h
  split at h
  · cases h
  · split at h
    · cases h
    · next b =>
        cases h
        simp [Fact.toFormula]
    · next bs =>
        cases h
        simp only [Fact.toFormula, Boundary.trueUnder_toFormula hatom, Boundary.flatten]
        rw [exists_distinct_iff fun _ _ h => Constraint.trueUnder_of_beq hatom h]
        simp only [List.mem_flatMap]
        constructor
        · rintro ⟨c, ⟨b, hb, hc⟩, htrue⟩
          exact ⟨b, hb, c, hc, htrue⟩
        · rintro ⟨b, hb, c, hc, htrue⟩
          exact ⟨c, ⟨b, hb, hc⟩, htrue⟩

end Summary

/-- A summary is that of the trace of a simulation that ended. -/
theorem Propagation.simulate_eq_fixpoint {st : Propagation R} {c : Setting}
    {members : List NodeId} {representative : NodeId} {rounds : Nat} {p : Fact R}
    (h : (st.simulate c members representative).2 = .fixpoint rounds p) :
    ∃ b seed trace, c.block? st.graph representative = some b ∧
      loopSeed? c st.graph b representative (.var (b.outputVar 0)) = some seed ∧
      Run.iterate
        (loopRound c st.graph (rotateBehind representative members) representative
        (.var (b.outputVar 0))) c.limits.maxRounds 0 [seed] seed = .closed rounds trace ∧
      summary? trace = some p := by
  unfold simulate at h
  split at h
  · cases h
  · next b hb =>
      dsimp only at h
      split at h
      · cases h
      · next seed hseed =>
          unfold conclude at h
          split at h
          · cases h
          · next rounds' trace hrun =>
              split at h
              · next p' hp' =>
                  cases h
                  exact ⟨b, seed, trace, hb, hseed, hrun, hp'⟩
              · cases h
          · cases h

/-! ### A round -/

/-- A fact about the output comes from a signal fact at an input, unless it was there
before. -/
theorem mem_advanceAll {rule : TransferRule R} {s : Site R} {acc : List (Fact R)}
    {q : Fact R} (h : q ∈ advanceAll rule s acc) :
    q ∈ acc ∨ ∃ pin i p, s.inlets[pin]? = some i ∧ p ∈ i.facts ∧
      rule.advance s pin p = .propagate q := by
  unfold advanceAll at h
  refine List.foldlRecOn (motive := fun facts : List (Fact R) =>
    ∀ q ∈ facts, q ∈ acc ∨ ∃ pin i p,
    s.inlets[pin]? = some i ∧ p ∈ i.facts ∧
      rule.advance s pin p = .propagate q) s.inlets.zipIdx _
    (fun _ hq => Or.inl hq) (fun facts hfacts x hx => ?_) q h
  have hi : s.inlets[x.2]? = some x.1 := List.mem_zipIdx_iff_getElem?.mp hx
  refine List.foldlRecOn (motive := fun facts : List (Fact R) =>
    ∀ q ∈ facts, q ∈ acc ∨ ∃ pin i p,
    s.inlets[pin]? = some i ∧ p ∈ i.facts ∧ rule.advance s pin p = .propagate q) _ _ hfacts
    fun facts hfacts p hp q hq => ?_
  split at hq
  · next q' hadvance =>
      split at hq
      · exact hfacts q hq
      · rcases mem_or_mem_of_mem_insertLast hq with hq | rfl
        · exact hfacts q hq
        · exact Or.inr ⟨x.2, x.1, p, hi, (List.mem_filter.mp hp).1, hadvance⟩
  · exact hfacts q hq

/-- Unless a guard is evaluated, a fact about the output of a member is its own or comes
from an input. -/
theorem mem_memberOutput {rule : TransferRule R} (hrule : rule.behaviour ≠ .control)
    {s : Site R} {q : Fact R} (h : q ∈ memberOutput rule s) :
    q ∈ rule.generate s.block ∨
      ∃ pin i p, s.inlets[pin]? = some i ∧ p ∈ i.facts ∧
        rule.advance s pin p = .propagate q := by
  unfold memberOutput at h
  rw [if_neg (by simpa using hrule)] at h
  exact mem_advanceAll h

section Round

variable {c : Setting} {g : FlowGraph R} {members nodes others : List NodeId}
  {values values' : RoundValues R} {n representative : NodeId} {b : Block} {pin : Nat}
  {p : Fact R}

omit [Scalar R] in
/-- What is known at an input that is fed from inside the loop comes from the round. -/
theorem mem_loopInlet (hp : p ∈ (loopInlet g members values n pin).facts) :
    ∃ e ∈ g.incoming n, e.target.pin = pin ∧
      ((e.source.node ∈ members ∧ ∃ facts q,
        values.lookup e.source.node = some facts ∧ q ∈ facts ∧
          p = q.retarget e.term) ∨
        (p ∈ e.facts ∧ ∀ e' ∈ g.incoming n, e'.target.pin = pin →
          e'.source.node ∉ members)) := by
  unfold loopInlet at hp
  dsimp only at hp
  split at hp
  · next hnone =>
      obtain ⟨e, he, hpe⟩ := List.mem_flatMap.mp hp
      rw [List.mem_filter, beq_iff_eq] at he
      rw [List.getLast?_eq_none_iff, List.filter_eq_nil_iff] at hnone
      refine ⟨e, he.1, he.2, Or.inr ⟨hpe, fun e' he' hpin hmem => hnone e' he' ?_⟩⟩
      simp [hpin, hmem]
  · next e hlast =>
      have he := List.mem_of_getLast? hlast
      simp only [List.mem_filter, Bool.and_eq_true, beq_iff_eq, List.contains_iff_mem]
        at he
      obtain ⟨q, hq, rfl⟩ := List.mem_map.mp hp
      cases hlookup : values.lookup e.source.node with
      | none => simp [hlookup] at hq
      | some facts =>
          rw [hlookup, Option.getD_some] at hq
          exact ⟨e, he.1, he.2.1, Or.inl ⟨he.2.2, facts, q, hlookup, hq, rfl⟩⟩

omit [Scalar R] in
theorem getElem?_inlets_loopSite {i : Inlet R}
    (hi : (loopSite g members values b n).inlets[pin]? = some i) :
    i = loopInlet g members values n pin := by
  rw [loopSite, List.getElem?_map, Option.map_eq_some_iff] at hi
  obtain ⟨pin', hpin', rfl⟩ := hi
  obtain ⟨_, rfl⟩ := List.getElem?_eq_some_iff.mp hpin'
  rw [List.getElem_range]

omit [Scalar R] in
theorem inletCount_le {bound : Nat} (hb : b.inputs ≤ bound)
    (h : ∀ e ∈ g.incoming n, e.target.pin < bound) : g.inletCount b n ≤ bound :=
  List.foldlRecOn (motive := fun count => count ≤ bound) (g.incoming n) _ hb
      fun _ hcount e he =>
    max_le hcount (h e he)

/-- What holds of the facts at the start, and of the output of each member if it holds of
the facts before, holds of all facts. -/
theorem pushThrough_forall {P : NodeId → List (Fact R) → Prop}
    (h : pushThrough c g members nodes values = .ok values')
    (hvalues : ∀ n facts, values.lookup n = some facts → P n facts)
    (hstep : ∀ n ∈ nodes, ∀ b, c.block? g n = some b → ∀ values : RoundValues R,
      (∀ n facts, values.lookup n = some facts → P n facts) →
        P n (memberOutput (c.rule b) (loopSite g members values b n))) :
    ∀ n facts, values'.lookup n = some facts → P n facts := by
  induction nodes generalizing values with
  | nil =>
      cases h
      exact hvalues
  | cons n nodes ih =>
      unfold pushThrough at h
      split at h
      · cases h
      · next b hb =>
          refine ih h (fun m facts hm => ?_) fun m hm =>
            hstep m (List.mem_cons_of_mem _ hm)
          rw [List.lookup_cons] at hm
          split at hm
          · next heq =>
              cases hm
              rw [eq_of_beq heq]
              exact hstep n List.mem_cons_self b hb values hvalues
          · exact hvalues m facts hm

theorem pushThrough_snoc
    (h : pushThrough c g members (nodes ++ [n]) values = .ok values') :
    ∃ before b, pushThrough c g members nodes values = .ok before ∧ c.block? g n = some b ∧
      values' = (n, memberOutput (c.rule b) (loopSite g members before b n)) ::
        before := by
  induction nodes generalizing values with
  | nil =>
      simp only [List.nil_append, pushThrough] at h
      split at h
      · cases h
      · next b hb =>
          cases h
          exact ⟨values, b, rfl, hb, rfl⟩
  | cons m nodes ih =>
      simp only [List.cons_append, pushThrough] at h ⊢
      split at h
      · cases h
      · exact ih h

/-- A round conjoins what follows for the output of the representative. -/
theorem loopRound_eq_ok {output : Term R} {current next : Boundary R}
    (h : loopRound c g (others ++ [representative]) representative output
      current = .ok next) :
    ∃ values b, pushThrough c g (others ++ [representative]) others
      [(representative, [.boundary current])] =
        .ok values ∧ c.block? g representative = some b ∧
      next = (Fact.conjoin? output (memberOutput (c.rule b)
        (loopSite g (others ++ [representative]) values b representative))).getD
          (.unbounded output) := by
  unfold loopRound at h
  split at h
  · cases h
  · split at h
    · cases h
    · next values hpush =>
        obtain ⟨before, b, hbefore, hb, rfl⟩ := pushThrough_snoc hpush
        cases h
        exact ⟨before, b, hbefore, hb, by simp⟩

end Round

omit [Scalar R] in
/-- The representative comes last, and once. -/
theorem Propagation.exists_rotateBehind {members : List NodeId} {representative : NodeId}
    (hnodup : members.Nodup) (h : representative ∈ members) :
    ∃ others, rotateBehind representative members = others ++ [representative] ∧
      representative ∉ others := by
  obtain ⟨before, after, rfl, hbefore⟩ := List.eq_append_cons_of_mem h
  have hafter : representative ∉ after :=
    (List.nodup_cons.mp (List.nodup_append.mp hnodup).2.1).1
  exact ⟨after ++ before, rotateBehind_append hbefore, by simp [hafter, hbefore]⟩

end SignalFlow
