import SignalFlow.Proofs.ExtendedRational
import SignalFlow.Proofs.LoopExecution

/-!
# The summary of a loop is an invariant

If the simulation of a loop ends with a summary, then its trace is closed under rounds, and
the summary is true where one of the entries is.  Along an execution of a loop with one
delay the seed allows the first output, and the round of an entry that allows an output
allows the next one.  So at every step some entry allows the output, and the summary is
true.

For this the signals have to end at inputs that the members read, and no two at the same
input, and facts have to be about the signals they are found on.  Otherwise a summary can
be false.  A gain takes facts from inputs that it does not read, and so is given a value
that it does not have.  Of two signals at one input a round sees the one from inside the
loop, when the other one may be read.  And a round takes a fact to be about the signal that
it is found on, whatever it says.

**Results.**
* `DelayLoop.dependable_seed`, `DelayLoop.exists_allows`: entries allow the outputs of an
  execution.
* `Propagation.summary_inductive`: closed traces, their summaries, and the invariant.
-/

namespace SignalFlow

variable {R : Type} [Scalar R] {ρ : ExtendedReading R}

namespace DelayLoop

variable {hρ : ρ.Exact} {c : Setting} {g : FlowGraph R} {members : List NodeId}
  {representative : NodeId} {b : Block} {w : Nat → Valuation ℝ}

/-- What the simulation starts from can be relied on, and allows the first output. -/
theorem dependable_seed (h : DelayLoop c g members representative b)
    (hsignals : LoopSignals c g members) (hproper : ProperFacts g members representative)
    (hexec : LoopExecution hρ c g members representative b w)
    (hfacts : FactsHold ρ g members representative w) {seed : Boundary R}
    (hseed : loopSeed? c g b representative (.var (b.outputVar 0)) = some seed) :
    Dependable ρ w (b.outputVar 0) seed ∧ seed.Allows ρ (w 0) (w 0 (b.outputVar 0)) := by
  unfold loopSeed? at hseed
  dsimp only at hseed
  split at hseed
  · next seed' hknown =>
      cases hseed
      have hfact : ∀ p ∈ ((g.outgoing representative).flatMap Edge.facts).filter
          Fact.isInformativeSignal,
          p.Determinate ∧ ∀ i, p.Allows ρ (w i) (w i (b.outputVar 0)) := by
        intro p hp
        obtain ⟨hp, hinformative⟩ := List.mem_filter.mp hp
        obtain ⟨e, he, hpe⟩ := List.mem_flatMap.mp hp
        have hloop : LoopFact g members representative e p :=
          ⟨hpe, Or.inr ⟨he, hinformative⟩⟩
        obtain ⟨hedge, hsource⟩ := h.wired.mem_outgoing.mp he
        rw [← hsignals.carried e hedge (hsource ▸ h.mem) b (hsource ▸ h.block_eq)]
        exact ⟨(hproper e p hloop).2, hfacts.allows hproper hloop⟩
      have hall : ∀ i, seed.Allows ρ (w i) (w i (b.outputVar 0)) := fun i =>
        Fact.allows_conjoin? (fun p hp =>
          ⟨(hfact p hp).1.legible hρ, (hfact p hp).2 i⟩) hknown
      obtain ⟨habout, hdet⟩ :=
        Fact.determinate_conjoined (fun p hp => (hfact p hp).1) (.var (b.outputVar 0))
      rw [hknown, Option.getD_some] at habout hdet
      exact ⟨⟨habout, hdet, Or.inr hall⟩, hall 0⟩
  · obtain ⟨p, hp, hboundary⟩ := Option.bind_eq_some_iff.mp hseed
    rw [h.rule_eq] at hp
    obtain ⟨a, ha, rfl⟩ := Option.map_eq_some_iff.mp hp
    cases hboundary
    obtain ⟨a', ha', hfinite⟩ := h.initial
    obtain rfl : a = a' := Option.some.inj (ha.symm.trans ha')
    have hpoint : (Range.point a).Encloses ρ (w 0 (b.outputVar 0)) :=
      .point (ExtendedReading.defined_of_isFinite hfinite) (hexec.start a ha).symm
    have hdescribes := Fact.describes_ofRange (v := w 0) hpoint (.var (b.outputVar 0))
    exact ⟨⟨hdescribes.about, hdescribes.determinate, Or.inl (Fact.ranged_ofRange _ _)⟩,
      hdescribes.allows⟩

/-- At every step some entry of a closed trace allows the output. -/
theorem exists_allows (h : DelayLoop c g members representative b)
    (hsignals : LoopSignals c g members) (hproper : ProperFacts g members representative)
    (hexec : LoopExecution hρ c g members representative b w)
    (hfacts : FactsHold ρ g members representative w) {trace : List (Boundary R)}
    (hclosed : Run.ClosedUnder
      (loopRound c g (Propagation.rotateBehind representative members) representative
      (.var (b.outputVar 0))) trace)
    (htrace : ∀ entry ∈ trace, Dependable ρ w (b.outputVar 0) entry)
    (hstart : ∃ entry ∈ trace, entry.Allows ρ (w 0) (w 0 (b.outputVar 0))) (i : Nat) :
    ∃ entry ∈ trace, entry.Allows ρ (w i) (w i (b.outputVar 0)) := by
  induction i with
  | zero => exact hstart
  | succ i ih =>
      obtain ⟨entry, hentry, hallows⟩ := ih
      obtain ⟨next, hround, entry', hentry', heq⟩ := hclosed entry hentry
      have hnext := (h.allows_round hround hsignals hproper hexec hfacts
        (htrace entry hentry) hallows).1
      rcases heq with rfl | heq
      · exact ⟨next, hentry', hnext⟩
      · exact ⟨entry', hentry', Boundary.allows_of_beq heq hnext⟩

end DelayLoop

namespace Propagation

/-- If the simulation of a loop gives a summary, then the round of every entry of its trace
is an entry again, and the summary is the disjunction of the entries.  In exact arithmetic
the summary is true at every step of every execution of a loop with one delay, if the
signals end at inputs that the members read, no two of them at the same input, the facts on
the edges into the loop and what was known about the output of the delay are about the
variables of their edges, with no bound undefined, and all these facts are true. -/
theorem summary_inductive {st : Propagation R} {c : Setting} {members : List NodeId}
    {representative : NodeId} {rounds : Nat} {p : Fact R}
    (h : (st.simulate c members representative).2 = .fixpoint rounds p) :
    ∃ b seed trace, c.block? st.graph representative = some b ∧
      loopSeed? c st.graph b representative (.var (b.outputVar 0)) = some seed ∧
      Run.iterate
        (loopRound c st.graph (rotateBehind representative members) representative
        (.var (b.outputVar 0))) c.limits.maxRounds 0 [seed] seed = .closed rounds trace ∧
      Run.ClosedUnder
        (loopRound c st.graph (rotateBehind representative members) representative
        (.var (b.outputVar 0))) trace ∧
      (∀ atom, Respects atom →
        (p.toFormula.TrueUnder atom ↔ ∃ entry ∈ trace, entry.toFormula.TrueUnder atom)) ∧
      ∀ (ρ : ExtendedReading R) (hρ : ρ.Exact) (w : Nat → Valuation ℝ),
        DelayLoop c st.graph members representative b → LoopSignals c st.graph members →
        ProperFacts st.graph members representative →
        LoopExecution hρ c st.graph members representative b w →
          FactsHold ρ st.graph members representative w →
          ∀ i, p.toFormula.TrueAt ρ (w i) := by
  obtain ⟨b, seed, trace, hb, hseed, hrun, hsummary⟩ := simulate_eq_fixpoint h
  have hclosed := Run.closedUnder_of_closed hrun (List.mem_singleton_self seed)
    fun entry hentry => Or.inl (List.mem_singleton.mp hentry)
  have hmem : seed ∈ trace := by
    have hhead := Run.head?_trace hrun (List.cons_ne_nil seed [])
    exact List.mem_of_mem_head? hhead
  refine ⟨b, seed, trace, hb, hseed, hrun, hclosed, fun atom hatom =>
    trueUnder_summary? hatom hsummary, ?_⟩
  intro ρ hρ w hloop hsignals hproper hexec hfacts i
  obtain ⟨hdependable, hstart⟩ := hloop.dependable_seed hsignals hproper hexec hfacts hseed
  have htrace : ∀ entry ∈ trace, DelayLoop.Dependable ρ w (b.outputVar 0) entry :=
    Run.forall_mem_trace hrun hdependable
      (fun entry hentry => List.mem_singleton.mp hentry ▸ hdependable)
      fun entry next hentry hround =>
        hloop.dependable_round hround hsignals hproper hexec hfacts hentry
  obtain ⟨entry, hentry, hallows⟩ :=
    hloop.exists_allows hsignals hproper hexec hfacts hclosed htrace ⟨seed, hmem, hstart⟩ i
  refine (trueUnder_summary? (Relation.respects_trueAt ρ (w i)) hsummary).mpr
    ⟨entry, hentry, ?_⟩
  show entry.toFormula.TrueAt ρ (w i)
  rw [Boundary.trueAt_iff_allows (htrace entry hentry).about, Term.extended_var]
  exact hallows

/-! ### A delay and one other block

The delay starts at one, and what the other block computes comes back to it.  A third block
feeds the other one from outside. -/

/-- The delay. -/
def delayOne : Block := ⟨1, "D", "UnitDelay", 1, 1, [("InitialCondition", "1")]⟩

/-- The other block changes the sign. -/
def opposite : Block := ⟨2, "G", "Gain", 1, 1, [("Gain", "-1")]⟩

/-- The other block multiplies with what comes from outside. -/
def multiplier : Block := ⟨2, "G", "Product", 2, 1, [("Inputs", "**")]⟩

/-- A constant outside the loop. -/
def constant (value : String) : Block := ⟨3, "C", "Constant", 0, 1, [("Value", value)]⟩

/-- The loop, with the third block at an input of the other one. -/
def alternating (other outer : Block) (pin : Nat) : Diagram where
  name := "alternating"
  blocks := [delayOne, other, outer]
  signals := [⟨1, ⟨1, 0⟩, ⟨2, 0⟩⟩, ⟨2, ⟨2, 0⟩, ⟨1, 0⟩⟩, ⟨3, ⟨3, 0⟩, ⟨2, pin⟩⟩]

/-- The graph, with a fact on the signal from outside. -/
def alternatingGraph (pin : Nat) (p : Fact ExtendedRational) :
    FlowGraph ExtendedRational :=
  let g := (((FlowGraph.empty.insertNode 1).2.insertNode 2).2.insertNode 3).2
  let g := (g.insertEdge 1 ⟨0, 0⟩ ⟨1, 0⟩ "D_out").2
  let g := (g.insertEdge 2 ⟨1, 0⟩ ⟨0, 0⟩ "G_out").2
  (g.insertEdge 3 ⟨2, 0⟩ ⟨1, pin⟩ "C_out").2.addEdgeFact 2 p

/-- The delay gives out `d`, and the other block what the delay gives out one step
later. -/
noncomputable def alternatingStates (d : Nat → ℝ) (outer : ℝ) (i : Nat) :
    Valuation ℝ := fun x =>
  if x = "D_out" then d i
  else if x = "G_out" then d (i + 1)
  else if x = "C_out" then outer else 1

section Alternating

variable {other outer : Block} {pin : Nat} {p : Fact ExtendedRational} {k : BlockKind}
  {d : Nat → ℝ} {a : ℝ}

theorem mem_edges_alternating {e : Edge ExtendedRational} :
    e ∈ (alternatingGraph pin p).edges ↔
      e = ⟨0, 1, ⟨0, 0⟩, ⟨1, 0⟩, "D_out", [], []⟩ ∨
        e = ⟨1, 2, ⟨1, 0⟩, ⟨0, 0⟩, "G_out", [], []⟩ ∨
        e = ⟨2, 3, ⟨2, 0⟩, ⟨1, pin⟩, "C_out", [p], [false]⟩ := by
  have hedges : (alternatingGraph pin p).edges = [⟨0, 1, ⟨0, 0⟩, ⟨1, 0⟩, "D_out", [], []⟩,
      ⟨1, 2, ⟨1, 0⟩, ⟨0, 0⟩, "G_out", [], []⟩,
      ⟨2, 3, ⟨2, 0⟩, ⟨1, pin⟩, "C_out", [p], [false]⟩] := rfl
  simp [hedges]

theorem wired_alternating (pin : Nat) (p : Fact ExtendedRational) :
    (alternatingGraph pin p).Wired := by
  have hregistered :=
    ((FlowGraph.Registered.empty (R := ExtendedRational)).insertNode 1).insertNode 2
  have hnodes := ((FlowGraph.Wired.empty.insertNode .empty 1).insertNode
    (.insertNode .empty 1) 2).insertNode hregistered 3
  have hfirst := hregistered.insertNode 3
  have hsecond := hfirst.insertEdge 1 ⟨0, 0⟩ ⟨1, 0⟩ "D_out"
  have hthird := hsecond.insertEdge 2 ⟨1, 0⟩ ⟨0, 0⟩ "G_out"
  refine (FlowGraph.extends_addEdgeFact _ 2 p).wired
    (((hnodes.insertEdge hfirst 1 "D_out" ?_ ?_).insertEdge
    hsecond 2 "G_out" ?_ ?_).insertEdge hthird 3 "C_out" ?_ (show 1 < _ from ?_)) <;>
      decide

theorem outputVar_delayOne : delayOne.outputVar 0 = "D_out" := by
  decide

theorem initialValue?_delayOne :
    delayOne.initialValue? = some (ExtendedRational.finite 1) := by
  decide +kernel

/-- What is needed of the other block. -/
structure ClosesLoop (other : Block) (k : BlockKind) : Prop where
  id : other.id = 2
  kind : Catalogue.builtin other.type = some k
  output : other.outputVar 0 = "G_out"
  regular : other.Regular ExtendedRational k
  plain : k ≠ .switch

theorem ClosesLoop.hasBlock (h : ClosesLoop other k) :
    Setting.HasBlock { diagram := alternating other outer pin }
      (alternatingGraph pin p) 0 delayOne .unitDelay ∧
      Setting.HasBlock { diagram := alternating other outer pin }
        (alternatingGraph pin p) 1 other k := by
  have hdelay : (alternatingGraph pin p).blockOf? 0 = some 1 := rfl
  have hother : (alternatingGraph pin p).blockOf? 1 = some 2 := rfl
  refine ⟨⟨?_, rfl⟩, ?_, h.kind⟩
  · rw [Setting.block?, hdelay]
    rfl
  · rw [Setting.block?, hother]
    simp [alternating, Diagram.block?, delayOne, h.id]

theorem ClosesLoop.delayLoop (h : ClosesLoop other k) :
    DelayLoop { diagram := alternating other outer pin } (alternatingGraph pin p) [0, 1] 0
      delayOne where
  wired := wired_alternating pin p
  loop := by
    have hfirst : (alternatingGraph pin p).Feeds 0 1 :=
      ⟨_, mem_edges_alternating.mpr (Or.inl rfl), rfl, rfl⟩
    have hlast : (alternatingGraph pin p).Feeds 1 0 :=
      ⟨_, mem_edges_alternating.mpr (Or.inr (Or.inl rfl)), rfl, rfl⟩
    have hlength : ∀ n ∈ [0, 1], n < (alternatingGraph pin p).nodes.length := by
      have hthree : (alternatingGraph pin p).nodes.length = 3 := rfl
      simp [hthree]
    exact ⟨0, 1, ⟨by decide, by simp [hfirst], rfl, rfl, hlength⟩, hlast⟩
  mem := by decide
  delay := Or.inl h.hasBlock.1
  initial := ⟨.finite 1, initialValue?_delayOne, by decide⟩
  stateless := by
    intro n hn hne
    obtain rfl : n = 1 := by simpa [hne] using hn
    exact ⟨other, k, h.hasBlock.2, h.regular, h.plain⟩

/-- An execution is given by what the delay gives out, if the other block computes this
from what arrives. -/
theorem ClosesLoop.execution (h : ClosesLoop other k) (hd : d 0 = 1)
    (hcomputes : ∀ i, ∃ u : Nat → ℝ,
      (alternatingGraph pin p).Arrives (alternatingStates d a i) 1 u ∧
        other.Computes ExtendedRational.exact_reading k u (d (i + 1))) :
    LoopExecution ExtendedRational.exact_reading { diagram := alternating other outer pin }
      (alternatingGraph pin p) [0, 1] 0 delayOne (alternatingStates d a) where
  start := by
    intro a ha
    obtain rfl := Option.some.inj (initialValue?_delayOne.symm.trans ha)
    simp [outputVar_delayOne, alternatingStates, hd, ExtendedRational.reading,
      ExtendedRational.toEReal]
  delayed := by
    intro i
    refine ⟨fun _ => d (i + 1), fun e he =>
      ⟨e, he, rfl, ?_⟩, by simp [outputVar_delayOne, alternatingStates]⟩
    obtain ⟨hmem, htarget⟩ := (wired_alternating pin p).mem_incoming.mp he
    rcases mem_edges_alternating.mp hmem with rfl | rfl | rfl
    · cases htarget
    · simp [alternatingStates]
    · cases htarget
  computed := by
    intro n hn hne b k' hb i
    obtain rfl : n = 1 := by simpa [hne] using hn
    obtain ⟨rfl, rfl⟩ := hb.unique h.hasBlock.2
    obtain ⟨u, hu, hcomputes⟩ := hcomputes i
    exact ⟨u, hu, by simpa [h.output, alternatingStates] using hcomputes⟩

/-- The only fact at the loop is that on the signal from outside. -/
theorem loopFact_alternating {e : Edge ExtendedRational} {q : Fact ExtendedRational}
    (h : LoopFact (alternatingGraph pin p) [0, 1] 0 e q) : e.var = "C_out" ∧ q = p := by
  obtain ⟨hq, ⟨n, _, he, _⟩ | ⟨he, _⟩⟩ := h
  · rcases mem_edges_alternating.mp ((wired_alternating pin p).mem_incoming.mp he).1 with
      rfl | rfl | rfl
    · cases hq
    · cases hq
    · exact ⟨rfl, List.mem_singleton.mp hq⟩
  · obtain ⟨hmem, hnode⟩ := (wired_alternating pin p).mem_outgoing.mp he
    rcases mem_edges_alternating.mp hmem with rfl | rfl | rfl
    · cases hq
    · cases hq
    · cases hnode

/-- At an input of its own that the other block reads, the signal from outside is as it
should be. -/
theorem ClosesLoop.signals (h : ClosesLoop other k) (hread : pin < other.arity k)
    (hother : 0 < pin) :
    LoopSignals { diagram := alternating other outer pin }
      (alternatingGraph pin p) [0, 1] where
  read := by
    intro n hn b k' hb e he
    obtain ⟨hmem, htarget⟩ := (wired_alternating pin p).mem_incoming.mp he
    rcases mem_edges_alternating.mp hmem with rfl | rfl | rfl
    · obtain ⟨rfl, rfl⟩ := (htarget ▸ hb).unique h.hasBlock.2
      exact hother.trans hread
    · obtain ⟨rfl, rfl⟩ := (htarget ▸ hb).unique h.hasBlock.1
      exact Nat.zero_lt_one
    · obtain ⟨rfl, rfl⟩ := (htarget ▸ hb).unique h.hasBlock.2
      exact hread
  single := by
    intro n _ e he e' he' hpin
    obtain ⟨hmem, htarget⟩ := (wired_alternating pin p).mem_incoming.mp he
    obtain ⟨hmem', htarget'⟩ := (wired_alternating pin p).mem_incoming.mp he'
    rcases mem_edges_alternating.mp hmem with rfl | rfl | rfl <;> obtain rfl := htarget <;>
      rcases mem_edges_alternating.mp hmem' with rfl | rfl | rfl <;>
        first
          | rfl
          | exact absurd hpin hother.ne
          | exact absurd hpin hother.ne'
          | cases htarget'
  carried := by
    intro e he hsource b hb
    rcases mem_edges_alternating.mp he with rfl | rfl | rfl
    · obtain rfl := Option.some.inj (hb.symm.trans h.hasBlock.1.1)
      exact outputVar_delayOne.symm
    · obtain rfl := Option.some.inj (hb.symm.trans h.hasBlock.2.1)
      exact h.output.symm
    · simp at hsource

/-- The signal from outside has this value. -/
def constantly (value : ℚ) : Fact ExtendedRational :=
  .single (.equals (.var "C_out") (.finite value))

theorem proper_constantly (value : ℚ) :
    ProperFacts (alternatingGraph pin (constantly value)) [0, 1] 0 := by
  intro e q hq
  obtain ⟨hvar, rfl⟩ := loopFact_alternating hq
  refine ⟨?_, fun c hc t ht => ?_⟩
  · rw [Edge.term, hvar]
    rfl
  · obtain rfl := List.mem_singleton.mp hc
    obtain rfl := List.mem_singleton.mp ht
    exact Term.determinate_of_isFinite
      (show (decide (value = value) && true && true) = true by simp)

theorem factsHold_constantly (value : ℚ) (d : Nat → ℝ) :
    FactsHold ExtendedRational.reading (alternatingGraph pin (constantly value)) [0, 1] 0
      (alternatingStates d value) := by
  intro e q hq i
  obtain ⟨_, rfl⟩ := loopFact_alternating hq
  have habout : (constantly value).About (.var "C_out") := rfl
  rw [Fact.trueAt_iff_allows habout]
  simp [constantly, Fact.Allows, Constraint.equals, Constraint.Allows, Comparison.Compares,
    alternatingStates, ExtendedRational.reading, ExtendedRational.toEReal]

end Alternating

theorem closesLoop_opposite : ClosesLoop opposite .gain where
  id := rfl
  kind := rfl
  output := by decide
  regular := by
    intro text htext
    obtain rfl : "-1" = text :=
      Option.some.inj (htext ▸ (by decide : some "-1" = opposite.param? "Gain"))
    exact Or.inr ⟨by decide, .finite (-1), by decide +kernel, by decide⟩
  plain := by decide

theorem closesLoop_multiplier : ClosesLoop multiplier .product where
  id := rfl
  kind := rfl
  output := by decide
  regular := by
    show ∀ divisor ∈ multiplier.divisors, divisor = false
    decide
  plain := by decide

theorem computes_opposite (u : Nat → ℝ) :
    opposite.Computes ExtendedRational.exact_reading .gain u (-u 0) := by
  intro factor hfactor
  have hgain : opposite.scalarOr? "Gain" 1 = some (ExtendedRational.finite (-1)) := by
    decide +kernel
  obtain rfl := Option.some.inj (hgain.symm.trans hfactor)
  simp

theorem computes_multiplier (u : Nat → ℝ) :
    multiplier.Computes ExtendedRational.exact_reading .product u (u 0 * u 1) := by
  have hdivisors : multiplier.divisors = [false, false] := by decide
  simp [Block.Computes, hdivisors, Block.plainProduct]

/-- What arrives at the other block, if the signal from outside ends at another input. -/
theorem arrives_alternating {pin : Nat} {p : Fact ExtendedRational} {d : Nat → ℝ} {a : ℝ}
    (hpin : pin ≠ 0) (i : Nat) :
    (alternatingGraph pin p).Arrives (alternatingStates d a i) 1 fun n =>
      if n = 0 then d i else a := by
  intro e he
  refine ⟨e, he, rfl, ?_⟩
  obtain ⟨hmem, htarget⟩ := (wired_alternating pin p).mem_incoming.mp he
  rcases mem_edges_alternating.mp hmem with rfl | rfl | rfl
  · simp [alternatingStates]
  · cases htarget
  · simp [alternatingStates, hpin]

/-- The output of the delay is multiplied with minus one again and again. -/
theorem summary_inductive_alternating :
    ∃ p, (simulate { graph := alternatingGraph 1 (constantly (-1)) }
        { diagram := alternating multiplier (constant "-1") 1 } [0, 1] 0).2 =
          .fixpoint 2 p ∧
      ∀ i, p.toFormula.TrueAt ExtendedRational.reading
        (alternatingStates (fun i => (-1) ^ i) (-1) i) := by
  have hrounds : (match (simulate { graph := alternatingGraph 1 (constantly (-1)) }
      { diagram := alternating multiplier (constant "-1") 1 } [0, 1] 0).2 with
      | .fixpoint rounds _ => some rounds
      | _ => none) = some 2 := by
    decide +kernel
  split at hrounds
  · next rounds p hfixpoint =>
      obtain rfl := Option.some.inj hrounds
      refine ⟨p, hfixpoint, ?_⟩
      obtain ⟨b, _, _, hb, _, _, _, _, hinvariant⟩ := summary_inductive hfixpoint
      obtain rfl := Option.some.inj (hb.symm.trans closesLoop_multiplier.hasBlock.1.1)
      refine hinvariant _ ExtendedRational.exact_reading _ closesLoop_multiplier.delayLoop
        (closesLoop_multiplier.signals (by decide) (by decide)) (proper_constantly (-1))
        (closesLoop_multiplier.execution (pow_zero _) fun i =>
          ⟨_, arrives_alternating (by decide) i, ?_⟩) ?_
      · simpa [pow_succ] using computes_multiplier fun n => if n = 0 then (-1) ^ i else -1
      · simpa using factsHold_constantly (-1) fun i => (-1) ^ i
  · cases hrounds

/-- The simulation gives a summary that is false after the first step of an execution,
though all facts are true. -/
def SummaryFails (other outer : Block) (pin : Nat) (p : Fact ExtendedRational)
    (d : Nat → ℝ) (a : ℝ) : Prop :=
  ∃ rounds q,
    (simulate { graph := alternatingGraph pin p }
      { diagram := alternating other outer pin } [0, 1] 0).2 = .fixpoint rounds q ∧
      DelayLoop { diagram := alternating other outer pin } (alternatingGraph pin p) [0, 1]
        0 delayOne ∧
      LoopExecution ExtendedRational.exact_reading
        { diagram := alternating other outer pin }
        (alternatingGraph pin p) [0, 1] 0 delayOne (alternatingStates d a) ∧
      FactsHold ExtendedRational.reading (alternatingGraph pin p) [0, 1] 0
        (alternatingStates d a) ∧
      ¬q.toFormula.TrueAt ExtendedRational.reading (alternatingStates d a 1)

/-- Ranges of the output of the delay, some without an upper bound. -/
def ranges (bounds : List (ℚ × Option ℚ)) : Boundary ExtendedRational :=
  ⟨bounds.map fun x =>
    .interval ⟨.var "D_out", some (.inclusive (.num (.finite x.1))),
      x.2.map fun a => .inclusive (.num (.finite a))⟩⟩

theorem not_trueAt_ranges {bounds : List (ℚ × Option ℚ)} {v : Valuation ℝ}
    (h : ∀ x ∈ bounds, v "D_out" < x.1) :
    ¬(ranges bounds).toFormula.TrueAt ExtendedRational.reading v := by
  have habout : (ranges bounds).About (.var "D_out") := by
    intro c hc
    obtain ⟨x, _, rfl⟩ := List.mem_map.mp hc
    rfl
  rw [Boundary.trueAt_iff_allows habout, Term.extended_var]
  rintro ⟨c, hc, hallows⟩
  obtain ⟨x, hx, rfl⟩ := List.mem_map.mp hc
  have hlower := (hallows.1 _ rfl).le
  rw [Bound.inclusive, Term.extended_num] at hlower
  have hle : ((x.1 : ℚ) : ℝ) ≤ v "D_out" := EReal.coe_le_coe_iff.mp hlower
  exact absurd (h x hx) (not_lt.mpr hle)

/-- A summary fails if the output of the delay is below its ranges after the first step. -/
theorem ClosesLoop.summaryFails {other outer : Block} {pin : Nat}
    {p : Fact ExtendedRational} {k : BlockKind} {d : Nat → ℝ} {a : ℝ}
    (h : ClosesLoop other k) (bounds : List (ℚ × Option ℚ)) (hd : d 0 = 1)
    (hcomputes : ∀ i, ∃ u : Nat → ℝ,
      (alternatingGraph pin p).Arrives (alternatingStates d a i) 1 u ∧
        other.Computes ExtendedRational.exact_reading k u (d (i + 1)))
    (hfacts : FactsHold ExtendedRational.reading (alternatingGraph pin p) [0, 1] 0
      (alternatingStates d a))
    (hsummary : (match (simulate { graph := alternatingGraph pin p }
        { diagram := alternating other outer pin } [0, 1] 0).2 with
      | .fixpoint _ q => q.toFormula == (ranges bounds).toFormula
      | _ => false) = true)
    (hbounds : ∀ x ∈ bounds, d 1 < x.1) : SummaryFails other outer pin p d a := by
  split at hsummary
  · next rounds q hfixpoint =>
      refine ⟨rounds, q, hfixpoint, h.delayLoop, h.execution hd hcomputes, hfacts,
        fun htrue => ?_⟩
      have hranges :=
        (Formula.trueUnder_iff_of_beq (Relation.respects_trueAt _ _) _ _ hsummary).mp htrue
      refine not_trueAt_ranges (fun x hx => ?_) hranges
      simpa [alternatingStates] using hbounds x hx
  · cases hsummary

/-- The sign changes, and a constant ends at an input that is not read: the output is taken
to stay at one, and it is minus one after the first step. -/
theorem summary_false_stray :
    SummaryFails opposite (constant "-1") 1 (constantly (-1)) (fun i => (-1) ^ i) (-1) ∧
      ProperFacts (alternatingGraph 1 (constantly (-1))) [0, 1] 0 := by
  refine ⟨closesLoop_opposite.summaryFails [(1, some 1)] (pow_zero _)
    (fun i => ⟨_, arrives_alternating (by decide) i, ?_⟩) ?_ (by decide +kernel) (by simp),
    proper_constantly (-1)⟩
  · simpa [pow_succ] using computes_opposite fun n => if n = 0 then (-1) ^ i else -1
  · simpa using factsHold_constantly (-1) fun i => (-1) ^ i

/-- The sign changes, and a constant ends at the same input as the signal from inside, and
is read. -/
theorem summary_false_doubled :
    SummaryFails opposite (constant "5") 0 (constantly 5)
      (fun i => if i = 0 then 1 else -5) 5 ∧
      ProperFacts (alternatingGraph 0 (constantly 5)) [0, 1] 0 := by
  refine ⟨closesLoop_opposite.summaryFails [(1, some 1), (-1, some 1)] rfl
    (fun i => ⟨fun _ => 5, fun e he => ?_, computes_opposite _⟩)
    ?_ (by decide +kernel) (by norm_num), proper_constantly 5⟩
  · obtain ⟨hmem, htarget⟩ := (wired_alternating 0 (constantly 5)).mem_incoming.mp he
    refine ⟨⟨2, 3, ⟨2, 0⟩, ⟨1, 0⟩, "C_out", [constantly 5], [false]⟩, ?_,
      ?_, by simp [alternatingStates]⟩
    · exact (wired_alternating 0 (constantly 5)).mem_incoming.mpr
        ⟨mem_edges_alternating.mpr (Or.inr (Or.inr rfl)), rfl⟩
    · rcases mem_edges_alternating.mp hmem with rfl | rfl | rfl <;> rfl
  · simpa using factsHold_constantly 5 fun i => if i = 0 then 1 else -5

/-- Another signal is at least one. -/
def foreign : Fact ExtendedRational :=
  .single (.interval ⟨.var "B_out", some (.inclusive (.num (.finite 1))), none⟩)

/-- The signal from outside is minus five, and has a true fact about another signal. -/
theorem summary_false_foreign :
    SummaryFails multiplier ⟨3, "C", "Inport", 0, 1, []⟩ 1 foreign
      (fun i => (-5) ^ i) (-5) ∧
      LoopSignals { diagram := alternating multiplier ⟨3, "C", "Inport", 0, 1, []⟩ 1 }
        (alternatingGraph 1 foreign) [0, 1] := by
  refine ⟨closesLoop_multiplier.summaryFails [(1, some 1), (1, none)] (pow_zero _)
    (fun i => ⟨_, arrives_alternating (by decide) i, ?_⟩) (fun e q hq i => ?_)
    (by decide +kernel) (by norm_num),
    closesLoop_multiplier.signals (by decide) (by decide)⟩
  · simpa [pow_succ] using computes_multiplier fun n => if n = 0 then (-5) ^ i else -5
  · obtain ⟨_, rfl⟩ := loopFact_alternating hq
    have habout : foreign.About (.var "B_out") := rfl
    rw [Fact.trueAt_iff_allows habout]
    simp [foreign, Fact.Allows, Constraint.Allows, Bound.inclusive, Range.Under,
      alternatingStates, ExtendedRational.reading, ExtendedRational.toEReal]

end Propagation
end SignalFlow
