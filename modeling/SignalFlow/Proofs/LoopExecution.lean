import SignalFlow.Proofs.ConstantBounds
import SignalFlow.Proofs.LoopRounds
import SignalFlow.Proofs.LoopSearch

/-!
# Executions of a loop with one delay

A loop is closed by a delay, its representative; the other members compute their outputs
without state.  An *execution* gives every signal a value at every step.  The output of the
delay is its initial state first and then what arrived one step before.

Facts that a round of the simulation gives for a step describe the values at that step, and
those for the representative describe its output at the next step.  They are of two kinds.
Facts with constant bounds have been widened by the initial state when they pass the delay,
so that they allow the first output as well.  A fact with other bounds has come around the
loop unchanged, from the entry that the round started with; nothing is known about what its
bounds are one step later, so it has to be true at all steps.

**Results.**
* `DelayLoop.allows_values`: what a round computes allows the values at one step.
* `DelayLoop.dependable_round`, `DelayLoop.allows_round`: a round gives what can be relied
  on, and steps with the execution.
-/

namespace SignalFlow

variable {R : Type} [Scalar R] {ρ : ExtendedReading R}

/-! ### Loops and their executions -/

/-- The node stands for a block of this kind. -/
def Setting.HasBlock (c : Setting) (g : FlowGraph R) (n : NodeId) (b : Block)
    (k : BlockKind) : Prop :=
  c.block? g n = some b ∧ c.catalogue b.type = some k

theorem Setting.HasBlock.rule_eq {c : Setting} {g : FlowGraph R} {n : NodeId} {b : Block}
    {k : BlockKind} (h : c.HasBlock g n b k) :
    c.rule b = (.ofKind k : TransferRule R) := by
  rw [Setting.rule, Catalogue.rule, h.2]

omit [Scalar R] in
theorem Setting.HasBlock.unique {c : Setting} {g : FlowGraph R} {n : NodeId} {b b' : Block}
    {k k' : BlockKind} (h : c.HasBlock g n b k) (h' : c.HasBlock g n b' k') :
    b = b' ∧ k = k' := by
  obtain rfl : b = b' := Option.some.inj (h.1.symm.trans h'.1)
  exact ⟨rfl, Option.some.inj (h.2.symm.trans h'.2)⟩

/-- A loop that is closed by a delay, with a finite initial state.  The other members
compute their outputs without state and without a guard. -/
structure DelayLoop (c : Setting) (g : FlowGraph R) (members : List NodeId)
    (representative : NodeId) (b : Block) : Prop where
  wired : g.Wired
  loop : ∃ start, g.LoopAt start members
  mem : representative ∈ members
  delay : c.HasBlock g representative b .unitDelay ∨ c.HasBlock g representative b .memory
  initial : ∃ a : R, b.initialValue? = some a ∧ Scalar.isFinite a = true
  stateless : ∀ n ∈ members, n ≠ representative → ∃ b k, c.HasBlock g n b k ∧
    b.Regular R k ∧ k ≠ .switch

/-- Every signal that ends at a member ends at an input that the member reads, no two of
them at the same input; and every signal that leaves a member carries its output. -/
structure LoopSignals (c : Setting) (g : FlowGraph R) (members : List NodeId) : Prop where
  read : ∀ n ∈ members, ∀ b k, c.HasBlock g n b k → ∀ e ∈ g.incoming n,
    e.target.pin < b.arity k
  single : ∀ n ∈ members, ∀ e ∈ g.incoming n, ∀ e' ∈ g.incoming n,
    e.target.pin = e'.target.pin → e = e'
  carried : ∀ e ∈ g.edges, e.source.node ∈ members →
    ∀ b, c.block? g e.source.node = some b →
    e.var = b.outputVar 0

/-- The value at a connected input of a node is that of a signal that ends there. -/
def FlowGraph.Arrives (g : FlowGraph R) (v : Valuation ℝ) (n : NodeId)
    (u : Nat → ℝ) : Prop :=
  ∀ e ∈ g.incoming n, ∃ e' ∈ g.incoming n, e'.target.pin = e.target.pin ∧
    u e.target.pin = v e'.var

/-- The values of all signals at every step: the delay starts in its initial state and then
gives out what arrived one step before, and every other member computes its output from
what arrives. -/
structure LoopExecution (hρ : ρ.Exact) (c : Setting) (g : FlowGraph R)
    (members : List NodeId) (representative : NodeId) (b : Block)
    (w : Nat → Valuation ℝ) : Prop where
  start : ∀ a : R, b.initialValue? = some a → (w 0 (b.outputVar 0) : EReal) = ρ.lit a
  delayed : ∀ i, ∃ u, g.Arrives (w i) representative u ∧ w (i + 1) (b.outputVar 0) = u 0
  computed : ∀ n ∈ members, n ≠ representative → ∀ b k, c.HasBlock g n b k → ∀ i,
    ∃ u, g.Arrives (w i) n u ∧ b.Computes hρ k u (w i (b.outputVar 0))

/-- The fact is on an edge into the loop, or it is what is known about the output of the
delay. -/
def LoopFact (g : FlowGraph R) (members : List NodeId) (representative : NodeId)
    (e : Edge R) (p : Fact R) : Prop :=
  p ∈ e.facts ∧
    ((∃ n ∈ members, e ∈ g.incoming n ∧ e.source.node ∉ members) ∨
      e ∈ g.outgoing representative ∧ p.isInformativeSignal = true)

/-- The facts that a simulation takes up are about the variables of their edges, and no
bound is undefined. -/
def ProperFacts (g : FlowGraph R) (members : List NodeId)
    (representative : NodeId) : Prop :=
  ∀ e p, LoopFact g members representative e p → p.About e.term ∧ p.Determinate

/-- The facts that a simulation takes up are true at every step. -/
def FactsHold (ρ : ExtendedReading R) (g : FlowGraph R) (members : List NodeId)
    (representative : NodeId) (w : Nat → Valuation ℝ) : Prop :=
  ∀ e p, LoopFact g members representative e p → ∀ i, p.toFormula.TrueAt ρ (w i)

/-- Where they are true, such facts allow the value of the signal. -/
theorem FactsHold.allows {g : FlowGraph R} {members : List NodeId}
    {representative : NodeId} {w : Nat → Valuation ℝ}
    (h : FactsHold ρ g members representative w)
    (hproper : ProperFacts g members representative) {e : Edge R} {p : Fact R}
    (hp : LoopFact g members representative e p) (i : Nat) :
    p.Allows ρ (w i) (w i e.var) := by
  have htrue := h e p hp i
  rwa [Fact.trueAt_iff_allows (hproper e p hp).1, Edge.term, Term.extended_var] at htrue

omit [Scalar R] in
theorem LoopSignals.arrives {c : Setting} {g : FlowGraph R} {members : List NodeId}
    {n : NodeId} {v : Valuation ℝ} {u : Nat → ℝ} (h : LoopSignals c g members)
    (hn : n ∈ members) (hu : g.Arrives v n u) {e : Edge R} (he : e ∈ g.incoming n) :
    u e.target.pin = v e.var := by
  obtain ⟨e', he', hpin, heq⟩ := hu e he
  rw [heq, h.single n hn e' he' e he hpin]

omit [Scalar R] in
/-- Every member of a loop is fed by a member. -/
theorem FlowGraph.LoopAt.exists_feeds {g : FlowGraph R} {start n : NodeId}
    {members : List NodeId} (h : g.LoopAt start members) (hn : n ∈ members) :
    ∃ m ∈ members, g.Feeds m n := by
  obtain ⟨last, htrail, hfeeds⟩ := h
  obtain ⟨before, after, rfl⟩ := List.append_of_mem hn
  cases hlast : before.getLast? with
  | none =>
      obtain rfl := List.getLast?_eq_none_iff.mp hlast
      obtain rfl : n = start := by simpa using htrail.head
      exact ⟨last, List.mem_of_getLast? htrail.last, hfeeds⟩
  | some m =>
      have hchain := (List.isChain_append.mp htrail.chain).2.2 m hlast n (by simp)
      exact ⟨m, List.mem_append_left _ (List.mem_of_getLast? hlast), hchain⟩

namespace DelayLoop

variable {c : Setting} {g : FlowGraph R} {members order others : List NodeId}
  {representative n : NodeId} {b : Block} {w : Nat → Valuation ℝ} {values : RoundValues R}
  {current : Boundary R} {i : Nat}

theorem nodup (h : DelayLoop c g members representative b) : members.Nodup := by
  obtain ⟨_, _, htrail, _⟩ := h.loop
  exact htrail.nodup

theorem block_eq (h : DelayLoop c g members representative b) :
    c.block? g representative = some b :=
  h.delay.elim And.left And.left

theorem exists_kind (h : DelayLoop c g members representative b) :
    ∃ k, c.HasBlock g representative b k ∧ b.arity k = 1 ∧
      (.ofKind k : TransferRule R) = .delay := by
  rcases h.delay with hb | hb
  · exact ⟨_, hb, rfl, rfl⟩
  · exact ⟨_, hb, rfl, rfl⟩

theorem rule_eq (h : DelayLoop c g members representative b) :
    c.rule b = (.delay : TransferRule R) := by
  obtain ⟨_, hb, _, hrule⟩ := h.exists_kind
  rw [hb.rule_eq, hrule]

theorem exists_block (h : DelayLoop c g members representative b) (hn : n ∈ members) :
    ∃ b, c.block? g n = some b := by
  by_cases hrep : n = representative
  · exact ⟨b, hrep ▸ h.block_eq⟩
  · obtain ⟨b', _, hb', _⟩ := h.stateless n hn hrep
    exact ⟨b', hb'.1⟩

theorem exists_inner_edge (h : DelayLoop c g members representative b) (hn : n ∈ members) :
    ∃ e ∈ g.incoming n, e.source.node ∈ members := by
  obtain ⟨start, hloop⟩ := h.loop
  obtain ⟨m, hm, e, he, hsource, htarget⟩ := hloop.exists_feeds hn
  exact ⟨e, h.wired.mem_incoming.mpr ⟨he, htarget⟩, hsource ▸ hm⟩

/-! ### What comes around the loop -/

/-- The fact has constant bounds, or says the same as the entry. -/
def Repeats (current : Boundary R) (p : Fact R) : Prop :=
  p.Ranged ∨ ∀ t, p.retarget t = .boundary (current.retarget t)

theorem Repeats.retarget {p : Fact R} (h : Repeats current p) (t : Term R) :
    Repeats current (p.retarget t) := by
  refine h.imp (Fact.ranged_retarget t p).mpr fun heq t' => ?_
  rw [Fact.retarget_retarget, heq]

section Round

variable (h : DelayLoop c g members representative b)
  (horder : ∀ m, m ∈ order ↔ m ∈ members)

include h horder

/-- A member that reads a single input is fed there from inside the loop. -/
theorem mem_loopInlet_of_single (hn : n ∈ members)
    (hsingle : ∀ e ∈ g.incoming n, e.target.pin = 0) {pin : Nat} {p : Fact R}
    (hp : p ∈ (loopInlet g order values n pin).facts) :
    pin = 0 ∧ ∃ m facts q t, values.lookup m = some facts ∧ q ∈ facts ∧
      p = q.retarget t := by
  obtain ⟨e, he, hpin, ⟨_, facts, q, hlookup, hq, rfl⟩ | ⟨_, houter⟩⟩ := mem_loopInlet hp
  · exact ⟨hpin ▸ hsingle e he, _, facts, q, e.term, hlookup, hq, rfl⟩
  · obtain ⟨e', he', hinner⟩ := h.exists_inner_edge hn
    have hpin' : e'.target.pin = pin := by rw [hsingle e' he', ← hpin, hsingle e he]
    exact absurd ((horder _).mpr hinner) (houter e' he' hpin')

variable (hsignals : LoopSignals c g members)
  (hothers : ∀ m ∈ others, m ∈ members ∧ m ≠ representative)
  (hpush : pushThrough c g order others [(representative, [.boundary current])] =
    .ok values)

include hsignals hothers hpush

/-- Facts that a round computes have constant bounds, or have come from the entry
unchanged. -/
theorem repeats_values : ∀ m facts, values.lookup m = some facts →
      ∀ p ∈ facts, Repeats current p := by
  refine pushThrough_forall hpush (fun m facts hm p hp => ?_)
    fun m hm b' hb' values hvalues q hq => ?_
  · rw [List.lookup_cons] at hm
    split at hm
    · cases hm
      obtain rfl := List.mem_singleton.mp hp
      exact Or.inr fun _ => rfl
    · cases hm
  · obtain ⟨hmem, hrep⟩ := hothers m hm
    obtain ⟨_, k, hblock, hregular, hswitch⟩ := h.stateless m hmem hrep
    obtain rfl : b' = _ := Option.some.inj (hb'.symm.trans hblock.1)
    rw [hblock.rule_eq] at hq
    rcases mem_memberOutput (TransferRule.behaviour_ne_control hswitch) hq with
      hq | ⟨pin, inlet, p, hinlet, hp, hq⟩
    · exact Or.inl (TransferRule.ranged_generate hregular hswitch hq)
    · rcases TransferRule.advance_cases hregular hswitch hq with hranged | ⟨rfl, harity⟩
      · exact Or.inl hranged
      · -- The block reads a single input, which is fed from inside.
        rw [getElem?_inlets_loopSite hinlet] at hp
        have hsingle : ∀ e ∈ g.incoming m, e.target.pin = 0 := by
          intro e he
          have hpin := hsignals.read m hmem b' k hblock e he
          change b'.arity k = 1 at harity
          omega
        obtain ⟨_, m', facts, q, t, hlookup, hqmem, rfl⟩ :=
          h.mem_loopInlet_of_single horder hmem hsingle hp
        exact ((hvalues m' facts hlookup q hqmem).retarget t).retarget _

/-- At the delay facts are widened by the initial state, unless they say what the entry
says and its bounds are not constant. -/
theorem output_cases {q : Fact R}
    (hq : q ∈ memberOutput (c.rule b) (loopSite g order values b representative)) :
    (∃ inlet p a, (loopSite g order values b representative).inlets[0]? = some inlet ∧
      p ∈ inlet.facts ∧
      b.initialValue? = some a ∧
        p.mapRanges? (.var (b.outputVar 0)) (fun r => r.hull (.point a)) = some q) ∨
      q = .boundary (current.retarget (.var (b.outputVar 0))) ∧
        ¬(Fact.boundary current).Ranged := by
  have hsingle : ∀ e ∈ g.incoming representative, e.target.pin = 0 := by
    intro e he
    obtain ⟨k, hb, harity, _⟩ := h.exists_kind
    have hpin := hsignals.read _ h.mem b k hb e he
    omega
  rw [h.rule_eq] at hq
  rcases mem_memberOutput (fun hcontrol => by cases hcontrol) hq with
    hq | ⟨pin, inlet, p, hinlet, hp, hq⟩
  · cases hq
  · have hfrom := getElem?_inlets_loopSite hinlet ▸ hp
    obtain ⟨rfl, m, facts, p', t, hlookup, hp', rfl⟩ :=
      h.mem_loopInlet_of_single horder h.mem hsingle hfrom
    obtain ⟨_, ⟨a, ha, hmap⟩ | ⟨rfl, hpassed⟩⟩ := Transfer.delay_cases hq
    · exact Or.inl ⟨inlet, _, a, hinlet, hp, ha, hmap⟩
    · obtain ⟨a, ha, _⟩ := h.initial
      have hnot : ¬p'.Ranged := by
        rw [← Fact.ranged_retarget t]
        exact hpassed (Option.isSome_iff_exists.mpr ⟨a, ha⟩)
      have heq := (h.repeats_values horder hsignals hothers hpush m facts hlookup p'
        hp').resolve_left hnot
      refine Or.inr ⟨?_, ?_⟩
      · rw [Fact.retarget_retarget, heq]
        rfl
      · rw [← Fact.ranged_retarget t] at hnot ⊢
        rwa [heq] at hnot

theorem determinate_output (hdet : current.Determinate) {q : Fact R}
    (hq : q ∈ memberOutput (c.rule b) (loopSite g order values b representative)) :
    q.Determinate ∧ ((Fact.boundary current).Ranged → q.Ranged) := by
  rcases h.output_cases horder hsignals hothers hpush hq with
    ⟨_, p, a, _, _, _, hmap⟩ | ⟨rfl, hranged⟩
  · exact ⟨(Fact.about_mapRanges? hmap).2, fun _ => Fact.ranged_mapRanges? hmap⟩
  · exact ⟨hdet.retarget _, fun h => absurd h hranged⟩

end Round

/-! ### One step of an execution -/

/-- The facts allow the value that the output of the node has. -/
def Allowing (ρ : ExtendedReading R) (c : Setting) (g : FlowGraph R) (v : Valuation ℝ)
    (n : NodeId) (facts : List (Fact R)) : Prop :=
  ∀ b, c.block? g n = some b → ∀ p ∈ facts, p.Determinate ∧
    p.Allows ρ v (v (b.outputVar 0))

/-- What is about the output of the delay, with determinate bounds, and with bounds that
are constant if it is not true at all steps. -/
structure Dependable (ρ : ExtendedReading R) (w : Nat → Valuation ℝ) (x : String)
    (current : Boundary R) : Prop where
  about : current.About (.var x)
  determinate : current.Determinate
  ranged_or_allows : (Fact.boundary current).Ranged ∨ ∀ i, current.Allows ρ (w i) (w i x)

section Execution

variable {hρ : ρ.Exact} (h : DelayLoop c g members representative b)
  (horder : ∀ m, m ∈ order ↔ m ∈ members) (hsignals : LoopSignals c g members)
  (hproper : ProperFacts g members representative)
  (hexec : LoopExecution hρ c g members representative b w)
  (hfacts : FactsHold ρ g members representative w)

include h horder hsignals hproper hfacts

/-- The facts at the inputs of a member allow what arrives there. -/
theorem admits_loopSite (hn : n ∈ members) {b' : Block} {k : BlockKind}
    (hb' : c.HasBlock g n b' k) {u : Nat → ℝ} (hu : g.Arrives (w i) n u)
    (hvalues : ∀ m facts, values.lookup m = some facts → Allowing ρ c g (w i) m facts) :
    (loopSite g order values b' n).Admits ρ (w i) k u := by
  have harity : b'.arity k ≤ max b'.inputs 1 := by
    cases k <;> simp [Block.arity]
  refine ⟨?_, fun pin inlet hinlet p hp => ?_⟩
  · rw [loopSite, List.length_map, List.length_range]
    exact inletCount_le (Nat.le_max_left _ _) fun e he =>
      (hsignals.read n hn b' k hb' e he).trans_le harity
  · rw [getElem?_inlets_loopSite hinlet] at hp
    obtain ⟨e, he, rfl, hp⟩ := mem_loopInlet hp
    refine ⟨hsignals.read n hn b' k hb' e he, ?_⟩
    rw [hsignals.arrives hn hu he]
    rcases hp with ⟨hmem, facts, q, hlookup, hq, rfl⟩ | ⟨hpe, houter⟩
    · obtain ⟨source, hsource⟩ := h.exists_block ((horder _).mp hmem)
      obtain ⟨hdet, hallows⟩ := hvalues _ facts hlookup source hsource q hq
      rw [hsignals.carried e (h.wired.mem_incoming.mp he).1
        ((horder _).mp hmem) source hsource]
      exact ⟨hdet.retarget _, (q.allows_retarget _).mpr hallows⟩
    · have hmem : e.source.node ∉ members := fun hmem =>
        houter e he rfl ((horder _).mpr hmem)
      have hfact : LoopFact g members representative e p := ⟨hpe, Or.inl ⟨n, hn, he, hmem⟩⟩
      exact ⟨(hproper e p hfact).2, hfacts.allows hproper hfact i⟩

include hexec

/-- Pushed through a member without state, facts allow what it computes. -/
theorem allowing_memberOutput (hn : n ∈ members) (hrep : n ≠ representative) {b' : Block}
    (hb' : c.block? g n = some b')
    (hvalues : ∀ m facts, values.lookup m = some facts → Allowing ρ c g (w i) m facts) :
    Allowing ρ c g (w i) n (memberOutput (c.rule b') (loopSite g order values b' n)) := by
  intro b'' hb'' q hq
  obtain rfl : b' = b'' := Option.some.inj (hb'.symm.trans hb'')
  obtain ⟨_, k, hblock, hregular, hswitch⟩ := h.stateless n hn hrep
  obtain rfl : b' = _ := Option.some.inj (hb'.symm.trans hblock.1)
  obtain ⟨u, hu, hcomputes⟩ := hexec.computed n hn hrep b' k hblock i
  have hadmits := h.admits_loopSite horder hsignals hproper hfacts hn hblock hu hvalues
  rw [hblock.rule_eq] at hq
  suffices hdescribes : q.Describes ρ (w i) (loopSite g order values b' n).output
    (w i (b'.outputVar 0)) from
    ⟨hdescribes.determinate, hdescribes.allows⟩
  rcases mem_memberOutput (TransferRule.behaviour_ne_control hswitch) hq with
    hq | ⟨pin, inlet, p, hinlet, hp, hq⟩
  · exact TransferRule.describes_generate hρ hregular hcomputes hq
  · exact TransferRule.describes_advance hρ hregular hadmits hcomputes
      (fun hk => absurd hk hswitch) hinlet hp hq

variable (hothers : ∀ m ∈ others, m ∈ members ∧ m ≠ representative)
  (hpush : pushThrough c g order others [(representative, [.boundary current])] =
    .ok values)

include hothers hpush

/-- All that a round computes before it comes back to the representative allows the values
at the step. -/
theorem allows_values (hdet : current.Determinate)
    (hcurrent : current.Allows ρ (w i) (w i (b.outputVar 0))) :
    ∀ m facts, values.lookup m = some facts → Allowing ρ c g (w i) m facts := by
  refine pushThrough_forall hpush (fun m facts hm => ?_) fun m hm b' hb' values hvalues =>
    ?_
  · rw [List.lookup_cons] at hm
    split at hm
    · next heq =>
        cases hm
        obtain rfl := eq_of_beq heq
        intro b' hb' p hp
        obtain rfl : b = b' := Option.some.inj (h.block_eq.symm.trans hb')
        obtain rfl := List.mem_singleton.mp hp
        exact ⟨hdet, hcurrent⟩
    · cases hm
  · exact h.allowing_memberOutput horder hsignals hproper hexec hfacts (hothers m hm).1
      (hothers m hm).2 hb' hvalues

/-- Across the delay facts allow the next output, and the first. -/
theorem allows_output (hcurrent : Dependable ρ w (b.outputVar 0) current)
    (hallows : current.Allows ρ (w i) (w i (b.outputVar 0))) {q : Fact R}
    (hq : q ∈ memberOutput (c.rule b) (loopSite g order values b representative)) :
    q.Allows ρ (w (i + 1)) (w (i + 1) (b.outputVar 0)) ∧
      q.Allows ρ (w 0) (w 0 (b.outputVar 0)) := by
  rcases h.output_cases horder hsignals hothers hpush hq with
    ⟨inlet, p, a, hinlet, hp, ha, hmap⟩ | ⟨rfl, hranged⟩
  · obtain ⟨a', ha', hfinite⟩ := h.initial
    obtain rfl : a = a' := Option.some.inj (ha.symm.trans ha')
    have hdefined : Scalar.Defined a := ExtendedReading.defined_of_isFinite hfinite
    obtain ⟨u, hu, hnext⟩ := hexec.delayed i
    have hvalues := h.allows_values horder hsignals hproper hexec hfacts hothers hpush
      hcurrent.determinate hallows
    obtain ⟨_, hb, _⟩ := h.exists_kind
    have hadmits := h.admits_loopSite horder hsignals hproper hfacts h.mem hb hu hvalues
    obtain ⟨_, hdet, harrives⟩ := hadmits.facts 0 inlet hinlet p hp
    rw [hnext]
    exact ⟨(Fact.describes_mapRanges? hρ hdet harrives
      (fun r hr => hr.hull_left ⟨hdefined, hdefined⟩) hmap _).allows,
      (Fact.describes_mapRanges? hρ hdet harrives
        (fun r hr => .hull_right hr.defined (.point hdefined (hexec.start a ha).symm))
        hmap _).allows⟩
  · have hall := hcurrent.ranged_or_allows.resolve_left hranged
    exact ⟨(current.allows_retarget _).mpr (hall (i + 1)),
      (current.allows_retarget _).mpr (hall 0)⟩

end Execution

/-! ### Rounds along an execution -/

section Steps

variable {hρ : ρ.Exact} (h : DelayLoop c g members representative b) {next : Boundary R}
  (hround : loopRound c g (Propagation.rotateBehind representative members) representative
    (.var (b.outputVar 0))
    current = .ok next)

include h hround

theorem exists_pushThrough :
    ∃ order others values, (∀ m, m ∈ order ↔ m ∈ members) ∧
      (∀ m ∈ others, m ∈ members ∧ m ≠ representative) ∧
      pushThrough c g order others [(representative, [.boundary current])] = .ok values ∧
      next = (Fact.conjoin? (.var (b.outputVar 0)) (memberOutput (c.rule b)
        (loopSite g order values b representative))).getD (.unbounded
          (.var (b.outputVar 0))) := by
  obtain ⟨others, horder, hnot⟩ := Propagation.exists_rotateBehind h.nodup h.mem
  have hmem : ∀ m, m ∈ others ++ [representative] ↔ m ∈ members := fun m => by
    rw [← horder, Propagation.mem_rotateBehind h.mem]
  rw [horder] at hround
  obtain ⟨values, b', hpush, hb', hnext⟩ := loopRound_eq_ok hround
  obtain rfl : b = b' := Option.some.inj (h.block_eq.symm.trans hb')
  refine ⟨others ++ [representative], others, values, hmem, fun m hm =>
    ⟨?_, ?_⟩, hpush, hnext⟩
  · exact (hmem m).mp (List.mem_append_left _ hm)
  · rintro rfl
    exact hnot hm

variable (hsignals : LoopSignals c g members)
  (hproper : ProperFacts g members representative)
  (hexec : LoopExecution hρ c g members representative b w)
  (hfacts : FactsHold ρ g members representative w)

include hsignals hproper hexec hfacts

/-- A round steps with the execution; what it gives allows the first output too. -/
theorem allows_round (hcurrent : Dependable ρ w (b.outputVar 0) current)
    (hallows : current.Allows ρ (w i) (w i (b.outputVar 0))) :
    next.Allows ρ (w (i + 1)) (w (i + 1) (b.outputVar 0)) ∧
      next.Allows ρ (w 0) (w 0 (b.outputVar 0)) := by
  obtain ⟨order, others, values, horder, hothers, hpush, rfl⟩ :=
    h.exists_pushThrough hround
  have hdet := fun q =>
    h.determinate_output horder hsignals hothers hpush hcurrent.determinate (q := q)
  have houtput := fun q => h.allows_output horder hsignals hproper hexec hfacts hothers
    hpush hcurrent hallows (q := q)
  exact ⟨Fact.allows_conjoined hρ (fun q hq => ⟨(hdet q hq).1, (houtput q hq).1⟩) _,
    Fact.allows_conjoined hρ (fun q hq => ⟨(hdet q hq).1, (houtput q hq).2⟩) _⟩

/-- A round gives what can be relied on. -/
theorem dependable_round (hcurrent : Dependable ρ w (b.outputVar 0) current) :
    Dependable ρ w (b.outputVar 0) next := by
  have hallows := fun i =>
    h.allows_round (i := i) hround hsignals hproper hexec hfacts hcurrent
  obtain ⟨order, others, values, horder, hothers, hpush, rfl⟩ :=
    h.exists_pushThrough hround
  have hdet := fun q =>
    h.determinate_output horder hsignals hothers hpush hcurrent.determinate (q := q)
  obtain ⟨habout, hdeterminate⟩ :=
    Fact.determinate_conjoined (fun q hq => (hdet q hq).1) (.var (b.outputVar 0))
  refine ⟨habout, hdeterminate, ?_⟩
  rcases hcurrent.ranged_or_allows with hranged | hall
  · exact Or.inl (Fact.ranged_conjoined (fun q hq => (hdet q hq).2 hranged) _)
  · refine Or.inr fun i => ?_
    cases i with
    | zero => exact (hallows 0 (hall 0)).2
    | succ i => exact (hallows i (hall i)).1

end Steps

end DelayLoop

end SignalFlow
