import SignalFlow.Proofs.DerivedObligations
import SignalFlow.Proofs.Writing

/-!
# The order in which a diagram is listed

The order of blocks and signals decides how nodes and edges are numbered, from where visits
start, and in which order nodes are processed.  In a feedforward diagram it does not decide
anything else.  The graphs of two listings mirror the same diagram and solve the same flow
equations; so they agree, and give rise to the same obligations.

**Results.**
* `Agrees.factsOn?`, `Solves.factsAt?`: graphs that agree have the same facts for every
  signal and every block.
* `flow_eq_of_perm`: diagrams that list the same blocks and signals have the same facts and
  obligations.
-/

open Relation (TransGen)

namespace SignalFlow

namespace FlowGraph

variable {R : Type} {d : Diagram} {g g' : FlowGraph R}

/-- The facts on the edge of a signal. -/
def factsOn? (g : FlowGraph R) (signal : SignalId) : Option (List (Fact R)) :=
  (g.edges.find? fun e => e.signal == signal).map Edge.facts

/-- The facts at the node of a block. -/
def factsAt? (g : FlowGraph R) (block : BlockId) : Option (List (Fact R)) :=
  (g.nodes.find? fun n => n.block == block).map Node.facts

/-- With different keys, an element is found by its key. -/
theorem find?_eq_some_iff_of_nodup {α : Type} {key : α → Nat} {xs : List α}
    (h : (xs.map key).Nodup) {k : Nat} {x : α} :
    xs.find? (fun x => key x == k) = some x ↔ x ∈ xs ∧ key x = k := by
  constructor
  · intro hx
    exact ⟨List.mem_of_find?_eq_some hx, by simpa using List.find?_some hx⟩
  · rintro ⟨hx, rfl⟩
    have hsome : (xs.find? fun y => key y == key x).isSome = true :=
      List.find?_isSome.mpr ⟨x, hx, by simp⟩
    obtain ⟨y, hy⟩ := Option.isSome_iff_exists.mp hsome
    have hkey : key y = key x := by simpa using List.find?_some hy
    rw [hy, List.inj_on_of_nodup_map h (List.mem_of_find?_eq_some hy) hx hkey]

theorem Indexed.factsOn?_eq_some_iff (h : g.Indexed) {x : SignalId}
    {facts : List (Fact R)} :
    g.factsOn? x = some facts ↔ ∃ e ∈ g.edges, e.signal = x ∧ e.facts = facts := by
  simp only [factsOn?, Option.map_eq_some_iff,
    find?_eq_some_iff_of_nodup h.signals, and_assoc]

theorem Indexed.factsAt?_eq_some_iff (h : g.Indexed) {id : BlockId}
    {facts : List (Fact R)} :
    g.factsAt? id = some facts ↔ ∃ node ∈ g.nodes, node.block = id ∧
      node.facts = facts := by
  simp only [factsAt?, Option.map_eq_some_iff,
    find?_eq_some_iff_of_nodup h.blocks, and_assoc]

/-- The facts of every signal are found on the other graph. -/
theorem Agrees.factsOn? (h : Agrees d g g') (hg : Mirrors d g) (hg' : Mirrors d g')
    (x : SignalId) : g.factsOn? x = g'.factsOn? x := by
  have hsome : ∀ {g g' : FlowGraph R}, Agrees d g g' → Mirrors d g →
      Mirrors d g' → ∀ facts,
      g.factsOn? x = some facts → g'.factsOn? x = some facts := by
    intro g g' h hg hg' facts hfacts
    obtain ⟨e, he, hsignal, rfl⟩ := hg.indexed.factsOn?_eq_some_iff.mp hfacts
    obtain ⟨e', he', htwins⟩ := hg.exists_twin hg' he
    refine hg'.indexed.factsOn?_eq_some_iff.mpr ⟨e', he', ?_, h e he e' he' htwins⟩
    obtain ⟨s, _, hes, hes'⟩ := htwins
    rw [hes'.signal, ← hes.signal, hsignal]
  exact Option.ext fun facts => ⟨hsome h hg hg' facts, hsome h.symm hg' hg facts⟩

end FlowGraph

section Permutation

variable {R : Type} {d d' : Diagram} {g : FlowGraph R}

namespace Diagram

/-- The diagrams list the same blocks and the same signals. -/
structure Relisted (d d' : Diagram) : Prop where
  blocks : d.blocks.Perm d'.blocks
  signals : d.signals.Perm d'.signals

theorem Relisted.block? (h : d.Relisted d') (hd : (d.blocks.map Block.id).Nodup) :
    d'.block? = d.block? := by
  have hd' : (d'.blocks.map Block.id).Nodup := (h.blocks.map Block.id).nodup_iff.mp hd
  funext id
  refine Option.ext fun b => ?_
  rw [Diagram.block?, Diagram.block?, FlowGraph.find?_eq_some_iff_of_nodup hd',
    FlowGraph.find?_eq_some_iff_of_nodup hd, h.blocks.mem_iff]

theorem Relisted.hasBlock (h : d.Relisted d') : d'.hasBlock = d.hasBlock := by
  funext id
  rw [Bool.eq_iff_iff, Diagram.hasBlock, Diagram.hasBlock, List.any_eq_true,
    List.any_eq_true]
  simp only [h.blocks.mem_iff]

theorem Relisted.mem_attached (h : d.Relisted d') (s : Signal) : s ∈ d'.attached ↔
      s ∈ d.attached := by
  rw [Diagram.mem_attached, Diagram.mem_attached, h.hasBlock, h.signals.mem_iff]

theorem Relisted.feedforward (h : d.Relisted d') (hd : d.Feedforward) :
    d'.Feedforward := by
  refine ⟨(h.blocks.map _).nodup_iff.mp hd.blocks,
    (h.signals.map _).nodup_iff.mp hd.signals,
    (h.signals.map _).nodup_iff.mp hd.pins, ?_⟩
  have hfeeds : d'.Feeds = d.Feeds := by
    funext a b
    simp only [Feeds, h.mem_attached]
  rw [hfeeds]
  exact hd.acyclic

end Diagram

namespace FlowGraph

theorem Mirrors.relist (h : Mirrors d' g) (hd : d.Relisted d')
    (hblocks : (d.blocks.map Block.id).Nodup) : Mirrors d g := by
  have hdepicts : ∀ e s, Depicts d' g e s → Depicts d g e s :=
    fun e s hes => ⟨hes.signal, hes.source, hes.target, hes.source_pin, hes.target_pin,
      hd.block? hblocks ▸ hes.var⟩
  refine ⟨h.indexed, fun id => ?_, fun e he => ?_, fun s hs => ?_⟩
  · rw [h.mem_blocks, (hd.blocks.map Block.id).mem_iff]
  · obtain ⟨s, hs, hes⟩ := h.depicts e he
    exact ⟨s, (hd.mem_attached s).mp hs, hdepicts e s hes⟩
  · obtain ⟨e, he, hes⟩ := h.depicted s ((hd.mem_attached s).mpr hs)
    exact ⟨e, he, hdepicts e s hes⟩

end FlowGraph

end Permutation

section Flow

variable {R : Type} [Scalar R] {c : Setting} {d d' : Diagram}

open FlowGraph (Mirrors)

/-- The graph of the diagram after propagation. -/
def Setting.flow (c : Setting) : FlowGraph R :=
  (Propagation.run c c.diagram.runOrder (.ofDiagram c.diagram c.diagram.runOrder)).graph

/-- After propagation the graph mirrors the diagram and solves the flow equations, and
there are no obligations. -/
theorem Setting.flow_solves (hd : c.diagram.Feedforward) :
    Mirrors c.diagram (c.flow : FlowGraph R) ∧
      Propagation.Solves c (c.flow : FlowGraph R) ∧
      (c.flow : FlowGraph R).obligations = [] := by
  have hmirrors : Mirrors c.diagram
    (.ofDiagram c.diagram c.diagram.runOrder : FlowGraph R) := .ofDiagram hd.signals
  have hblank : (FlowGraph.ofDiagram c.diagram c.diagram.runOrder : FlowGraph R).Blank :=
    .ofDiagram _ _
  have hwrites := Propagation.writes_run c c.diagram.runOrder hmirrors.indexed.wired
  refine ⟨hmirrors.of_layout hwrites.extends.layout, ?_,
    hwrites.obligations_eq.trans hblank.obligations⟩
  refine Propagation.solves_run c hmirrors.indexed hblank (hmirrors.oneEdgePerPin hd) rfl
    fun n members hloop => ?_
  exact hmirrors.not_transGen hd n (hloop.transGen hloop.mem)

namespace Propagation

variable {g g' : FlowGraph R}

/-- Only the blocks and the rules of a setting matter to the equations. -/
theorem Solves.of_block? {c' : Setting} (h : Solves c' g)
    (hblock : c'.diagram.block? = c.diagram.block?)
    (hcatalogue : c'.catalogue = c.catalogue) : Solves c g := by
  have hblock' : ∀ n, c'.block? g n = c.block? g n := fun n => by
    rw [Setting.block?, Setting.block?, hblock]
  have hrule : ∀ b, (c'.rule b : TransferRule R) = c.rule b := fun b => by
    rw [Setting.rule, Setting.rule, hcatalogue]
  refine ⟨fun e he b hb => ?_, fun n node hn b hb => ?_⟩
  · rw [← hrule]
    exact h.edges e he b (hblock' _ ▸ hb)
  · rw [← hrule]
    exact h.nodes n node hn b (hblock' _ ▸ hb)

/-- The facts at every block are found on the other graph. -/
theorem Solves.factsAt? (h : Solves c g) (h' : Solves c g') (hg : Mirrors c.diagram g)
    (hg' : Mirrors c.diagram g') (hd : c.diagram.Feedforward) (id : BlockId) :
    g.factsAt? id = g'.factsAt? id := by
  have hsome : ∀ {g g' : FlowGraph R}, Solves c g → Solves c g' → Mirrors c.diagram g →
      Mirrors c.diagram g' →
      ∀ facts, g.factsAt? id = some facts → g'.factsAt? id = some facts := by
    intro g g' h h' hg hg' facts hfacts
    obtain ⟨node, hnode, hblock, rfl⟩ := hg.indexed.factsAt?_eq_some_iff.mp hfacts
    obtain ⟨n, hn⟩ := List.mem_iff_getElem?.mp hnode
    have hid : g.blockOf? n = some id := by
      rw [FlowGraph.blockOf?, hn, Option.map_some, hblock]
    obtain ⟨n', hid'⟩ := hg.exists_node hg' hid
    obtain ⟨node', hn', hblock'⟩ := Option.map_eq_some_iff.mp hid'
    have hlt : n < g.nodes.length := (List.getElem?_eq_some_iff.mp hn).1
    obtain ⟨b, hb⟩ := Option.isSome_iff_exists.mp (hg.laidOut.isSome_block hlt)
    have hb' : c.block? g' n' = some b := by rwa [Setting.block?, hid', ← hid]
    refine hg'.indexed.factsAt?_eq_some_iff.mpr ⟨node', List.mem_of_getElem? hn',
      hblock', ?_⟩
    rw [h.nodes n node hn b hb, h'.nodes n' node' hn' b hb',
      (h.unique h' hg hg' hd).arrivals_eq hg hg' hd hid hid']
  exact Option.ext fun facts => ⟨hsome h h' hg hg' facts, hsome h' h hg' hg facts⟩

/-- Diagrams that list the same blocks and signals have the same results: every signal
between blocks has an edge, and every block a node, with the same facts in the same order;
and the same obligations are derived. -/
theorem flow_eq_of_perm (c : Setting) {d' : Diagram} (hd : c.diagram.Feedforward)
    (h : c.diagram.Relisted d') :
    (∀ s ∈ c.diagram.attached, ∃ facts : List (Fact R),
      c.flow.factsOn? s.id = some facts) ∧
      (∀ x, (c.flow : FlowGraph R).factsOn? x =
        ({ c with diagram := d' } : Setting).flow.factsOn? x) ∧
      (∀ b ∈ c.diagram.blocks, ∃ facts : List (Fact R),
        c.flow.factsAt? b.id = some facts) ∧
      (∀ id, (c.flow : FlowGraph R).factsAt? id =
        ({ c with diagram := d' } : Setting).flow.factsAt? id) ∧
      ∀ (oracle : Oracle R) (l : Limits) (p : Formula R),
        p ∈ (c.flow.withObligations oracle l c.diagram).obligations ↔
          p ∈ (({ c with diagram := d' } : Setting).flow.withObligations oracle l
            d').obligations := by
  obtain ⟨hg, hsolves, hnone⟩ := Setting.flow_solves (R := R) hd
  obtain ⟨hmirrors', hsolves', hnone'⟩ :=
    Setting.flow_solves (R := R) (c := { c with diagram := d' }) (h.feedforward hd)
  have hblock : d'.block? = c.diagram.block? := h.block? hd.blocks
  have hg' := hmirrors'.relist h hd.blocks
  have hsolved' : Solves c ({ c with diagram := d' } : Setting).flow :=
    hsolves'.of_block? hblock rfl
  have hagrees : FlowGraph.Agrees c.diagram (c.flow : FlowGraph R)
      ({ c with diagram := d' } : Setting).flow :=
    hsolves.unique hsolved' hg hg' hd
  refine ⟨fun s hs => ?_, hagrees.factsOn? hg hg', fun b hb =>
    ?_, hsolves.factsAt? hsolved' hg hg' hd,
    fun oracle l p => ?_⟩
  · obtain ⟨e, he, hes⟩ := hg.depicted s hs
    exact ⟨e.facts, hg.indexed.factsOn?_eq_some_iff.mpr ⟨e, he, hes.signal, rfl⟩⟩
  · obtain ⟨node, hnode, hid⟩ :=
      List.mem_map.mp ((hg.mem_blocks b.id).mpr (List.mem_map_of_mem hb))
    exact ⟨node.facts, hg.indexed.factsAt?_eq_some_iff.mpr ⟨node, hnode, hid, rfl⟩⟩
  · have hderive : ∀ g : FlowGraph R,
        Obligation.derive oracle l d' g = Obligation.derive oracle l c.diagram g := by
      intro g
      simp only [Obligation.derive, Obligation.forNodes, hblock]
    rw [Obligation.mem_obligations_iff hnone,
      Obligation.mem_obligations_iff hnone', hderive]
    exact ⟨Obligation.mem_derive_of_agrees hagrees hg hg' hd,
      Obligation.mem_derive_of_agrees hagrees.symm hg' hg hd⟩

/-- A quotient of constants that is integrated, and shown before and behind the
integrator. -/
def fraction : Diagram where
  name := "fraction"
  blocks :=
    [⟨1, "A", "Constant", 0, 1, [("Value", "6")]⟩,
      ⟨2, "B", "Constant", 0, 1, [("Value", "2")]⟩,
      ⟨3, "Q", "Product", 2, 1, [("Inputs", "*/")]⟩, ⟨4, "I", "Integrator", 1, 1, []⟩,
      ⟨5, "Y", "Outport", 1, 0, []⟩, ⟨6, "Z", "Outport", 1, 0, []⟩]
  signals :=
    [⟨1, ⟨1, 0⟩, ⟨3, 0⟩⟩, ⟨2, ⟨2, 0⟩, ⟨3, 1⟩⟩, ⟨3, ⟨3, 0⟩, ⟨4, 0⟩⟩, ⟨4, ⟨4, 0⟩, ⟨5, 0⟩⟩,
      ⟨5, ⟨3, 0⟩, ⟨6, 0⟩⟩]

theorem fraction_feedforward : fraction.Feedforward := by
  have hlt : ∀ s ∈ fraction.attached, s.source.block < s.target.block := by decide
  have hfeeds : ∀ a b, TransGen fraction.Feeds a b → a < b := by
    intro a b hab
    induction hab with
    | single hab =>
        obtain ⟨s, hs, rfl, rfl⟩ := hab
        exact hlt s hs
    | tail _ hstep ih =>
        obtain ⟨s, hs, rfl, rfl⟩ := hstep
        exact Nat.lt_trans ih (hlt s hs)
  exact ⟨by decide, by decide, by decide, fun id hid =>
    Nat.lt_irrefl id (hfeeds id id hid)⟩

/-- The same diagram, listed from back to front. -/
def reversedFraction : Diagram :=
  ⟨"fraction", fraction.blocks.reverse, fraction.signals.reverse⟩

theorem flow_eq_of_perm_fraction :
    fraction.Feedforward ∧ fraction.Relisted reversedFraction ∧
      (∃ facts : List (Fact Float), (⟨fraction, .builtin, {}⟩ : Setting).flow.factsOn? 4 =
        some facts ∧
        (⟨reversedFraction, .builtin, {}⟩ : Setting).flow.factsOn? 4 = some facts) ∧
      (∃ facts : List (Fact Float), (⟨fraction, .builtin, {}⟩ : Setting).flow.factsAt? 3 =
        some facts ∧
        (⟨reversedFraction, .builtin, {}⟩ : Setting).flow.factsAt? 3 = some facts) ∧
      ∀ (oracle : Oracle Float) (p : Formula Float),
        p ∈ ((⟨fraction, .builtin, {}⟩ : Setting).flow.withObligations oracle {}
          fraction).obligations ↔
          p ∈ ((⟨reversedFraction, .builtin, {}⟩ : Setting).flow.withObligations oracle {}
            reversedFraction).obligations := by
  have hrelisted : fraction.Relisted reversedFraction :=
    ⟨(List.reverse_perm _).symm, (List.reverse_perm _).symm⟩
  obtain ⟨hedges, hon, hnodes, hat, hobligations⟩ :=
    flow_eq_of_perm (R := Float) ⟨fraction, .builtin, {}⟩ fraction_feedforward hrelisted
  obtain ⟨carried, hcarried⟩ := hedges ⟨4, ⟨4, 0⟩, ⟨5, 0⟩⟩ (by decide)
  obtain ⟨stayed, hstayed⟩ :=
    hnodes ⟨3, "Q", "Product", 2, 1, [("Inputs", "*/")]⟩ (by decide)
  exact ⟨fraction_feedforward, hrelisted, ⟨carried, hcarried, hon 4 ▸ hcarried⟩,
    ⟨stayed, hstayed, hat 3 ▸ hstayed⟩,
    fun oracle p => hobligations oracle {} p⟩

end Propagation

end Flow

end SignalFlow
