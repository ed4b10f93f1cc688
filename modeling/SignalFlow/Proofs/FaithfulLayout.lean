import Mathlib.Data.List.Dedup
import SignalFlow.Proofs.Depiction

/-!
# Faithful layouts

A diagram whose blocks and signals have different identifiers is laid out without loss and
without addition: nodes are in correspondence with blocks, and edges with the signals whose
two ends exist.  So the numbers of nodes and blocks agree, and the numbers of edges and
signals differ exactly if a signal leads nowhere or comes from nowhere.

Blocks that share an identifier share a node, whatever the diagram.

**Results.**
* `length_nodes_ofDiagram`: there are as many nodes as identifiers of blocks.
* `Mirrors.exists_perm_attached`: edges and attached signals, paired off.
* `ofDiagram_faithful`: what the layout of a diagram has, and what is reported about it.
-/

namespace SignalFlow

namespace Diagram

variable {d : Diagram}

theorem hasBlock_eq_false_iff {id : BlockId} : d.hasBlock id = false ↔
      d.block? id = none := by
  rw [← Bool.not_eq_true, hasBlock_iff, ← Option.isSome_iff_exists,
    Option.not_isSome_iff_eq_none]

/-- All signals are attached unless one of them has an end that does not exist. -/
theorem length_attached_ne_iff :
    d.attached.length ≠ d.signals.length ↔
      ∃ s ∈ d.signals, d.block? s.source.block = none ∨
        d.block? s.target.block = none := by
  rw [Ne, attached, List.length_filter_eq_length_iff]
  simp only [← hasBlock_eq_false_iff, Bool.and_eq_true, not_forall, not_and_or,
    exists_prop, Bool.not_eq_true]

end Diagram

namespace FlowGraph

variable {R : Type} {d : Diagram} {g : FlowGraph R}

/-- There are as many nodes as identifiers of blocks. -/
theorem length_nodes_ofDiagram (d : Diagram) :
    (ofDiagram d d.runOrder : FlowGraph R).nodes.length =
      (d.blocks.map Block.id).dedup.length := by
  have hperm : ((ofDiagram d d.runOrder : FlowGraph R).nodes.map Node.block).Perm
      (d.blocks.map Block.id).dedup := by
    rw [List.perm_ext_iff_of_nodup (Indexed.ofDiagram d d.runOrder).blocks
      (List.nodup_dedup _)]
    intro id
    rw [mem_blocks_ofDiagram, List.mem_dedup]
  rw [← hperm.length_eq, List.length_map]

/-- The edge stands for the signal, and is listed at the nodes of the two blocks. -/
structure Spans (d : Diagram) (g : FlowGraph R) (e : Edge R) (s : Signal) :
    Prop extends Depicts d g e s where
  leaves : e ∈ g.outgoing e.source.node
  enters : e ∈ g.incoming e.target.node

theorem Indexed.spans (h : g.Indexed) {e : Edge R} (he : e ∈ g.edges) {s : Signal}
    (hs : Depicts d g e s) : Spans d g e s where
  toDepicts := hs
  leaves := h.wired.mem_outgoing.mpr ⟨he, rfl⟩
  enters := h.wired.mem_incoming.mpr ⟨he, rfl⟩

/-- The edges can be paired off with the attached signals. -/
theorem Mirrors.exists_perm_attached (h : Mirrors d g)
    (hd : (d.signals.map Signal.id).Nodup) :
    ∃ signals : List Signal, signals.Perm d.attached ∧
      List.Forall₂ (Spans d g) g.edges signals := by
  choose! signalOf hattached hdepicts using h.depicts
  refine ⟨g.edges.map signalOf, ?_, ?_⟩
  · have hids : (g.edges.map signalOf).map Signal.id = g.edges.map Edge.signal := by
      rw [List.map_map]
      exact List.map_congr_left fun e he => (hdepicts e he).signal.symm
    have hnodup : (g.edges.map signalOf).Nodup :=
      List.Nodup.of_map Signal.id (hids ▸ h.indexed.signals)
    have hattachedNodup : d.attached.Nodup := (List.Nodup.of_map Signal.id hd).filter _
    rw [List.perm_ext_iff_of_nodup hnodup hattachedNodup]
    intro s
    constructor
    · intro hs
      obtain ⟨e, he, rfl⟩ := List.mem_map.mp hs
      exact hattached e he
    · intro hs
      obtain ⟨e, he, hes⟩ := h.depicted s hs
      have heq : signalOf e = s :=
        List.inj_on_of_nodup_map hd (Diagram.mem_attached.mp (hattached e he)).1
        (Diagram.mem_attached.mp hs).1 ((hdepicts e he).signal.symm.trans hes.signal)
      exact List.mem_map.mpr ⟨e, he, heq⟩
  · rw [List.forall₂_map_right_iff, List.forall₂_same]
    exact fun e he => h.indexed.spans he (hdepicts e he)

/-- Which differences are reported. -/
theorem exists_mem_checkCounts_iff (d : Diagram) (g : FlowGraph R) (x : Finding) :
    (∃ m ∈ g.checkCounts d, m.finding = some x) ↔
      (x = .nodeCount ∧ g.nodes.length ≠ d.blocks.length) ∨
        (x = .edgeCount ∧ g.edges.length ≠ d.signals.length) := by
  have hfinding : ∀ (y : Finding) (message hint : String) (equal : Bool),
      (∃ m ∈ if equal then [] else [(Diagnostic.error y message).withHint hint],
        m.finding = some x) ↔
        x = y ∧ equal = false := by
    intro y message hint equal
    cases equal <;> simp [Diagnostic.error, Diagnostic.withHint, eq_comm]
  unfold checkCounts
  simp only [List.mem_append, or_and_right, exists_or, hfinding, beq_eq_false_iff_ne]

/-- The graph has a node for every block and an edge for every signal between two blocks,
each of them once and nothing else.  No difference of the number of nodes is reported, and
one of the number of edges exactly if a signal has an end that does not exist. -/
structure Faithful (d : Diagram) (g : FlowGraph R) : Prop where
  nodes : (g.nodes.map Node.block).Perm (d.blocks.map Block.id)
  edges : ∃ signals : List Signal, signals.Perm d.attached ∧
    List.Forall₂ (Spans d g) g.edges signals
  nodeCount : ¬∃ m ∈ g.checkCounts d, m.finding = some .nodeCount
  edgeCount : (∃ m ∈ g.checkCounts d, m.finding = some .edgeCount) ↔
    ∃ s ∈ d.signals, d.block? s.source.block = none ∨ d.block? s.target.block = none

/-- **Faithful layout.**  Whatever the diagram, its graph has as many nodes as there are
identifiers of blocks.  If the identifiers of blocks are different, and those of signals
are, nodes and edges correspond to the blocks and to the signals whose two ends exist; an
edge leads between the nodes of its blocks, with the pins of the signal and the variable of
the output pin. -/
theorem ofDiagram_faithful (d : Diagram) :
    (ofDiagram d d.runOrder : FlowGraph R).nodes.length =
      (d.blocks.map Block.id).dedup.length ∧
      ((d.blocks.map Block.id).Nodup → (d.signals.map Signal.id).Nodup →
        Faithful d (ofDiagram d d.runOrder : FlowGraph R)) := by
  refine ⟨length_nodes_ofDiagram d, fun hblocks hsignals => ?_⟩
  have hmirrors : Mirrors d (ofDiagram d d.runOrder : FlowGraph R) := .ofDiagram hsignals
  have hnodes :=
    (List.perm_ext_iff_of_nodup hmirrors.indexed.blocks hblocks).mpr hmirrors.mem_blocks
  obtain ⟨signals, hperm, hspans⟩ := hmirrors.exists_perm_attached hsignals
  refine ⟨hnodes, ⟨signals, hperm, hspans⟩, ?_, ?_⟩
  · rw [exists_mem_checkCounts_iff]
    simpa using hnodes.length_eq
  · have hedges : (ofDiagram d d.runOrder : FlowGraph R).edges.length =
        d.attached.length :=
      hspans.length_eq.trans hperm.length_eq
    rw [exists_mem_checkCounts_iff, hedges, Diagram.length_attached_ne_iff]
    simp

/-- A block that feeds itself, two signals between the same pins, and a signal that leads
nowhere. -/
def frayed : Diagram where
  name := "frayed"
  blocks :=
    [⟨4, "G", "Gain", 1, 1, []⟩, ⟨2, "S", "Sum", 2, 2, []⟩, ⟨9, "Y", "Outport", 1, 0, []⟩]
  signals := [⟨7, ⟨2, 1⟩, ⟨4, 0⟩⟩, ⟨3, ⟨4, 0⟩, ⟨2, 1⟩⟩, ⟨5, ⟨2, 0⟩, ⟨2, 0⟩⟩,
    ⟨8, ⟨4, 0⟩, ⟨2, 1⟩⟩, ⟨6, ⟨4, 0⟩, ⟨1, 0⟩⟩]

/-- The graph of the frayed diagram has four edges, and their number is reported. -/
theorem ofDiagram_faithful_frayed :
    Faithful frayed (ofDiagram frayed frayed.runOrder : FlowGraph Float) ∧
      (ofDiagram frayed frayed.runOrder : FlowGraph Float).nodes.length = 3 ∧
      (∃ signals,
        List.Forall₂ (Spans frayed (ofDiagram frayed frayed.runOrder : FlowGraph Float))
        (ofDiagram frayed frayed.runOrder).edges signals ∧ signals.length = 4) ∧
      ∃ m ∈ (ofDiagram frayed frayed.runOrder : FlowGraph Float).checkCounts frayed,
        m.finding = some .edgeCount := by
  obtain ⟨hcount, hfaithful⟩ := ofDiagram_faithful (R := Float) frayed
  have hfrayed := hfaithful (by decide) (by decide)
  obtain ⟨signals, hperm, hspans⟩ := hfrayed.edges
  refine ⟨hfrayed, hcount.trans (by decide), ⟨signals, hspans, ?_⟩,
    hfrayed.edgeCount.mpr ?_⟩
  · rw [hperm.length_eq]
    decide
  · exact ⟨⟨6, ⟨4, 0⟩, ⟨1, 0⟩⟩, by decide, by decide⟩

end FlowGraph
end SignalFlow
