import Mathlib
import SignalFlow.Proofs.Indexing
import SignalFlow.Proofs.SymmetricEquality
import SignalFlow.Scalar.Binary64

/-!
# Coherence of flow graphs

A flow graph is built by operations: nodes and edges are inserted, facts are added and
consumed, obligations and equalities are recorded.  Edges are inserted between nodes that
earlier insertions have returned.

What the operations keep falls into two parts.  The index of a graph is a matter of its
layout; only insertions change it.  That nothing is recorded twice is a matter of each list
by itself.

**Results.**
* `Indexed.coherent`: what coherence says beyond the index.
* `Construction.Sound.perform`: what one operation keeps.
* `Construction.coherent_performAll`: any sequence of operations leaves the graph coherent.
-/

namespace SignalFlow
namespace FlowGraph

variable {R : Type} {g : FlowGraph R}

/-- No fact, obligation or equality is recorded twice. -/
structure Unrepeating [BEq R] (g : FlowGraph R) : Prop where
  edges : ∀ e ∈ g.edges, Unrepeated e.facts
  nodes : ∀ node ∈ g.nodes, Unrepeated node.facts
  obligations : Unrepeated g.obligations
  equalities : Unrepeated g.equalities

/-- Every edge has as many flags as facts. -/
def Flagged (g : FlowGraph R) : Prop :=
  ∀ e ∈ g.edges, e.consumed.length = e.facts.length

/-- Numbers are positions and the next ones are the next positions, the maps from blocks
and signals are inverse to those from nodes and edges, every edge is listed once at its
source and once at its target and nowhere else, every fact has its flag, and nothing is
recorded twice. -/
structure Coherent [BEq R] (g : FlowGraph R) : Prop where
  node_id : ∀ (i : NodeId) (node : Node R), g.nodes[i]? = some node → node.id = i
  edge_id : ∀ (i : EdgeId) (e : Edge R), g.edges[i]? = some e → e.id = i
  nextNode : g.allocator.nextNode = g.nodes.length
  nextEdge : g.allocator.nextEdge = g.edges.length
  nodeOf?_iff : ∀ block n, g.nodeOf? block = some n ↔ ∃ node, g.nodes[n]? = some node ∧
    node.block = block
  edgeOf?_iff : ∀ signal i, g.edgeOf? signal = some i ↔ ∃ e, g.edges[i]? = some e ∧
    e.signal = signal
  blocks : (g.nodes.map Node.block).Nodup
  signals : (g.edges.map Edge.signal).Nodup
  ends : ∀ e ∈ g.edges, e.source.node < g.nodes.length ∧ e.target.node < g.nodes.length
  count_outgoing : ∀ e ∈ g.edges, ∀ node ∈ g.nodes,
    node.outgoing.count e.id = if node.id = e.source.node then 1 else 0
  count_incoming : ∀ e ∈ g.edges, ∀ node ∈ g.nodes,
    node.incoming.count e.id = if node.id = e.target.node then 1 else 0
  flags : g.Flagged
  unrepeating : g.Unrepeating

section Index

/-- An edge is listed once at the node where it ends, and at no other. -/
theorem Lists.count_listed {listed : Node R → List Nat} {tip : Edge R → Nat}
    {nodes : List (Node R)} {edges : List (Edge R)} (h : Lists listed tip nodes edges)
    {n i : Nat} {node : Node R} {e : Edge R} (hnode : nodes[n]? = some node)
    (hnodup : (listed node).Nodup) (he : edges[i]? = some e) :
    (listed node).count i = if n = tip e then 1 else 0 := by
  have hmem : i ∈ listed node ↔ tip e = n := by
    rw [h.mem_listed n node hnode i]
    constructor
    · rintro ⟨e', he', htip⟩
      obtain rfl : e = e' := by simpa [he] using he'
      exact htip
    · exact fun htip => ⟨e, he, htip⟩
  split
  · next heq => exact List.count_eq_one_of_mem hnodup (hmem.mpr heq.symm)
  · next hne => exact List.count_eq_zero.mpr fun hi => hne (hmem.mp hi).symm

/-- What coherence says beyond the index is that facts have flags and that nothing is
recorded twice. -/
theorem Indexed.coherent [BEq R] (h : g.Indexed) (hflags : g.Flagged)
    (hfacts : g.Unrepeating) : g.Coherent where
  node_id := h.wired.node_id
  edge_id := h.wired.edge_id
  nextNode := h.registered.nextNode
  nextEdge := h.registered.nextEdge
  nodeOf?_iff block n := by
    rw [h.registered.nodeOf?]
    exact findIdx?_eq_some_iff_of_nodup h.blocks
  edgeOf?_iff signal i := by
    rw [h.registered.edgeOf?]
    exact findIdx?_eq_some_iff_of_nodup h.signals
  blocks := h.blocks
  signals := h.signals
  ends e he := ⟨h.wired.leaving.tip_lt e he, h.wired.entering.tip_lt e he⟩
  count_outgoing e he node hnode := by
    obtain ⟨i, hi⟩ := List.mem_iff_getElem?.mp he
    obtain ⟨n, hn⟩ := List.mem_iff_getElem?.mp hnode
    rw [h.wired.edge_id i e hi, h.wired.node_id n node hn]
    exact h.wired.leaving.count_listed hn (h.outgoing node hnode) hi
  count_incoming e he node hnode := by
    obtain ⟨i, hi⟩ := List.mem_iff_getElem?.mp he
    obtain ⟨n, hn⟩ := List.mem_iff_getElem?.mp hnode
    rw [h.wired.edge_id i e hi, h.wired.node_id n node hn]
    exact h.wired.entering.count_listed hn (h.incoming node hnode) hi
  flags := hflags
  unrepeating := hfacts

end Index

section Repetition

theorem Unrepeating.insertNode [BEq R] (h : g.Unrepeating) (block : BlockId) :
    (g.insertNode block).2.Unrepeating := by
  unfold FlowGraph.insertNode
  split
  · exact h
  · refine ⟨h.edges, fun node hnode => ?_, h.obligations, h.equalities⟩
    rcases List.mem_append.mp hnode with hnode | hnode
    · exact h.nodes node hnode
    · rw [List.mem_singleton.mp hnode]
      exact List.Pairwise.nil

theorem Unrepeating.insertEdge [BEq R] (h : g.Unrepeating) (signal : SignalId)
    (source target : Socket) (var : String) :
    (g.insertEdge signal source target var).2.Unrepeating := by
  cases hnew : g.edgeOf? signal with
  | some e =>
      rw [insertEdge_of_some hnew]
      exact h
  | none =>
      refine ⟨fun e he => ?_, fun node' hnode' => ?_, ?_, ?_⟩
      · rw [edges_insertEdge hnew] at he
        rcases List.mem_append.mp he with he | he
        · exact h.edges e he
        · rw [List.mem_singleton.mp he]
          exact List.Pairwise.nil
      · obtain ⟨n, hn⟩ := List.mem_iff_getElem?.mp hnode'
        obtain ⟨node, hnode, _, _, hfacts, _⟩ :=
          exists_node_of_insertEdge hnew source target var hn
        rw [hfacts]
        exact h.nodes node (List.mem_of_getElem? hnode)
      · simpa [FlowGraph.insertEdge, hnew, modifyNode] using h.obligations
      · simpa [FlowGraph.insertEdge, hnew, modifyNode] using h.equalities

theorem Unrepeating.modifyEdge [BEq R] (h : g.Unrepeating) {f : Edge R → Edge R}
    (hf : ∀ e : Edge R, Unrepeated e.facts → Unrepeated (f e).facts) (i : EdgeId) :
    (g.modifyEdge i f).Unrepeating :=
  ⟨forall_mem_modify h.edges (fun e _ => hf e), h.nodes, h.obligations, h.equalities⟩

end Repetition

section Flags

theorem Flagged.insertEdge (h : g.Flagged) (signal : SignalId) (source target : Socket)
    (var : String) : (g.insertEdge signal source target var).2.Flagged := by
  cases hnew : g.edgeOf? signal with
  | some e =>
      rw [insertEdge_of_some hnew]
      exact h
  | none =>
      unfold Flagged
      rw [edges_insertEdge hnew, List.forall_mem_append]
      exact ⟨h, by simp⟩

theorem Flagged.insertNode (h : g.Flagged) (block : BlockId) :
    (g.insertNode block).2.Flagged := by
  unfold FlowGraph.insertNode
  split
  · exact h
  · exact h

theorem Flagged.modifyEdge (h : g.Flagged) {f : Edge R → Edge R}
    (hf : ∀ e : Edge R, e.consumed.length = e.facts.length →
      (f e).consumed.length = (f e).facts.length)
    (i : EdgeId) : (g.modifyEdge i f).Flagged :=
  forall_mem_modify h fun e _ => hf e

/-- A fact is added together with its flag. -/
theorem Flagged.addEdgeFact [Scalar R] (h : g.Flagged) (i : EdgeId) (p : Fact R) :
    (g.addEdgeFact i p).Flagged := by
  refine h.modifyEdge (fun e he => ?_) i
  unfold Edge.addFact
  split
  · exact he
  · simp [he]

end Flags

end FlowGraph

/-- What can be done to a flow graph. -/
inductive Operation (R : Type) where
  | insertNode (block : BlockId)
  | insertEdge (signal : SignalId) (source target : Socket) (var : String)
  | addEdgeFact (edge : EdgeId) (fact : Fact R)
  | addNodeFact (node : NodeId) (fact : Fact R)
  | consume (edge : EdgeId) (position : Nat)
  | consumeAll (edge : EdgeId)
  | addObligation (obligation : Formula R)
  | addEquality (equality : Relation R)

/-- A flow graph that is being built, and the nodes that insertions have returned. -/
structure Construction (R : Type) where
  graph : FlowGraph R
  returned : List NodeId

namespace Construction

variable {R : Type}

/-- Nothing has been inserted. -/
def start : Construction R :=
  ⟨.empty, []⟩

/-- An edge is inserted between nodes that have been returned; nothing else is asked
for. -/
def Allows (x : Construction R) : Operation R → Prop
  | .insertEdge _ source target _ => source.node ∈ x.returned ∧ target.node ∈ x.returned
  | _ => True

instance (x : Construction R) : (op : Operation R) → Decidable (x.Allows op)
  | .insertEdge _ source target _ =>
      inferInstanceAs (Decidable (source.node ∈ x.returned ∧ target.node ∈ x.returned))
  | .insertNode _ => isTrue trivial
  | .addEdgeFact _ _ => isTrue trivial
  | .addNodeFact _ _ => isTrue trivial
  | .consume _ _ => isTrue trivial
  | .consumeAll _ => isTrue trivial
  | .addObligation _ => isTrue trivial
  | .addEquality _ => isTrue trivial

variable [Scalar R]

/-- Perform an operation. -/
def perform (x : Construction R) : Operation R → Construction R
  | .insertNode block =>
      ⟨(x.graph.insertNode block).2, x.returned ++ [(x.graph.insertNode block).1]⟩
  | .insertEdge signal source target var =>
      { x with graph := (x.graph.insertEdge signal source target var).2 }
  | .addEdgeFact edge fact => { x with graph := x.graph.addEdgeFact edge fact }
  | .addNodeFact node fact => { x with graph := x.graph.addNodeFact node fact }
  | .consume edge position =>
      { x with graph := x.graph.modifyEdge edge fun e => e.consume position }
  | .consumeAll edge => { x with graph := x.graph.modifyEdge edge Edge.consumeAll }
  | .addObligation obligation => { x with graph := x.graph.addObligation obligation }
  | .addEquality equality => { x with graph := x.graph.addEquality equality }

/-- Perform operations in turn. -/
def performAll (x : Construction R) (ops : List (Operation R)) : Construction R :=
  ops.foldl perform x

/-- Every operation is allowed at its turn. -/
def AllowsAll (x : Construction R) : List (Operation R) → Prop
  | [] => True
  | op :: ops => x.Allows op ∧ (x.perform op).AllowsAll ops

instance decidableAllowsAll (x : Construction R) : (ops : List (Operation R)) →
      Decidable (x.AllowsAll ops)
  | [] => isTrue trivial
  | op :: ops =>
      haveI := decidableAllowsAll (x.perform op) ops
      inferInstanceAs (Decidable (x.Allows op ∧ (x.perform op).AllowsAll ops))

/-- The graph has an index, its facts have flags, it records nothing twice, and it has the
nodes that were returned. -/
structure Sound (x : Construction R) : Prop where
  indexed : x.graph.Indexed
  flagged : x.graph.Flagged
  unrepeating : x.graph.Unrepeating
  returned : ∀ n ∈ x.returned, n < x.graph.nodes.length

theorem sound_start : (start : Construction R).Sound where
  indexed := .empty
  flagged := by simp [FlowGraph.Flagged, start, FlowGraph.empty]
  unrepeating := by
    refine ⟨?_, ?_, List.Pairwise.nil, List.Pairwise.nil⟩
    · simp [start, FlowGraph.empty]
    · simp [start, FlowGraph.empty]
  returned := by simp [start]

/-- Facts, flags and formulas leave the index alone. -/
theorem Sound.of_layout {x : Construction R} (h : x.Sound) {g : FlowGraph R}
    (hg : x.graph.layout = g.layout) (hflags : g.Flagged) (hfacts : g.Unrepeating) :
    Sound { x with graph := g } where
  indexed := h.indexed.of_layout hg.symm
  flagged := hflags
  unrepeating := hfacts
  returned n hn := by
    rw [← FlowGraph.length_nodes_layout, ← hg, FlowGraph.length_nodes_layout]
    exact h.returned n hn

/-- One operation keeps the graph sound. -/
theorem Sound.perform [PartialEquivBEq R] {x : Construction R} (h : x.Sound)
    {op : Operation R} (hop : x.Allows op) : (x.perform op).Sound := by
  have hfacts := h.unrepeating
  cases op with
  | insertNode block =>
      refine ⟨h.indexed.insertNode block, h.flagged.insertNode block,
        hfacts.insertNode block, fun n hn => ?_⟩
      rcases List.mem_append.mp hn with hn | hn
      · exact Nat.lt_of_lt_of_le (h.returned n hn) (x.graph.length_le_insertNode block)
      · rw [List.mem_singleton.mp hn]
        exact FlowGraph.lt_insertNode h.indexed.registered block
  | insertEdge signal source target var =>
      refine ⟨h.indexed.insertEdge signal var (h.returned _ hop.1) (h.returned _ hop.2),
        h.flagged.insertEdge signal source target var,
        hfacts.insertEdge signal source target var, fun n hn => ?_⟩
      simp only [Construction.perform, FlowGraph.length_insertEdge]
      exact h.returned n hn
  | addEdgeFact edge fact =>
      refine h.of_layout (x.graph.extends_addEdgeFact edge fact).layout.symm
        (h.flagged.addEdgeFact edge fact) ?_
      refine hfacts.modifyEdge (fun e he => ?_) edge
      rw [Edge.facts_addFact]
      exact he.insertLast Fact.beq_comm fact
  | addNodeFact node fact =>
      have hlayout := (FlowGraph.extends_modifyNode (f := fun n => n.addFact fact)
        (fun _ => rfl) x.graph node).layout
      refine h.of_layout hlayout.symm h.flagged ⟨hfacts.edges, ?_, hfacts.obligations,
        hfacts.equalities⟩
      exact FlowGraph.forall_mem_modify hfacts.nodes fun n _ hn =>
        hn.insertLast Fact.beq_comm fact
  | consume edge position =>
      refine h.of_layout (x.graph.extends_consume edge position).layout.symm ?_ ?_
      · refine h.flagged.modifyEdge (fun e he => ?_) edge
        rw [Edge.consume, List.length_set]
        exact he
      · exact hfacts.modifyEdge (f := fun e => e.consume position) (fun _ he => he) edge
  | consumeAll edge =>
      have hlayout := (FlowGraph.extends_modifyEdge (f := Edge.consumeAll) (fun _ => rfl)
        (fun _ => List.prefix_refl _) x.graph edge).layout
      refine h.of_layout hlayout.symm ?_ ?_
      · refine h.flagged.modifyEdge (fun e he => ?_) edge
        rw [Edge.consumeAll, List.length_map]
        exact he
      · exact hfacts.modifyEdge (f := Edge.consumeAll) (fun _ he => he) edge
  | addObligation obligation =>
      exact h.of_layout rfl h.flagged ⟨hfacts.edges, hfacts.nodes,
        hfacts.obligations.insertLast Formula.beq_comm obligation, hfacts.equalities⟩
  | addEquality equality =>
      exact h.of_layout rfl h.flagged ⟨hfacts.edges, hfacts.nodes, hfacts.obligations,
        hfacts.equalities.insertLast Relation.beq_comm equality⟩

/-- Any sequence of operations keeps what one operation keeps. -/
theorem Sound.performAll [PartialEquivBEq R] {x : Construction R} (h : x.Sound)
    {ops : List (Operation R)} (hops : x.AllowsAll ops) : (x.performAll ops).Sound := by
  induction ops generalizing x with
  | nil => exact h
  | cons op ops ih => exact ih (h.perform hops.1) hops.2

/-- **Coherence.**  Whatever operations build a flow graph, edges being inserted between
nodes that have been returned: numbers are positions, blocks and signals are found at their
only nodes and edges, every edge is listed once at each of its ends, facts have their
flags, and nothing is recorded twice. -/
theorem coherent_performAll [PartialEquivBEq R] (ops : List (Operation R))
    (hops : (start : Construction R).AllowsAll ops) :
    (start.performAll ops).graph.Coherent := by
  have hsound := sound_start.performAll hops
  exact hsound.indexed.coherent hsound.flagged hsound.unrepeating

/-- A signal that is inserted again with other ends, one that feeds its own block, a block
inserted twice, and facts and formulas that are added again. -/
def repetitions : List (Operation Float) :=
  [.insertNode 7, .insertNode 9, .insertNode 7,
    .insertEdge 1 ⟨0, 0⟩ ⟨1, 0⟩ "a", .insertEdge 1 ⟨1, 0⟩ ⟨0, 0⟩ "b",
    .insertEdge 2 ⟨1, 0⟩ ⟨1, 1⟩ "c",
    .addEdgeFact 0 (.data []), .consume 0 0, .addEdgeFact 0 (.data []),
    .addEdgeFact 0 (.control []),
    .addNodeFact 1 (.data []), .addNodeFact 1 (.data []), .consumeAll 1,
    .addObligation .top, .addObligation .top, .addEquality ⟨.var "a", .eq, .var "c"⟩]

/-- Two nodes and two edges are left, and the first edge has kept its flag. -/
theorem coherent_repetitions :
    (start : Construction Float).AllowsAll repetitions ∧
      (start.performAll repetitions).graph.Coherent ∧
      (start.performAll repetitions).graph.edgeOf? 2 = some 1 ∧
      (start.performAll repetitions).graph.nodes.map Node.incoming = [[], [0, 1]] ∧
      (start.performAll repetitions).graph.edges.map Edge.consumed =
        [[true, false], []] := by
  have hallowed : (start : Construction Float).AllowsAll repetitions := by decide
  exact ⟨hallowed, coherent_performAll repetitions hallowed, by decide, by
    decide, by decide⟩

end Construction
end SignalFlow
