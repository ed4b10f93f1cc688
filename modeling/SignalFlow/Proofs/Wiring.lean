import Mathlib.Data.List.Basic
import SignalFlow.Proofs.Layout

/-!
# How the nodes and edges of a flow graph hang together

Nodes and edges are found at the positions that are their numbers, an edge leads from one
node to another, and every node lists the edges out of it and into it.  Layouts of diagrams
are wired in this way, since every insertion keeps it.

In a wired graph a node feeds another if an edge leads from it to the other, and this is
what its successors and predecessors say.

**Results.**
* `Wired.ofDiagram`: the graph of a diagram is wired.
* `Wired.mem_successors`, `Wired.mem_predecessors`: neighbours are the nodes that feed each
  other.
-/

namespace SignalFlow
namespace FlowGraph

variable {R : Type} {g : FlowGraph R}

/-- Every node lists the edges that end at it, and every edge ends at a node.  Which of its
two ends is meant is up to `tip`. -/
structure Lists (listed : Node R → List Nat) (tip : Edge R → Nat) (nodes : List (Node R))
    (edges : List (Edge R)) : Prop where
  mem_listed : ∀ (n : Nat) (node : Node R), nodes[n]? = some node → ∀ i,
    i ∈ listed node ↔ ∃ e, edges[i]? = some e ∧ tip e = n
  tip_lt : ∀ e ∈ edges, tip e < nodes.length

/-- Numbers are positions, and nodes list the edges that leave and enter them. -/
structure Wired (g : FlowGraph R) : Prop where
  node_id : ∀ (i : NodeId) (node : Node R), g.nodes[i]? = some node → node.id = i
  edge_id : ∀ (i : EdgeId) (e : Edge R), g.edges[i]? = some e → e.id = i
  leaving : Lists Node.outgoing (fun e => e.source.node) g.nodes g.edges
  entering : Lists Node.incoming (fun e => e.target.node) g.nodes g.edges

section Insertion

variable {listed : Node R → List Nat} {tip : Edge R → Nat} {nodes nodes' : List (Node R)}
  {edges : List (Edge R)}

theorem Lists.addNode (h : Lists listed tip nodes edges) {node : Node R}
    (hnode : listed node = []) : Lists listed tip (nodes ++ [node]) edges := by
  refine ⟨fun n node' hn i => ?_, fun e he => ?_⟩
  · rw [List.getElem?_append] at hn
    split at hn
    · exact h.mem_listed n node' hn i
    · next hlt =>
        obtain ⟨_, rfl⟩ := List.getElem?_eq_some_iff.mp hn
        rw [List.getElem_singleton, hnode]
        constructor
        · intro hi
          cases hi
        · rintro ⟨e, he, rfl⟩
          exact absurd (h.tip_lt e (List.mem_of_getElem? he)) hlt
  · have hlt := h.tip_lt e he
    rw [List.length_append, List.length_singleton]
    omega

/-- An edge is appended, and listed at the node where it ends. -/
theorem Lists.addEdge (h : Lists listed tip nodes edges) {edge : Edge R}
    (htip : tip edge < nodes.length) (hlength : nodes'.length = nodes.length)
    (hnodes : ∀ (n : Nat) (node' : Node R), nodes'[n]? = some node' →
      ∃ node, nodes[n]? = some node ∧
      listed node' = if tip edge = n then listed node ++ [edges.length] else listed node) :
    Lists listed tip nodes' (edges ++ [edge]) := by
  refine ⟨fun n node' hn i => ?_, fun e he => ?_⟩
  · obtain ⟨node, hnode, hlisted⟩ := hnodes n node' hn
    have hold := h.mem_listed n node hnode i
    rw [hlisted, List.getElem?_append]
    by_cases hi : i < edges.length
    · have hne : i ≠ edges.length := by omega
      rw [if_pos hi, ← hold]
      split <;> simp [hne]
    · have hnone : edges[i]? = none := List.getElem?_eq_none (by omega)
      have hnot : i ∉ listed node := by
        rw [hold, hnone]
        simp
      by_cases heq : i = edges.length
      · subst heq
        by_cases hn : tip edge = n <;> simp [hn, hnot]
      · have hpast : [edge][i - edges.length]? = none :=
          List.getElem?_eq_none (by simp only [List.length_singleton]; omega)
        rw [if_neg hi, hpast]
        split <;> simp [hnot, heq]
  · rw [hlength]
    rcases List.mem_append.mp he with he | he
    · exact h.tip_lt e he
    · rw [List.mem_singleton.mp he]
      exact htip

end Insertion

theorem Wired.empty : (FlowGraph.empty : FlowGraph R).Wired where
  node_id i node h := by simp [FlowGraph.empty] at h
  edge_id i e h := by simp [FlowGraph.empty] at h
  leaving := ⟨by simp [FlowGraph.empty], by simp [FlowGraph.empty]⟩
  entering := ⟨by simp [FlowGraph.empty], by simp [FlowGraph.empty]⟩

theorem lt_insertNode (hg : g.Registered) (id : BlockId) :
    (g.insertNode id).1 < (g.insertNode id).2.nodes.length := by
  unfold FlowGraph.insertNode
  split
  · next n hn =>
      rw [hg.nodeOf?] at hn
      exact (List.findIdx?_eq_some_iff_getElem.mp hn).1
  · simp [Allocator.allocNode, hg.nextNode]

theorem length_le_insertNode (g : FlowGraph R) (id : BlockId) :
    g.nodes.length ≤ (g.insertNode id).2.nodes.length := by
  unfold FlowGraph.insertNode
  split <;> simp

theorem Wired.insertNode (h : g.Wired) (hg : g.Registered) (id : BlockId) :
    (g.insertNode id).2.Wired := by
  unfold FlowGraph.insertNode
  split
  · exact h
  · refine ⟨fun i node hi => ?_, h.edge_id, h.leaving.addNode rfl, h.entering.addNode rfl⟩
    rw [List.getElem?_append] at hi
    split at hi
    · exact h.node_id i node hi
    · obtain ⟨hlt, rfl⟩ := List.getElem?_eq_some_iff.mp hi
      rw [List.length_singleton] at hlt
      rw [List.getElem_singleton]
      have hi : g.nodes.length = i := by omega
      exact hg.nextNode.trans hi

/-- An edge that is inserted is listed at both of its nodes, and nothing else changes at
any node. -/
theorem exists_node_of_insertEdge {signal : SignalId} (hnew : g.edgeOf? signal = none)
    (source target : Socket) (var : String) {n : Nat} {node' : Node R}
    (hn : (g.insertEdge signal source target var).2.nodes[n]? = some node') :
    ∃ node, g.nodes[n]? = some node ∧ node'.id = node.id ∧ node'.block = node.block ∧
      node'.facts = node.facts ∧
      node'.outgoing =
        (if source.node = n then node.outgoing ++ [g.allocator.nextEdge]
          else node.outgoing) ∧
      node'.incoming =
        if target.node = n then node.incoming ++ [g.allocator.nextEdge]
          else node.incoming := by
  simp only [FlowGraph.insertEdge, hnew, Allocator.allocEdge, modifyNode,
    List.getElem?_modify] at hn
  cases hold : g.nodes[n]? with
  | none => simp [hold] at hn
  | some node =>
      rw [hold] at hn
      simp only [Option.map_eq_map, Option.map_some, Option.some.injEq] at hn
      subst hn
      refine ⟨node, rfl, ?_⟩
      by_cases hs : source.node = n <;> by_cases ht : target.node = n <;> simp [hs, ht]

theorem edges_insertEdge {signal : SignalId} (hnew : g.edgeOf? signal = none)
    (source target : Socket) (var : String) :
    (g.insertEdge signal source target var).2.edges =
      g.edges ++ [⟨g.allocator.nextEdge, signal, source, target, var, [], []⟩] := by
  simp [FlowGraph.insertEdge, hnew, modifyNode, Allocator.allocEdge]

theorem length_insertEdge (g : FlowGraph R) (signal : SignalId) (source target : Socket)
    (var : String) :
    (g.insertEdge signal source target var).2.nodes.length = g.nodes.length := by
  simpa using congrArg List.length (map_block_insertEdge g signal source target var)

theorem insertEdge_of_some {signal : SignalId} {e : EdgeId} (h : g.edgeOf? signal = some e)
    (source target : Socket) (var : String) :
    g.insertEdge signal source target var = (e, g) := by
  simp [FlowGraph.insertEdge, h]

theorem Wired.insertEdge (h : g.Wired) (hg : g.Registered) (signal : SignalId)
    {source target : Socket} (var : String) (hsource : source.node < g.nodes.length)
    (htarget : target.node < g.nodes.length) :
    (g.insertEdge signal source target var).2.Wired := by
  cases hnew : g.edgeOf? signal with
  | some e =>
      rw [insertEdge_of_some hnew]
      exact h
  | none =>
      have hlength := length_insertEdge g signal source target var
      have hedges := edges_insertEdge hnew source target var
      refine ⟨fun i node hi => ?_, fun i e hi =>
        ?_, hedges ▸ h.leaving.addEdge hsource hlength ?_,
        hedges ▸ h.entering.addEdge htarget hlength ?_⟩
      · obtain ⟨node', hnode', hid, _⟩ :=
          exists_node_of_insertEdge hnew source target var hi
        rw [hid]
        exact h.node_id i node' hnode'
      · rw [hedges, List.getElem?_append] at hi
        split at hi
        · exact h.edge_id i e hi
        · obtain ⟨hlt, rfl⟩ := List.getElem?_eq_some_iff.mp hi
          rw [List.length_singleton] at hlt
          rw [List.getElem_singleton]
          have hi : g.edges.length = i := by omega
          exact hg.nextEdge.trans hi
      · intro n node' hn
        obtain ⟨node, hold, _, _, _, hlisted, _⟩ :=
          exists_node_of_insertEdge hnew source target var hn
        exact ⟨node, hold, hg.nextEdge ▸ hlisted⟩
      · intro n node' hn
        obtain ⟨node, hold, _, _, _, _, hlisted⟩ :=
          exists_node_of_insertEdge hnew source target var hn
        exact ⟨node, hold, hg.nextEdge ▸ hlisted⟩

/-- The node that signals lead to stays in the graph while they are laid out. -/
theorem Wired.layOutSignal (h : g.Wired) (hg : g.Registered) {d : Diagram} {target : Nat}
    (htarget : target < g.nodes.length) (s : Signal) : (layOutSignal d target g s).Wired ∧
      target < (layOutSignal d target g s).nodes.length := by
  unfold FlowGraph.layOutSignal
  split
  · exact ⟨h, htarget⟩
  · next b hb =>
      have hlt := Nat.lt_of_lt_of_le htarget (length_le_insertNode g b.id)
      refine ⟨(h.insertNode hg b.id).insertEdge (hg.insertNode b.id) _ _
        (lt_insertNode hg b.id) hlt, ?_⟩
      rw [length_insertEdge]
      exact hlt

theorem Wired.layOutBlock (h : g.Wired) (hg : g.Registered) (d : Diagram) (id : BlockId) :
    (layOutBlock d g id).Wired := by
  unfold FlowGraph.layOutBlock
  split
  · exact h
  · refine (List.foldlRecOn (motive := fun g' : FlowGraph R => g'.Registered ∧ g'.Wired ∧
      (g.insertNode id).1 < g'.nodes.length) (feeding d id) _
      ⟨hg.insertNode id, h.insertNode hg id, lt_insertNode hg id⟩ ?_).2.1
    rintro g' ⟨hg', hwired, hlt⟩ s _
    exact ⟨hg'.layOutSignal d _ s, hwired.layOutSignal hg' hlt s⟩

/-- The graph of a diagram is wired. -/
theorem Wired.ofDiagram (d : Diagram) (order : RunOrder) :
    (FlowGraph.ofDiagram d order : FlowGraph R).Wired :=
  (List.foldlRecOn (motive := fun g : FlowGraph R => g.Registered ∧ g.Wired) order.all _
    ⟨.empty, .empty⟩ fun _ hg id _ =>
      ⟨hg.1.layOutBlock d id, hg.2.layOutBlock hg.1 d id⟩).2

/-- Where keys are different, an element is found by its key. -/
theorem findIdx?_eq_some_iff_of_nodup {α : Type} {key : α → Nat} {xs : List α}
    (h : (xs.map key).Nodup) {k i : Nat} :
    (xs.findIdx? fun a => key a == k) = some i ↔ ∃ a, xs[i]? = some a ∧ key a = k := by
  rw [List.findIdx?_eq_some_iff_getElem]
  constructor
  · rintro ⟨hlt, hkey, _⟩
    exact ⟨xs[i], List.getElem?_eq_getElem hlt, by simpa using hkey⟩
  · rintro ⟨a, ha, rfl⟩
    obtain ⟨hlt, rfl⟩ := List.getElem?_eq_some_iff.mp ha
    refine ⟨hlt, by simp, fun j hj heq => ?_⟩
    have hne := List.pairwise_iff_getElem.mp h j i (by simp; omega) (by simpa using hlt) hj
    exact hne (by simpa using heq)

theorem Wired.map_id (h : g.Wired) : g.nodes.map Node.id = List.range g.nodes.length := by
  refine List.ext_getElem (by simp) fun i hi _ => ?_
  rw [List.length_map] at hi
  rw [List.getElem_map, List.getElem_range]
  exact h.node_id i _ (List.getElem?_eq_getElem hi)

theorem Wired.getElem?_id (h : g.Wired) {e : Edge R} (he : e ∈ g.edges) :
    g.edges[e.id]? = some e := by
  obtain ⟨i, hi⟩ := List.mem_iff_getElem?.mp he
  rw [h.edge_id i e hi]
  exact hi

/-- An edge leads from the first node to the second. -/
def Feeds (g : FlowGraph R) (m n : Nat) : Prop :=
  ∃ e ∈ g.edges, e.source.node = m ∧ e.target.node = n

theorem Lists.mem_edges {listed : Node R → List Nat} {tip : Edge R → Nat}
    {nodes : List (Node R)} {edges : List (Edge R)} (h : Lists listed tip nodes edges)
    {n : Nat} {node : Node R} (hnode : nodes[n]? = some node) {e : Edge R} :
    e ∈ (listed node).filterMap (fun i => edges[i]?) ↔ e ∈ edges ∧ tip e = n := by
  rw [List.mem_filterMap]
  constructor
  · rintro ⟨i, hi, he⟩
    obtain ⟨e', he', htip⟩ := (h.mem_listed n node hnode i).mp hi
    obtain rfl : e = e' := by simpa [he] using he'
    exact ⟨List.mem_of_getElem? he, htip⟩
  · rintro ⟨he, htip⟩
    obtain ⟨i, hi⟩ := List.mem_iff_getElem?.mp he
    exact ⟨i, (h.mem_listed n node hnode i).mpr ⟨e, hi, htip⟩, hi⟩

theorem Wired.mem_outgoing (h : g.Wired) {n : NodeId} {e : Edge R} :
    e ∈ g.outgoing n ↔ e ∈ g.edges ∧ e.source.node = n := by
  unfold FlowGraph.outgoing
  split
  · next node hnode => exact h.leaving.mem_edges hnode
  · next hnone =>
      rw [List.getElem?_eq_none_iff] at hnone
      simp only [List.not_mem_nil, false_iff, not_and]
      rintro he rfl
      exact Nat.not_lt.mpr hnone (h.leaving.tip_lt e he)

theorem Wired.mem_incoming (h : g.Wired) {n : NodeId} {e : Edge R} :
    e ∈ g.incoming n ↔ e ∈ g.edges ∧ e.target.node = n := by
  unfold FlowGraph.incoming
  split
  · next node hnode => exact h.entering.mem_edges hnode
  · next hnone =>
      rw [List.getElem?_eq_none_iff] at hnone
      simp only [List.not_mem_nil, false_iff, not_and]
      rintro he rfl
      exact Nat.not_lt.mpr hnone (h.entering.tip_lt e he)

/-- An edge is found at the pin where it ends, if no other ends there. -/
theorem Wired.inputEdge?_eq_some (h : g.Wired) {e : Edge R} (he : e ∈ g.edges)
    (hone : ∀ e' ∈ g.edges, e'.target = e.target → e' = e) :
    g.inputEdge? e.target.node e.target.pin = some e := by
  have hmem : e ∈ g.incoming e.target.node := h.mem_incoming.mpr ⟨he, rfl⟩
  have hfound : (g.inputEdge? e.target.node e.target.pin).isSome = true :=
    List.find?_isSome.mpr ⟨e, hmem, by simp⟩
  obtain ⟨e', he'⟩ := Option.isSome_iff_exists.mp hfound
  obtain ⟨hedge, hnode⟩ := h.mem_incoming.mp (List.mem_of_find?_eq_some he')
  have hpin : e'.target.pin = e.target.pin := by simpa using List.find?_some he'
  have htarget : e'.target = e.target := by
    cases htarget' : e'.target
    cases htarget : e.target
    simp_all
  rw [he', hone e' hedge htarget]

theorem Wired.lt_of_feeds (h : g.Wired) {m n : NodeId} (hmn : g.Feeds m n) :
    m < g.nodes.length ∧ n < g.nodes.length := by
  obtain ⟨e, he, rfl, rfl⟩ := hmn
  exact ⟨h.leaving.tip_lt e he, h.entering.tip_lt e he⟩

theorem mem_distinct {α : Type} [BEq α] [LawfulBEq α] {xs : List α} {x : α} :
    x ∈ distinct xs ↔ x ∈ xs := by
  refine ⟨mem_of_mem_distinct, fun hx => ?_⟩
  obtain ⟨y, hy, rfl | hxy⟩ := exists_mem_distinct hx
  · exact hy
  · exact eq_of_beq hxy ▸ hy

theorem Wired.mem_successors (h : g.Wired) {m n : NodeId} : n ∈ g.successors m ↔
      g.Feeds m n := by
  simp only [FlowGraph.successors, mem_distinct, List.mem_map, h.mem_outgoing,
    Feeds, and_assoc]

theorem Wired.mem_predecessors (h : g.Wired) {m n : NodeId} : m ∈ g.predecessors n ↔
      g.Feeds m n := by
  simp only [FlowGraph.predecessors, incomingByPin, mem_distinct, List.mem_map,
    List.mem_mergeSort, h.mem_incoming, Feeds, and_assoc]
  exact exists_congr fun e => and_congr_right fun _ => and_comm

end FlowGraph
end SignalFlow
