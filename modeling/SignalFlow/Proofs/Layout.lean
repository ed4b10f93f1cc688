import Mathlib.Data.List.Perm.Subperm
import SignalFlow.FlowGraph.Build

/-!
# Nodes of a flow graph

The maps of a graph find the node of a block and the edge of a signal, and its allocator
hands out the position of what is appended next.  Insertions rely on it, and they keep it
so.

A block has one node, whatever signals lead to and from it.  So the graph of a diagram has
as many nodes as the diagram has blocks only if no two blocks share an identifier.

**Results.**
* `Registered.ofDiagram`: maps and allocator of a laid out diagram are in step with its
  nodes and edges.
* `OneNodePerBlock.ofDiagram`: the nodes of a laid out diagram stand for different blocks
  of it.
* `nodup_ids_of_checkCounts`: where the counts agree, identifiers are different.
-/

namespace SignalFlow
namespace FlowGraph

variable {R : Type} {d : Diagram} {g : FlowGraph R}

/-- The maps lead to the first node of a block and the first edge of a signal, and the next
numbers are the next positions. -/
structure Registered (g : FlowGraph R) : Prop where
  nodeOf? : ∀ block, g.nodeOf? block = g.nodes.findIdx? fun n => n.block == block
  edgeOf? : ∀ signal, g.edgeOf? signal = g.edges.findIdx? fun e => e.signal == signal
  nextNode : g.allocator.nextNode = g.nodes.length
  nextEdge : g.allocator.nextEdge = g.edges.length

/-- Nodes stand for different blocks of the diagram. -/
structure OneNodePerBlock (d : Diagram) (g : FlowGraph R) : Prop where
  nodup : (g.nodes.map Node.block).Nodup
  subset : ∀ id ∈ g.nodes.map Node.block, id ∈ d.blocks.map Block.id

theorem map_modify_of_eq {α β : Type} {h : α → β} {f : α → α} (hf : ∀ a, h (f a) = h a)
    (xs : List α) (n : Nat) : (xs.modify n f).map h = xs.map h := by
  refine List.ext_getElem? fun i => ?_
  simp only [List.getElem?_map, List.getElem?_modify]
  cases xs[i]? with
  | none => rfl
  | some a =>
      by_cases hi : n = i
      · simp [hi, hf]
      · simp [hi]

theorem map_block_modifyNode (g : FlowGraph R) (n : NodeId) {f : Node R → Node R}
    (hf : ∀ node, (f node).block = node.block) :
    (g.modifyNode n f).nodes.map Node.block = g.nodes.map Node.block :=
  map_modify_of_eq hf g.nodes n

theorem map_block_insertEdge (g : FlowGraph R) (signal : SignalId) (source target : Socket)
    (var : String) :
    (g.insertEdge signal source target var).2.nodes.map Node.block =
      g.nodes.map Node.block := by
  unfold insertEdge
  split
  · rfl
  · refine (map_block_modifyNode _ target.node ?_).trans
      (map_block_modifyNode _ source.node ?_)
    · intro node
      rfl
    · intro node
      rfl

section Registration

theorem Registered.empty : (FlowGraph.empty : FlowGraph R).Registered :=
  ⟨fun _ => rfl, fun _ => rfl, rfl, rfl⟩

/-- What is registered depends on the keys of nodes and edges alone. -/
theorem Registered.of_keys {g' : FlowGraph R} (h : g.Registered)
    (hnodes : g'.nodeIndex = g.nodeIndex) (hedges : g'.edgeIndex = g.edgeIndex)
    (hallocator : g'.allocator = g.allocator)
    (hblocks : g'.nodes.map Node.block = g.nodes.map Node.block)
    (hsignals : g'.edges.map Edge.signal = g.edges.map Edge.signal) : g'.Registered := by
  have hlength : g'.nodes.length = g.nodes.length := by
    simpa using congrArg List.length hblocks
  have hlength' : g'.edges.length = g.edges.length := by
    simpa using congrArg List.length hsignals
  refine ⟨fun block => ?_, fun signal => ?_, ?_, ?_⟩
  · have hfind := congrArg (List.findIdx? fun b => b == block) hblocks
    rw [List.findIdx?_map, List.findIdx?_map] at hfind
    rw [FlowGraph.nodeOf?, hnodes]
    exact (h.nodeOf? block).trans hfind.symm
  · have hfind := congrArg (List.findIdx? fun s => s == signal) hsignals
    rw [List.findIdx?_map, List.findIdx?_map] at hfind
    rw [FlowGraph.edgeOf?, hedges]
    exact (h.edgeOf? signal).trans hfind.symm
  · rw [hallocator, hlength, h.nextNode]
  · rw [hallocator, hlength', h.nextEdge]

/-- Under a new key, the map leads to the position behind the last. -/
theorem lookup_cons_eq_findIdx? {α : Type} {key : α → Nat} {xs : List α}
    {index : List (Nat × Nat)} {a : α} (h : ∀ k, index.lookup k = xs.findIdx? fun x =>
      key x == k) (hnew : index.lookup (key a) = none)
    (k : Nat) :
    ((key a, xs.length) :: index).lookup k = (xs ++ [a]).findIdx? fun x => key x == k := by
  rw [List.lookup_cons, List.findIdx?_append, ← h k]
  by_cases hk : k = key a
  · subst hk
    simp [hnew]
  · have hne : (k == key a) = false := beq_false_of_ne hk
    have hne' : (key a == k) = false := beq_false_of_ne fun heq => hk heq.symm
    simp [hne, hne']

theorem Registered.insertNode (h : g.Registered) (block : BlockId) :
    (g.insertNode block).2.Registered := by
  unfold FlowGraph.insertNode
  split
  · exact h
  · next hnew =>
      refine ⟨fun block' => ?_, h.edgeOf?, ?_, h.nextEdge⟩
      · let node : Node R := { id := g.allocator.nextNode, block := block }
        have hlookup := lookup_cons_eq_findIdx? (a := node) h.nodeOf? hnew block'
        rw [← h.nextNode] at hlookup
        exact hlookup
      · simp [Allocator.allocNode, h.nextNode]

theorem Registered.insertEdge (h : g.Registered) (signal : SignalId)
    (source target : Socket) (var : String) :
    (g.insertEdge signal source target var).2.Registered := by
  unfold FlowGraph.insertEdge
  split
  · exact h
  · next hnew =>
      let edge : Edge R := { id := g.allocator.nextEdge, signal, source, target, var }
      refine Registered.of_keys (g := { g with
        edges := g.edges ++ [edge]
        edgeIndex := (signal, g.allocator.nextEdge) :: g.edgeIndex
        allocator := g.allocator.allocEdge.2 }) ⟨h.nodeOf?, fun signal' =>
          ?_, h.nextNode, ?_⟩ rfl rfl rfl ?_ rfl
      · have hlookup := lookup_cons_eq_findIdx? (a := edge) h.edgeOf? hnew signal'
        rw [← h.nextEdge] at hlookup
        exact hlookup
      · simp [Allocator.allocEdge, h.nextEdge]
      · refine (map_block_modifyNode _ target.node ?_).trans
          (map_block_modifyNode _ source.node ?_)
        · intro node
          rfl
        · intro node
          rfl

theorem Registered.layOutSignal (h : g.Registered) (d : Diagram) (target : NodeId)
    (s : Signal) : (layOutSignal d target g s).Registered := by
  unfold FlowGraph.layOutSignal
  split
  · exact h
  · exact (h.insertNode _).insertEdge _ _ _ _

theorem Registered.layOutBlock (h : g.Registered) (d : Diagram) (id : BlockId) :
    (layOutBlock d g id).Registered := by
  unfold FlowGraph.layOutBlock
  split
  · exact h
  · exact List.foldlRecOn (feeding d id) _ (h.insertNode id) fun g' hg' s _ =>
      hg'.layOutSignal d _ s

/-- Maps and allocator of a laid out diagram are in step with its nodes and edges. -/
theorem Registered.ofDiagram (d : Diagram) (order : RunOrder) :
    (FlowGraph.ofDiagram d order : FlowGraph R).Registered :=
  List.foldlRecOn order.all _ Registered.empty fun _ hg id _ => hg.layOutBlock d id

end Registration

theorem nodup_blocks_insertNode (hg : g.Registered) (h : (g.nodes.map Node.block).Nodup)
    (id : BlockId) : ((g.insertNode id).2.nodes.map Node.block).Nodup := by
  unfold FlowGraph.insertNode
  split
  · exact h
  · next hnone =>
      have hfresh : id ∉ g.nodes.map Node.block := by
        intro hmem
        obtain ⟨node, hnode, rfl⟩ := List.mem_map.mp hmem
        rw [hg.nodeOf?] at hnone
        have hne := List.findIdx?_eq_none_iff.mp hnone node hnode
        simp at hne
      rw [List.map_append, List.map_singleton]
      refine List.nodup_append.mpr ⟨h, List.pairwise_singleton _ _, ?_⟩
      rintro id' hid' _ hsingle rfl
      have heq : id' = id := List.mem_singleton.mp hsingle
      exact hfresh (heq ▸ hid')

theorem OneNodePerBlock.insertNode (h : OneNodePerBlock d g) (hg : g.Registered)
    {id : BlockId} (hid : id ∈ d.blocks.map Block.id) :
    OneNodePerBlock d (g.insertNode id).2 := by
  refine ⟨nodup_blocks_insertNode hg h.nodup id, ?_⟩
  unfold FlowGraph.insertNode
  split
  · exact h.subset
  · intro id' hid'
    rw [List.map_append, List.map_singleton, List.mem_append, List.mem_singleton] at hid'
    rcases hid' with hid' | rfl
    · exact h.subset id' hid'
    · exact hid

theorem mem_ids_of_block? {id : BlockId} {b : Block} (h : d.block? id = some b) :
    b ∈ d.blocks ∧ b.id = id :=
  ⟨List.mem_of_find?_eq_some h, by simpa using List.find?_some h⟩

theorem OneNodePerBlock.layOutSignal (h : OneNodePerBlock d g) (hg : g.Registered)
    (target : NodeId) (s : Signal) : OneNodePerBlock d (layOutSignal d target g s) := by
  unfold FlowGraph.layOutSignal
  split
  · exact h
  · next b hb =>
      have hnode := h.insertNode hg (List.mem_map_of_mem (mem_ids_of_block? hb).1)
      refine ⟨?_, ?_⟩
      · rw [map_block_insertEdge]
        exact hnode.nodup
      · rw [map_block_insertEdge]
        exact hnode.subset

theorem OneNodePerBlock.layOutBlock (h : OneNodePerBlock d g) (hg : g.Registered)
    (id : BlockId) : OneNodePerBlock d (layOutBlock d g id) := by
  unfold FlowGraph.layOutBlock
  split
  · exact h
  · next b hb =>
      obtain ⟨hmem, rfl⟩ := mem_ids_of_block? hb
      have hnode := h.insertNode hg (List.mem_map_of_mem hmem)
      refine (List.foldlRecOn (motive := fun g' : FlowGraph R =>
        g'.Registered ∧ OneNodePerBlock d g')
        (feeding d b.id) _ ⟨hg.insertNode b.id, hnode⟩ ?_).2
      intro g' hg' s _
      exact ⟨hg'.1.layOutSignal d _ s, hg'.2.layOutSignal hg'.1 _ s⟩

/-- The nodes of a laid out diagram stand for different blocks of it. -/
theorem OneNodePerBlock.ofDiagram (d : Diagram) (order : RunOrder) :
    OneNodePerBlock d (FlowGraph.ofDiagram d order : FlowGraph R) := by
  have hempty : OneNodePerBlock d (FlowGraph.empty : FlowGraph R) := by
    refine ⟨List.nodup_nil, ?_⟩
    intro id hid
    cases hid
  refine (List.foldlRecOn (motive := fun g : FlowGraph R =>
    g.Registered ∧ OneNodePerBlock d g)
    order.all _ ⟨.empty, hempty⟩ ?_).2
  intro g hg id _
  exact ⟨hg.1.layOutBlock d id, hg.2.layOutBlock hg.1 id⟩

/-- Where a laid out diagram has a node for every block, identifiers are different. -/
theorem nodup_ids_of_checkCounts (order : RunOrder)
    (h : Diagnostic.anyError ((FlowGraph.ofDiagram d order : FlowGraph R).checkCounts d) =
      false) :
    (d.blocks.map Block.id).Nodup := by
  have hone := OneNodePerBlock.ofDiagram (R := R) d order
  have hcount : (FlowGraph.ofDiagram d order : FlowGraph R).nodes.length =
      d.blocks.length := by
    by_contra hne
    simp [checkCounts, hne, Diagnostic.anyError, Diagnostic.error, Diagnostic.withHint]
      at h
  have hsub := List.Nodup.subperm hone.nodup hone.subset
  have hperm := hsub.perm_of_length_le (by simp [hcount])
  exact hperm.nodup_iff.mp hone.nodup

end FlowGraph
end SignalFlow
