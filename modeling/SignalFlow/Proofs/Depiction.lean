import SignalFlow.Proofs.Indexing
import SignalFlow.Proofs.RunOrder

/-!
# How a flow graph depicts its diagram

The graph of a diagram has a node for every block, and an edge for every signal between two
blocks.  The edge has the pins of the signal, its ends are the nodes of the blocks, and its
variable is that of the output pin.

While a diagram is laid out its graph *grows*: nodes and edges are appended, and those that
are there stay as they are, up to the edges that nodes list.

**Results.**
* `grows_layOutBlock`: laying out a block lets the graph grow.
* `Blank.ofDiagram`: the graph of a diagram has no facts and no obligations.
* `Mirrors.ofDiagram`: blocks and nodes, and attached signals and edges, correspond to each
  other.
-/

namespace SignalFlow

namespace Diagram

variable {d : Diagram}

theorem hasBlock_iff {id : BlockId} : d.hasBlock id = true ↔
      ∃ b, d.block? id = some b := by
  rw [← Option.isSome_iff_exists, block?, List.find?_isSome, hasBlock, List.any_eq_true]

theorem mem_attached {s : Signal} :
    s ∈ d.attached ↔ s ∈ d.signals ∧ d.hasBlock s.source.block = true ∧
      d.hasBlock s.target.block = true := by
  simp only [attached, List.mem_filter, Bool.and_eq_true]

end Diagram

namespace FlowGraph

variable {R : Type} {d : Diagram} {g g' g'' : FlowGraph R}

section Growth

/-- Blocks and edges are appended. -/
structure Grows (g g' : FlowGraph R) : Prop where
  blocks : g.nodes.map Node.block <+: g'.nodes.map Node.block
  edges : g.edges <+: g'.edges

theorem Grows.refl (g : FlowGraph R) : g.Grows g :=
  ⟨List.prefix_refl _, List.prefix_refl _⟩

theorem Grows.trans (h : g.Grows g') (h' : g'.Grows g'') : g.Grows g'' :=
  ⟨h.blocks.trans h'.blocks, h.edges.trans h'.edges⟩

theorem Grows.foldl {α : Type} {step : FlowGraph R → α → FlowGraph R}
    (h : ∀ (g : FlowGraph R) a, g.Grows (step g a)) (xs : List α) (g : FlowGraph R) :
    g.Grows (xs.foldl step g) :=
  List.foldlRecOn xs step (Grows.refl g) fun g' hg' x _ => hg'.trans (h g' x)

theorem blockOf?_eq (g : FlowGraph R) (n : NodeId) :
    g.blockOf? n = (g.nodes.map Node.block)[n]? := by
  simp [blockOf?]

theorem Grows.blockOf? (h : g.Grows g') {n : NodeId} {id : BlockId}
    (hn : g.blockOf? n = some id) : g'.blockOf? n = some id := by
  rw [blockOf?_eq] at hn ⊢
  obtain ⟨more, hmore⟩ := h.blocks
  rw [← hmore, List.getElem?_append_left (List.getElem?_eq_some_iff.mp hn).1]
  exact hn

theorem grows_insertNode (g : FlowGraph R) (id : BlockId) :
    g.Grows (g.insertNode id).2 := by
  unfold insertNode
  split
  · exact .refl g
  · exact ⟨by simp, List.prefix_refl _⟩

theorem Registered.blockOf?_insertNode (h : g.Registered) (id : BlockId) :
    (g.insertNode id).2.blockOf? (g.insertNode id).1 = some id := by
  unfold FlowGraph.insertNode
  split
  · next n hn =>
      rw [h.nodeOf?] at hn
      obtain ⟨hlt, hblock, _⟩ := List.findIdx?_eq_some_iff_getElem.mp hn
      simp only [FlowGraph.blockOf?, List.getElem?_eq_getElem hlt, Option.map_some]
      exact congrArg some (by simpa using hblock)
  · simp [FlowGraph.blockOf?, Allocator.allocNode, h.nextNode]

theorem grows_insertEdge (g : FlowGraph R) (signal : SignalId) (source target : Socket)
    (var : String) : g.Grows (g.insertEdge signal source target var).2 := by
  refine ⟨map_block_insertEdge g signal source target var ▸ List.prefix_refl _, ?_⟩
  cases hnew : g.edgeOf? signal with
  | some e =>
      have hedges : (g.insertEdge signal source target var).2.edges = g.edges := by
        rw [insertEdge_of_some hnew]
      exact hedges ▸ List.prefix_refl _
  | none =>
      rw [edges_insertEdge hnew]
      exact List.prefix_append _ _

theorem grows_layOutSignal (d : Diagram) (target : NodeId) (g : FlowGraph R) (s : Signal) :
    g.Grows (layOutSignal d target g s) := by
  unfold layOutSignal
  split
  · exact .refl g
  · exact (g.grows_insertNode _).trans (grows_insertEdge _ _ _ _ _)

/-- Laying out a block lets the graph grow. -/
theorem grows_layOutBlock (d : Diagram) (g : FlowGraph R) (id : BlockId) :
    g.Grows (layOutBlock d g id) := by
  unfold layOutBlock
  split
  · exact .refl g
  · exact (g.grows_insertNode id).trans (Grows.foldl (grows_layOutSignal d _) _ _)

end Growth

section Blank

/-- There are no facts and no obligations. -/
structure Blank (g : FlowGraph R) : Prop where
  edges : ∀ e ∈ g.edges, e.facts = [] ∧ e.consumed = []
  nodes : ∀ node ∈ g.nodes, node.facts = []
  obligations : g.obligations = []

theorem Blank.insertNode (h : g.Blank) (id : BlockId) : (g.insertNode id).2.Blank := by
  unfold FlowGraph.insertNode
  split
  · exact h
  · refine ⟨h.edges, fun node hnode => ?_, h.obligations⟩
    rcases List.mem_append.mp hnode with hnode | hnode
    · exact h.nodes node hnode
    · rw [List.mem_singleton.mp hnode]

theorem Blank.insertEdge (h : g.Blank) (signal : SignalId) (source target : Socket)
    (var : String) : (g.insertEdge signal source target var).2.Blank := by
  cases hnew : g.edgeOf? signal with
  | some e =>
      rw [insertEdge_of_some hnew]
      exact h
  | none =>
      refine ⟨fun e he => ?_, fun node' hnode' => ?_, ?_⟩
      · rw [edges_insertEdge hnew] at he
        rcases List.mem_append.mp he with he | he
        · exact h.edges e he
        · rw [List.mem_singleton.mp he]
          exact ⟨rfl, rfl⟩
      · obtain ⟨n, hn⟩ := List.mem_iff_getElem?.mp hnode'
        obtain ⟨node, hnode, _, _, hfacts, _⟩ :=
          exists_node_of_insertEdge hnew source target var hn
        rw [hfacts]
        exact h.nodes node (List.mem_of_getElem? hnode)
      · simpa [FlowGraph.insertEdge, hnew, modifyNode] using h.obligations

theorem Blank.layOutBlock (h : g.Blank) (d : Diagram) (id : BlockId) :
    (layOutBlock d g id).Blank := by
  unfold FlowGraph.layOutBlock
  split
  · exact h
  · refine List.foldlRecOn (feeding d id) _ (h.insertNode id) fun g' hg' s _ => ?_
    unfold layOutSignal
    split
    · exact hg'
    · exact (hg'.insertNode _).insertEdge _ _ _ _

/-- The graph of a diagram has no facts and no obligations. -/
theorem Blank.ofDiagram (d : Diagram) (order : RunOrder) :
    (FlowGraph.ofDiagram d order : FlowGraph R).Blank := by
  refine List.foldlRecOn order.all _ ⟨?_, ?_, rfl⟩ fun _ hg id _ => hg.layOutBlock d id
  · simp [FlowGraph.empty]
  · simp [FlowGraph.empty]

end Blank

section Edges

/-- The edge stands for the signal: it has its pins and the variable of its output pin, and
leads between the nodes of its blocks. -/
structure Depicts (d : Diagram) (g : FlowGraph R) (e : Edge R) (s : Signal) : Prop where
  signal : e.signal = s.id
  source : g.blockOf? e.source.node = some s.source.block
  target : g.blockOf? e.target.node = some s.target.block
  source_pin : e.source.pin = s.source.index
  target_pin : e.target.pin = s.target.index
  var : ∃ b, d.block? s.source.block = some b ∧ e.var = b.outputVar s.source.index

theorem Depicts.grow {e : Edge R} {s : Signal} (h : Depicts d g e s) (hg : g.Grows g') :
    Depicts d g' e s :=
  ⟨h.signal, hg.blockOf? h.source, hg.blockOf? h.target, h.source_pin, h.target_pin, h.var⟩

/-- Maps and allocator are in step with the graph, and every edge stands for a signal of
the diagram whose target exists. -/
structure Depicting (d : Diagram) (g : FlowGraph R) : Prop where
  registered : g.Registered
  edges : ∀ e ∈ g.edges, ∃ s ∈ d.signals, d.hasBlock s.target.block = true ∧
    Depicts d g e s

theorem edges_insertNode (g : FlowGraph R) (id : BlockId) :
    (g.insertNode id).2.edges = g.edges := by
  unfold insertNode
  split <;> rfl

theorem Depicting.insertNode (h : Depicting d g) (id : BlockId) :
    Depicting d (g.insertNode id).2 := by
  refine ⟨h.registered.insertNode id, fun e he => ?_⟩
  rw [edges_insertNode] at he
  obtain ⟨s, hs, htarget, hdepicts⟩ := h.edges e he
  exact ⟨s, hs, htarget, hdepicts.grow (g.grows_insertNode id)⟩

theorem layOutSignal_eq {s : Signal} {b : Block} (hb : d.block? s.source.block = some b)
    (target : NodeId) (g : FlowGraph R) :
    layOutSignal d target g s = ((g.insertNode b.id).2.insertEdge s.id
      ⟨(g.insertNode b.id).1, s.source.index⟩ ⟨target, s.target.index⟩
        (b.outputVar s.source.index)).2 := by
  simp only [layOutSignal, hb]

theorem Depicting.layOutSignal (h : Depicting d g) {s : Signal} (hs : s ∈ d.signals)
    {target : NodeId} (htarget : g.blockOf? target = some s.target.block)
    (hblock : d.hasBlock s.target.block = true) :
    Depicting d (layOutSignal d target g s) := by
  cases hb : d.block? s.source.block with
  | none => simpa [FlowGraph.layOutSignal, hb] using h
  | some b =>
      have hgrows := g.grows_insertNode b.id
      have hnode : Depicting d (g.insertNode b.id).2 := h.insertNode b.id
      have hgrown := (g.insertNode b.id).2.grows_insertEdge s.id ⟨(g.insertNode b.id).1,
        s.source.index⟩
        ⟨target, s.target.index⟩ (b.outputVar s.source.index)
      rw [layOutSignal_eq hb]
      cases hnew : (g.insertNode b.id).2.edgeOf? s.id with
      | some e =>
          rw [insertEdge_of_some hnew]
          exact hnode
      | none =>
          refine ⟨hnode.registered.insertEdge _ _ _ _, fun e he => ?_⟩
          rw [edges_insertEdge hnew] at he
          rcases List.mem_append.mp he with he | he
          · obtain ⟨s', hs', hblock', hdepicts⟩ := hnode.edges e he
            exact ⟨s', hs', hblock', hdepicts.grow hgrown⟩
          · rw [List.mem_singleton.mp he]
            refine ⟨s, hs, hblock, rfl, ?_, ?_, rfl, rfl, b, hb, rfl⟩
            · rw [← (mem_ids_of_block? hb).2]
              exact hgrown.blockOf? (h.registered.blockOf?_insertNode b.id)
            · exact hgrown.blockOf? (hgrows.blockOf? htarget)

theorem exists_edge_layOutSignal (hg : g.Registered) {s : Signal}
    (hs : d.hasBlock s.source.block = true) (target : NodeId) :
    ∃ e ∈ (layOutSignal d target g s).edges, e.signal = s.id := by
  obtain ⟨b, hb⟩ := Diagram.hasBlock_iff.mp hs
  rw [layOutSignal_eq hb]
  cases hnew : (g.insertNode b.id).2.edgeOf? s.id with
  | some i =>
      rw [insertEdge_of_some hnew]
      rw [(hg.insertNode b.id).edgeOf?] at hnew
      obtain ⟨hlt, hsignal, _⟩ := List.findIdx?_eq_some_iff_getElem.mp hnew
      exact ⟨_, List.getElem_mem hlt, by simpa using hsignal⟩
  | none =>
      rw [edges_insertEdge hnew]
      exact ⟨_, List.mem_append_right _ (List.mem_singleton_self _), rfl⟩

/-- What laying out a block adds: its node, and the signals that end at it. -/
theorem layOutBlock_adds (h : Depicting d g) {id : BlockId} (hid : d.hasBlock id = true) :
    Depicting d (layOutBlock d g id) ∧ id ∈ (layOutBlock d g id).nodes.map Node.block ∧
      ∀ s ∈ d.attached, s.target.block = id → ∃ e ∈ (layOutBlock d g id).edges,
        e.signal = s.id := by
  obtain ⟨b, hb⟩ := Diagram.hasBlock_iff.mp hid
  simp only [layOutBlock, hb]
  have hnode := h.registered.blockOf?_insertNode id
  have hmem : ∀ s ∈ feeding d id, s ∈ d.signals ∧ s.target.block = id := by
    intro s hs
    simpa using List.mem_filter.mp (List.mem_mergeSort.mp hs)
  have hfold : ∀ ss : List Signal, (∀ s ∈ ss, s ∈ d.signals ∧ s.target.block = id) →
      Depicting d (ss.foldl (layOutSignal d (g.insertNode id).1) (g.insertNode id).2) := by
    intro ss hss
    refine (List.foldlRecOn (motive := fun g' : FlowGraph R =>
      Depicting d g' ∧ (g.insertNode id).2.Grows g')
      ss _ ⟨h.insertNode id, .refl _⟩ fun g' hg' s hs => ?_).1
    obtain ⟨hsignal, htarget⟩ := hss s hs
    refine ⟨hg'.1.layOutSignal hsignal ?_ (htarget.symm ▸ hid),
      hg'.2.trans (grows_layOutSignal d _ g' s)⟩
    rw [htarget]
    exact hg'.2.blockOf? hnode
  refine ⟨hfold _ hmem, ?_, fun s hs htarget => ?_⟩
  · have hgrown := (Grows.foldl (grows_layOutSignal d (g.insertNode id).1)
      (feeding d id) _).blockOf? hnode
    rw [blockOf?_eq] at hgrown
    exact List.mem_of_getElem? hgrown
  · obtain ⟨hsignal, hsource, _⟩ := Diagram.mem_attached.mp hs
    have hfeeding : s ∈ feeding d id :=
      List.mem_mergeSort.mpr (List.mem_filter.mpr ⟨hsignal, by simp [htarget]⟩)
    obtain ⟨before, after, hsplit⟩ := List.append_of_mem hfeeding
    have hbefore := hfold before fun s hs => hmem s (hsplit ▸ List.mem_append_left _ hs)
    rw [hsplit, List.foldl_append, List.foldl_cons]
    obtain ⟨e, he, hid⟩ :=
      exists_edge_layOutSignal hbefore.registered hsource (g.insertNode id).1
    exact ⟨e, (Grows.foldl (grows_layOutSignal d _) after _).edges.subset he, hid⟩

/-- Blocks and nodes, and attached signals and edges, correspond to each other. -/
structure Mirrors (d : Diagram) (g : FlowGraph R) : Prop where
  indexed : g.Indexed
  mem_blocks : ∀ id, id ∈ g.nodes.map Node.block ↔ id ∈ d.blocks.map Block.id
  depicts : ∀ e ∈ g.edges, ∃ s ∈ d.attached, Depicts d g e s
  depicted : ∀ s ∈ d.attached, ∃ e ∈ g.edges, Depicts d g e s

/-- After some blocks have been laid out, they and the signals that end at them are
there. -/
theorem covers_foldl_layOutBlock (ids : List BlockId) :
    Depicting d (ids.foldl (layOutBlock d) (.empty : FlowGraph R)) ∧
      ∀ id ∈ ids, d.hasBlock id = true →
        id ∈ (ids.foldl (layOutBlock d) (.empty : FlowGraph R)).nodes.map Node.block ∧
        ∀ s ∈ d.attached, s.target.block = id →
          ∃ e ∈ (ids.foldl (layOutBlock d) (.empty : FlowGraph R)).edges,
            e.signal = s.id := by
  have hdepicting : ∀ (g : FlowGraph R), Depicting d g →
      ∀ id, Depicting d (layOutBlock d g id) := by
    intro g hg id
    by_cases hid : d.hasBlock id = true
    · exact (layOutBlock_adds hg hid).1
    · have hnone : d.block? id = none := by
        rw [← Option.not_isSome_iff_eq_none, Option.isSome_iff_exists]
        exact fun hb => hid (Diagram.hasBlock_iff.mpr hb)
      simpa [layOutBlock, hnone] using hg
  have hempty : Depicting d (.empty : FlowGraph R) := ⟨.empty, by simp [FlowGraph.empty]⟩
  have hfold : ∀ ids : List BlockId,
      Depicting d (ids.foldl (layOutBlock d) (.empty : FlowGraph R)) := fun ids =>
    List.foldlRecOn ids _ hempty fun g hg id _ => hdepicting g hg id
  refine ⟨hfold ids, fun id hid hblock => ?_⟩
  obtain ⟨before, after, rfl⟩ := List.append_of_mem hid
  rw [List.foldl_append, List.foldl_cons]
  obtain ⟨_, hnode, hedges⟩ := layOutBlock_adds (hfold before) hblock
  have hgrows := Grows.foldl (grows_layOutBlock d) after
    (layOutBlock d (before.foldl (layOutBlock d) (.empty : FlowGraph R)) id)
  refine ⟨hgrows.blocks.subset hnode, fun s hs htarget => ?_⟩
  obtain ⟨e, he, hsignal⟩ := hedges s hs htarget
  exact ⟨e, hgrows.edges.subset he, hsignal⟩

/-- The blocks of a diagram have nodes, and nothing else has. -/
theorem mem_blocks_ofDiagram (d : Diagram) (id : BlockId) :
    id ∈ (FlowGraph.ofDiagram d d.runOrder : FlowGraph R).nodes.map Node.block ↔
      id ∈ d.blocks.map Block.id := by
  constructor
  · exact (OneNodePerBlock.ofDiagram d d.runOrder).subset id
  · intro hid
    have hblock : d.hasBlock id = true := by simpa [Diagram.hasBlock] using hid
    exact ((covers_foldl_layOutBlock d.runOrder.all).2 id
      (Diagram.mem_all_runOrder hid) hblock).1

/-- Every edge stands for a signal between two blocks. -/
theorem exists_depicted_ofDiagram (d : Diagram) :
    ∀ e ∈ (FlowGraph.ofDiagram d d.runOrder : FlowGraph R).edges, ∃ s ∈ d.attached,
      Depicts d (FlowGraph.ofDiagram d d.runOrder : FlowGraph R) e s := by
  intro e he
  obtain ⟨s, hs, htarget, hdepicts⟩ :=
    (covers_foldl_layOutBlock d.runOrder.all).1.edges e he
  obtain ⟨b, hb, _⟩ := hdepicts.var
  exact ⟨s, Diagram.mem_attached.mpr ⟨hs, Diagram.hasBlock_iff.mpr ⟨b, hb⟩, htarget⟩,
    hdepicts⟩

/-- The identifier of a signal between two blocks is that of an edge, which may stand for
another signal. -/
theorem exists_edge_ofDiagram {s : Signal} (hs : s ∈ d.attached) :
    ∃ e ∈ (FlowGraph.ofDiagram d d.runOrder : FlowGraph R).edges, e.signal = s.id := by
  obtain ⟨_, _, htarget⟩ := Diagram.mem_attached.mp hs
  have hblock : s.target.block ∈ d.blocks.map Block.id := by
    simpa [Diagram.hasBlock] using htarget
  have hcovers := (covers_foldl_layOutBlock (R := R) (d := d) d.runOrder.all).2
  exact (hcovers _ (Diagram.mem_all_runOrder hblock) htarget).2 s hs rfl

/-- The graph of a diagram whose signals have different identifiers mirrors it. -/
theorem Mirrors.ofDiagram (h : (d.signals.map Signal.id).Nodup) :
    Mirrors d (FlowGraph.ofDiagram d d.runOrder : FlowGraph R) := by
  refine ⟨.ofDiagram d d.runOrder, mem_blocks_ofDiagram d, exists_depicted_ofDiagram d,
    fun s hs => ?_⟩
  obtain ⟨e, he, hid⟩ := exists_edge_ofDiagram (R := R) hs
  obtain ⟨s', hs', hdepicts⟩ := exists_depicted_ofDiagram d e he
  have heq : s' = s := List.inj_on_of_nodup_map h (Diagram.mem_attached.mp hs').1
    (Diagram.mem_attached.mp hs).1
    (hdepicts.signal.symm.trans hid)
  exact ⟨e, he, heq ▸ hdepicts⟩

end Edges

end FlowGraph
end SignalFlow
