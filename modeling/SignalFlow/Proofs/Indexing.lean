import Mathlib.Data.List.Nodup
import SignalFlow.Proofs.Processing

/-!
# The index of a flow graph

The *index* of a graph says which blocks, signals and numbers belong together.  It is a
matter of the layout; only insertions change it, and they keep it without repetitions.

Facts are written to the edges out of a node one edge after the other.  In an indexed graph
every edge has its turn once, so that all of them can be thought of as changed together.

**Results.**
* `Indexed.insertNode`, `Indexed.insertEdge`, `Indexed.ofDiagram`: what insertions keep of
  the index.
* `Indexed.foldl_modifyEdge`: changing some edges one after the other changes each of them
  once.
* `Indexed.writeOutgoing_eq`, `Indexed.fillDefaults_eq`: writing to the edges out of a
  node.
-/

namespace SignalFlow
namespace FlowGraph

variable {R : Type} {g : FlowGraph R}

/-- The graph is wired, maps and allocator are in step with it, nodes list no edge twice,
and no block or signal occurs twice. -/
structure Indexed (g : FlowGraph R) : Prop where
  wired : g.Wired
  registered : g.Registered
  outgoing : ∀ node ∈ g.nodes, node.outgoing.Nodup
  incoming : ∀ node ∈ g.nodes, node.incoming.Nodup
  blocks : (g.nodes.map Node.block).Nodup
  signals : (g.edges.map Edge.signal).Nodup

section Insertion

theorem Indexed.empty : (FlowGraph.empty : FlowGraph R).Indexed where
  wired := .empty
  registered := .empty
  outgoing := by simp [FlowGraph.empty]
  incoming := by simp [FlowGraph.empty]
  blocks := List.nodup_nil
  signals := List.nodup_nil

theorem Indexed.insertNode (h : g.Indexed) (block : BlockId) :
    (g.insertNode block).2.Indexed := by
  refine ⟨h.wired.insertNode h.registered block, h.registered.insertNode block, ?_, ?_,
    nodup_blocks_insertNode h.registered h.blocks block, ?_⟩
  all_goals unfold FlowGraph.insertNode
  all_goals split
  · exact h.outgoing
  · simpa [or_imp, forall_and] using h.outgoing
  · exact h.incoming
  · simpa [or_imp, forall_and] using h.incoming
  · exact h.signals
  · exact h.signals

/-- The number of a new edge is listed nowhere yet. -/
theorem Lists.length_not_mem {listed : Node R → List Nat} {tip : Edge R → Nat}
    {nodes : List (Node R)} {edges : List (Edge R)} (h : Lists listed tip nodes edges)
    {n : Nat} {node : Node R} (hnode : nodes[n]? = some node) {k : EdgeId}
    (hk : k = edges.length) : k ∉ listed node := by
  rintro hmem
  subst hk
  obtain ⟨e, he, _⟩ := (h.mem_listed n node hnode _).mp hmem
  simp at he

theorem Indexed.insertEdge (h : g.Indexed) (signal : SignalId) {source target : Socket}
    (var : String) (hsource : source.node < g.nodes.length)
    (htarget : target.node < g.nodes.length) :
    (g.insertEdge signal source target var).2.Indexed := by
  cases hnew : g.edgeOf? signal with
  | some e =>
      rw [insertEdge_of_some hnew]
      exact h
  | none =>
      have hsnoc : ∀ {xs : List Nat} {k : Nat}, xs.Nodup → k ∉ xs → (xs ++ [k]).Nodup := by
        intro xs k hxs hk
        exact List.nodup_append_comm.mp (List.nodup_cons.mpr ⟨hk, hxs⟩)
      refine ⟨h.wired.insertEdge h.registered signal var hsource htarget,
        h.registered.insertEdge _ _ _ _,
        fun node' hnode' => ?_, fun node' hnode' => ?_, ?_, ?_⟩
      · obtain ⟨n, hn⟩ := List.mem_iff_getElem?.mp hnode'
        obtain ⟨node, hnode, _, _, _, hout, _⟩ :=
          exists_node_of_insertEdge hnew source target var hn
        rw [hout]
        split
        · exact hsnoc (h.outgoing node (List.mem_of_getElem? hnode))
            (h.wired.leaving.length_not_mem hnode h.registered.nextEdge)
        · exact h.outgoing node (List.mem_of_getElem? hnode)
      · obtain ⟨n, hn⟩ := List.mem_iff_getElem?.mp hnode'
        obtain ⟨node, hnode, _, _, _, _, hin⟩ :=
          exists_node_of_insertEdge hnew source target var hn
        rw [hin]
        split
        · exact hsnoc (h.incoming node (List.mem_of_getElem? hnode))
            (h.wired.entering.length_not_mem hnode h.registered.nextEdge)
        · exact h.incoming node (List.mem_of_getElem? hnode)
      · rw [map_block_insertEdge]
        exact h.blocks
      · rw [edges_insertEdge hnew, List.map_append, List.map_singleton]
        refine hsnoc h.signals fun hmem => ?_
        obtain ⟨e, he, heq⟩ := List.mem_map.mp hmem
        rw [h.registered.edgeOf?] at hnew
        have hne := List.findIdx?_eq_none_iff.mp hnew e he
        simp [heq] at hne

/-- The index is a matter of the layout. -/
theorem indexed_layout : g.layout.Indexed ↔ g.Indexed := by
  constructor
  · intro h
    refine ⟨wired_layout.mp h.wired, registered_layout.mp h.registered,
      fun node hnode => ?_,
      fun node hnode => ?_, ?_, ?_⟩
    · exact h.outgoing node.bare (List.mem_map_of_mem hnode)
    · exact h.incoming node.bare (List.mem_map_of_mem hnode)
    · simpa using h.blocks
    · simpa [layout, Function.comp_def, Edge.bare] using h.signals
  · intro h
    refine ⟨wired_layout.mpr h.wired, registered_layout.mpr h.registered,
      fun node hnode => ?_,
      fun node hnode => ?_, ?_, ?_⟩
    · obtain ⟨node', hnode', rfl⟩ := List.mem_map.mp hnode
      exact h.outgoing node' hnode'
    · obtain ⟨node', hnode', rfl⟩ := List.mem_map.mp hnode
      exact h.incoming node' hnode'
    · simpa using h.blocks
    · simpa [layout, Function.comp_def, Edge.bare] using h.signals

theorem Indexed.of_layout {g' : FlowGraph R} (h : g.Indexed)
    (hlayout : g'.layout = g.layout) : g'.Indexed := by
  rw [← indexed_layout, hlayout, indexed_layout]
  exact h

theorem Indexed.layOutSignal (h : g.Indexed) {d : Diagram} {target : Nat}
    (htarget : target < g.nodes.length) (s : Signal) :
    (layOutSignal d target g s).Indexed := by
  unfold FlowGraph.layOutSignal
  split
  · exact h
  · next b hb =>
      have hlt := Nat.lt_of_lt_of_le htarget (length_le_insertNode g b.id)
      exact (h.insertNode b.id).insertEdge s.id _ (lt_insertNode h.registered b.id) hlt

theorem Indexed.layOutBlock (h : g.Indexed) (d : Diagram) (id : BlockId) :
    (layOutBlock d g id).Indexed := by
  unfold FlowGraph.layOutBlock
  split
  · exact h
  · refine (List.foldlRecOn (motive := fun g' : FlowGraph R => g'.Indexed ∧
      (g.insertNode id).1 < g'.nodes.length) (feeding d id) _ ⟨h.insertNode id,
      lt_insertNode h.registered id⟩ ?_).1
    intro g' hg' s _
    exact ⟨hg'.1.layOutSignal hg'.2 s,
      (hg'.1.wired.layOutSignal hg'.1.registered hg'.2 s).2⟩

/-- The graph of a diagram is indexed. -/
theorem Indexed.ofDiagram (d : Diagram) (order : RunOrder) :
    (FlowGraph.ofDiagram d order : FlowGraph R).Indexed :=
  List.foldlRecOn order.all _ Indexed.empty fun _ hg id _ => hg.layOutBlock d id

end Insertion

section Updates

/-- Change all edges. -/
def mapEdges (g : FlowGraph R) (f : Edge R → Edge R) : FlowGraph R :=
  { g with edges := g.edges.map f }

/-- Change the edges out of a node. -/
def updateLeaving (g : FlowGraph R) (n : NodeId) (f : Edge R → Edge R) : FlowGraph R :=
  g.mapEdges fun e => if e.source.node = n then f e else e

theorem layout_mapEdges {f : Edge R → Edge R} (hf : ∀ e, (f e).bare = e.bare)
    (g : FlowGraph R) : (g.mapEdges f).layout = g.layout := by
  simp [layout, mapEdges, Function.comp_def, hf]

/-- Only the element at the position is changed. -/
theorem forall_mem_modify {α : Type} {P : α → Prop} {f : α → α} {xs : List α}
    (h : ∀ a ∈ xs, P a) {i : Nat} (hf : ∀ a, xs[i]? = some a → P a → P (f a)) :
    ∀ a ∈ xs.modify i f, P a := by
  intro a ha
  obtain ⟨j, hj⟩ := List.mem_iff_getElem?.mp ha
  rw [List.getElem?_modify] at hj
  obtain ⟨b, hb, rfl⟩ := Option.map_eq_some_iff.mp hj
  have hmem := List.mem_of_getElem? hb
  split
  · next hij => exact hf b (hij ▸ hb) (h b hmem)
  · exact h b hmem

/-- Elements are changed one after the other, each of them once. -/
theorem foldl_modify_eq_map {α : Type} {key : α → Nat} (f : α → α → α) {es : List α}
    (hes : (es.map key).Nodup) {xs : List α} (hkey : ∀ i x, xs[i]? = some x → key x = i)
    (hmem : ∀ e ∈ es, xs[key e]? = some e) :
    es.foldl (fun xs e => xs.modify (key e) (f e)) xs =
      xs.map fun x => if key x ∈ es.map key then f x x else x := by
  have hfold : ∀ k, (es.foldl (fun xs e => xs.modify (key e) (f e)) xs)[k]? =
      xs[k]?.map fun x => if k ∈ es.map key then f x x else x := by
    clear hkey
    intro k
    induction es generalizing xs with
    | nil => simp
    | cons e es ih =>
        rw [List.map_cons, List.nodup_cons] at hes
        rw [List.forall_mem_cons] at hmem
        have hne : ∀ e' ∈ es, key e ≠ key e' := fun e' he' heq =>
          hes.1 (heq ▸ List.mem_map_of_mem he')
        have hrest : ∀ e' ∈ es, (xs.modify (key e) (f e))[key e']? = some e' := by
          intro e' he'
          simp [hne e' he', hmem.2 e' he']
        rw [List.foldl_cons, ih hes.2 hrest, List.getElem?_modify]
        by_cases hk : key e = k
        · subst hk
          simp [hmem.1, hes.1]
        · have hk' : ¬ k = key e := fun heq => hk heq.symm
          simp [hk, hk']
  refine List.ext_getElem? fun k => ?_
  rw [hfold, List.getElem?_map]
  cases hx : xs[k]? with
  | none => rfl
  | some x => simp only [Option.map_some, hkey k x hx]

theorem foldl_modifyEdge_eq (f : Edge R → Edge R → Edge R) (es : List (Edge R))
    (g : FlowGraph R) :
    es.foldl (fun g e => g.modifyEdge e.id (f e)) g =
      { g with edges := es.foldl (fun edges e => edges.modify e.id (f e)) g.edges } := by
  induction es generalizing g with
  | nil => rfl
  | cons e es ih =>
      rw [List.foldl_cons, ih]
      rfl

/-- The edges that a node lists, by their numbers. -/
theorem Wired.map_id_listed (h : g.Wired) {listed : Node R → List Nat} {tip : Edge R → Nat}
    (hlists : Lists listed tip g.nodes g.edges) {n : Nat} {node : Node R}
    (hn : g.nodes[n]? = some node) :
    ((listed node).filterMap fun i => g.edges[i]?).map Edge.id = listed node := by
  have hid : ∀ i ∈ listed node, (g.edges[i]?.map Edge.id) = some i := by
    intro i hi
    obtain ⟨e, he, _⟩ := (hlists.mem_listed n node hn i).mp hi
    rw [he, Option.map_some, h.edge_id i e he]
  rw [List.map_filterMap, List.filterMap_congr hid, List.filterMap_some]

theorem Indexed.nodup_id_outgoing (h : g.Indexed) (n : NodeId) :
    ((g.outgoing n).map Edge.id).Nodup := by
  unfold FlowGraph.outgoing
  split
  · next node hn =>
      rw [h.wired.map_id_listed h.wired.leaving hn]
      exact h.outgoing node (List.mem_of_getElem? hn)
  · exact List.nodup_nil

theorem Indexed.nodup_id_incoming (h : g.Indexed) (n : NodeId) :
    ((g.incoming n).map Edge.id).Nodup := by
  unfold FlowGraph.incoming
  split
  · next node hn =>
      rw [h.wired.map_id_listed h.wired.entering hn]
      exact h.incoming node (List.mem_of_getElem? hn)
  · exact List.nodup_nil

/-- Some of the edges out of a node are changed one after the other, each of them once. -/
theorem Indexed.foldl_modifyEdge (h : g.Indexed) (n : NodeId) (q : Edge R → Bool)
    (f : Edge R → Edge R → Edge R) :
    ((g.outgoing n).filter q).foldl (fun g e => g.modifyEdge e.id (f e)) g =
      g.updateLeaving n fun e => if q e then f e e else e := by
  rw [foldl_modifyEdge_eq, updateLeaving, mapEdges]
  congr 1
  have hnodup : (((g.outgoing n).filter q).map Edge.id).Nodup :=
    (h.nodup_id_outgoing n).sublist (List.filter_sublist.map Edge.id)
  have hmem : ∀ e, e ∈ (g.outgoing n).filter q ↔ e ∈ g.edges ∧ e.source.node = n ∧
      q e = true := by
    intro e
    rw [List.mem_filter, h.wired.mem_outgoing, and_assoc]
  rw [foldl_modify_eq_map f hnodup h.wired.edge_id fun e he =>
    h.wired.getElem?_id ((hmem e).mp he).1]
  refine List.map_congr_left fun e he => ?_
  have hlisted : e.id ∈ ((g.outgoing n).filter q).map Edge.id ↔
      e.source.node = n ∧ q e = true := by
    rw [List.mem_map]
    constructor
    · rintro ⟨e', he', hid⟩
      obtain ⟨hedge, hcond⟩ := (hmem e').mp he'
      obtain rfl : e' = e := by
        have heq := h.wired.getElem?_id hedge
        rw [hid, h.wired.getElem?_id he] at heq
        exact (Option.some.inj heq).symm
      exact hcond
    · exact fun hcond => ⟨e, (hmem e).mpr ⟨he, hcond⟩, rfl⟩
  simp only [hlisted]
  split <;> split <;> simp_all

variable [Scalar R]

theorem Indexed.writeOutgoing_eq (h : g.Indexed) (n : NodeId) (p : Fact R) :
    g.writeOutgoing n p = g.updateLeaving n fun e => e.addFact (p.retarget e.term) := by
  have hfold := h.foldl_modifyEdge n (fun _ => true) fun e edge =>
    edge.addFact (p.retarget e.term)
  rw [List.filter_true] at hfold
  exact hfold

theorem Indexed.fillDefaults_eq (h : g.Indexed) (n : NodeId) :
    g.fillDefaults n = g.updateLeaving n fun e => e.addFacts (defaults e) := by
  have hfold := h.foldl_modifyEdge n (fun _ => true) fun _ e => e.addFacts (defaults e)
  rw [List.filter_true] at hfold
  exact hfold

end Updates

end FlowGraph
end SignalFlow
