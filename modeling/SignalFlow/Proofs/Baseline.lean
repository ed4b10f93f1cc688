import Mathlib
import SignalFlow.Proofs.CountedInputs
import SignalFlow.Proofs.RunOrder
import SignalFlow.Scalar.Binary64

/-!
# Propagation of a whole diagram

The visits of a propagation start from every node of the graph, since every block of the
diagram is in its run order.  So they end with every node processed, and each of them once;
and an edge, which leads out of some node, has been given a fact of each category when that
node was processed.

Since every node is processed, the inputs of every block are counted.  This is all that can
fail: there is a result just if no signal ends at the last input number.

**Results.**
* `mem_starts_iff`: visits start from every node.
* `completes_iff`: when propagation ends with a result, and that it has then processed
  every node once and left facts of each category.
-/

namespace SignalFlow

variable {R : Type}

section Layout

variable {c : Setting} {g : FlowGraph R} {order : RunOrder}

theorem FlowGraph.Registered.nodeOf?_of_nodup (hg : g.Registered)
    (h : (g.nodes.map Node.block).Nodup) {n : Nat} {node : Node R}
    (hn : g.nodes[n]? = some node) : g.nodeOf? node.block = some n := by
  rw [hg.nodeOf?]
  exact (findIdx?_eq_some_iff_of_nodup h).mpr ⟨node, hn, rfl⟩

/-- The graph is wired, maps and allocator are in step with it, and its nodes stand for
different blocks of the diagram. -/
structure LaidOut (d : Diagram) (g : FlowGraph R) : Prop where
  wired : g.Wired
  registered : g.Registered
  blocks : FlowGraph.OneNodePerBlock d g

theorem LaidOut.of_layout {d : Diagram}
    (h : g.layout = (FlowGraph.ofDiagram d order : FlowGraph R).layout) : LaidOut d g := by
  have hblocks := FlowGraph.map_block_layout (g := g)
  rw [h, FlowGraph.map_block_layout] at hblocks
  obtain ⟨hnodup, hsubset⟩ := FlowGraph.OneNodePerBlock.ofDiagram (R := R) d order
  refine ⟨?_, ?_, ⟨hblocks ▸ hnodup, hblocks ▸ hsubset⟩⟩
  · rw [← FlowGraph.wired_layout, h, FlowGraph.wired_layout]
    exact FlowGraph.Wired.ofDiagram d order
  · rw [← FlowGraph.registered_layout, h, FlowGraph.registered_layout]
    exact FlowGraph.Registered.ofDiagram d order

theorem LaidOut.isSome_block (h : LaidOut c.diagram g) {n : Nat}
    (hn : n < g.nodes.length) : (c.block? g n).isSome = true := by
  have hnode : g.nodes[n]? = some (g.nodes.get ⟨n, hn⟩) := by simp [hn]
  have hmem := h.blocks.subset _ (List.mem_map_of_mem (List.mem_of_getElem? hnode))
  obtain ⟨b, hb, hid⟩ := List.mem_map.mp hmem
  simp only [Setting.block?, FlowGraph.blockOf?, hnode, Option.map_some, Option.bind_some]
  rw [Diagram.block?, List.find?_isSome]
  exact ⟨b, hb, by simp [hid]⟩

theorem LaidOut.orderly (h : LaidOut c.diagram g) : Orderly c g [] :=
  ⟨h.wired, fun _ hn => h.isSome_block hn, List.nodup_nil, by simp, by simp⟩

end Layout

namespace Propagation

variable {c : Setting} {g : FlowGraph R} {d : Diagram}

/-- Visits start from every node. -/
theorem mem_starts_iff (h : LaidOut d g) {n : Nat} :
    n ∈ starts g d.runOrder ↔ n < g.nodes.length := by
  constructor
  · intro hn
    rcases mem_or_mem_of_mem_foldl_insertLast hn with hn | hn
    · obtain ⟨node, hnode, rfl⟩ := List.mem_map.mp hn
      obtain ⟨i, hi⟩ := List.mem_iff_getElem?.mp (List.mem_filter.mp hnode).1
      rw [h.wired.node_id i node hi]
      exact (List.getElem?_eq_some_iff.mp hi).1
    · obtain ⟨id, _, hid⟩ := List.mem_filterMap.mp hn
      rw [h.registered.nodeOf?] at hid
      exact (List.findIdx?_eq_some_iff_getElem.mp hid).1
  · intro hn
    have hnode : g.nodes[n]? = some (g.nodes.get ⟨n, hn⟩) := by simp [hn]
    have hblock := h.blocks.subset _ (List.mem_map_of_mem (List.mem_of_getElem? hnode))
    have hmem : n ∈ d.runOrder.all.filterMap g.nodeOf? :=
      List.mem_filterMap.mpr ⟨_, Diagram.mem_all_runOrder hblock,
        h.registered.nodeOf?_of_nodup h.blocks.nodup hnode⟩
    obtain ⟨m, hm, rfl | hmn⟩ := exists_mem_foldl_insertLast hmem g.sinks
    · exact hm
    · exact eq_of_beq hmn ▸ hm

variable [Scalar R]

theorem extends_seeded (c : Setting) (g : FlowGraph R) : g.Extends (seeded c g) :=
  .foldl (FlowGraph.extends_seedNode c) _ g

/-- Visits start from every node, and none is active before. -/
theorem leads_starts (h : LaidOut d (seeded c g)) :
    ∀ n ∈ starts (seeded c g) d.runOrder,
      ({ graph := seeded c g } : Propagation R).Leads n :=
  fun _ hn => ⟨(mem_starts_iff h).mp hn, by simp⟩

/-- Propagation is a list of visits from every node. -/
theorem visits_run (hg : LaidOut c.diagram (seeded c g)) :
    Visits c { graph := seeded c g } (starts (seeded c g) c.diagram.runOrder)
      (run c c.diagram.runOrder g) := by
  have hopen := openNodes_le_twice ({ graph := seeded c g } : Propagation R)
  rw [run_eq]
  exact visits_foldl hg.orderly (leads_starts hg)
    (Nat.lt_add_right 1 (Nat.lt_succ_of_le hopen))

theorem visited_run (hg : LaidOut c.diagram (seeded c g)) :
    Visited c { graph := seeded c g } (starts (seeded c g) c.diagram.runOrder)
      (run c c.diagram.runOrder g) :=
  (visits_run hg).visited hg.orderly (leads_starts hg)

/-- No loop is left to be resolved. -/
theorem resolving_run (hg : LaidOut c.diagram (seeded c g)) :
    (run c c.diagram.runOrder g).resolving = [] :=
  List.subset_nil.mp (visited_run hg).resolving

/-- Every node is done in the end. -/
theorem mem_done_run_iff (hg : LaidOut c.diagram (seeded c g)) {n : Nat} :
    n ∈ (run c c.diagram.runOrder g).done ↔
      n < (run c c.diagram.runOrder g).graph.nodes.length := by
  have hvisited := visited_run hg
  refine ⟨hvisited.orderly.lt n, fun hn => ?_⟩
  rw [hvisited.advances.graph.length_nodes] at hn
  refine (hvisited.visited n ((mem_starts_iff hg).mpr hn)).resolve_right fun hres => ?_
  cases hvisited.resolving hres

/-- Every node is processed once. -/
theorem perm_processed_run (hg : LaidOut c.diagram (seeded c g)) :
    (run c c.diagram.runOrder g).processed.Perm
      (List.range (seeded c g).nodes.length) := by
  have hvisited := visited_run hg
  have hsettled := (visits_run hg).settled rfl hg.orderly (leads_starts hg)
  rw [hsettled, List.perm_ext_iff_of_nodup hvisited.orderly.nodup List.nodup_range]
  intro n
  rw [mem_done_run_iff hg, List.mem_range, hvisited.advances.graph.length_nodes]

/-- Every edge is given a fact of each category. -/
theorem hasCategory_run (hg : LaidOut c.diagram (seeded c g)) :
    ∀ e ∈ (run c c.diagram.runOrder g).graph.edges, ∀ k, e.hasCategory k = true := by
  intro e he k
  have horderly := (visited_run hg).orderly
  exact horderly.hasCategory e he
    ((mem_done_run_iff hg).mpr (horderly.wired.leaving.tip_lt e he)) k

/-- There is a result just if the inputs of all blocks can be counted. -/
theorem exists_run_iff
    (hg : g.layout = (FlowGraph.ofDiagram c.diagram c.diagram.runOrder :
      FlowGraph R).layout) :
    (∃ st, run? c c.diagram.runOrder g = some st) ↔
      ∀ e ∈ g.edges, e.target.pin + 1 < Text.idLimit := by
  have hseeded := extends_seeded c g
  have hlaid : LaidOut c.diagram (seeded c g) := .of_layout (hseeded.layout.trans hg)
  have hwired := (LaidOut.of_layout hg).wired
  have hfollows := follows_run c c.diagram.runOrder g
  constructor
  · rintro ⟨st, hst⟩ e he
    obtain rfl := hfollows.eq st hst
    have hvisited := visited_run hlaid
    have hn : e.target.node < (seeded c g).nodes.length :=
      hseeded.length_nodes ▸ hwired.entering.tip_lt e he
    have hmem := (perm_processed_run hlaid).mem_iff.mpr (List.mem_range.mpr hn)
    have hblock :=
      hvisited.orderly.isSome_block _ (hvisited.advances.graph.length_nodes ▸ hn)
    have hcount := hfollows.counted hst (by simp [Counted]) _ hmem hblock
    rw [FlowGraph.countable_of_layout (hseeded.trans hvisited.advances.graph).layout]
      at hcount
    exact hwired.countable_eq_true_iff.mp hcount e he rfl
  · intro hpins
    refine ⟨_, hfollows.total fun n => ?_⟩
    refine (FlowGraph.countable_of_layout hseeded.layout n).trans ?_
    exact hwired.countable_eq_true_iff.mpr fun e he _ => hpins e he

/-- Propagation over the graph of a diagram, whatever facts it has.  There is a result just
if every signal ends at an input whose number has a successor of 32 bits.  Then the visits
end, and in this result; every node has been processed once; and all that changed are
facts, of which every edge has one of each category. -/
theorem completes_iff (c : Setting) (g : FlowGraph R)
    (hg : g.layout = (FlowGraph.ofDiagram c.diagram c.diagram.runOrder :
      FlowGraph R).layout) :
    ((∃ st, run? c c.diagram.runOrder g = some st) ↔
      ∀ e ∈ g.edges, e.target.pin + 1 < Text.idLimit) ∧
      ∀ st, run? c c.diagram.runOrder g = some st →
        (∀ st', Visits c { graph := seeded c g } (starts (seeded c g) c.diagram.runOrder)
          st' ↔ st' = st) ∧
          st.processed.Perm (g.nodes.map Node.id) ∧
          g.Extends st.graph ∧
          ∀ e ∈ st.graph.edges, ∀ k, e.hasCategory k = true := by
  have hseeded := extends_seeded c g
  have hlaid : LaidOut c.diagram (seeded c g) := .of_layout (hseeded.layout.trans hg)
  have hvisits := visits_run hlaid
  refine ⟨exists_run_iff hg, fun st hst => ?_⟩
  obtain rfl := (follows_run c c.diagram.runOrder g).eq st hst
  refine ⟨fun st' => ⟨fun h => h.unique hvisits, fun h => h ▸ hvisits⟩, ?_,
    hseeded.trans (visited_run hlaid).advances.graph, hasCategory_run hlaid⟩
  rw [(LaidOut.of_layout hg).wired.map_id, ← hseeded.length_nodes]
  exact perm_processed_run hlaid

/-- Two loops that share blocks, and a block of unknown type that feeds itself. -/
def tangle : Diagram where
  name := "tangle"
  blocks :=
    [⟨1, "A", "Sum", 2, 1, []⟩, ⟨2, "Z", "UnitDelay", 1, 1, []⟩,
      ⟨3, "G", "Gain", 1, 1, []⟩, ⟨4, "L", "Lookup", 1, 1, []⟩,
      ⟨5, "Y", "Outport", 1, 0, []⟩]
  signals :=
    [⟨1, ⟨1, 0⟩, ⟨2, 0⟩⟩, ⟨2, ⟨2, 0⟩, ⟨1, 0⟩⟩, ⟨3, ⟨2, 0⟩, ⟨3, 0⟩⟩, ⟨4, ⟨3, 0⟩, ⟨1, 1⟩⟩,
      ⟨5, ⟨4, 0⟩, ⟨4, 0⟩⟩, ⟨6, ⟨2, 0⟩, ⟨5, 0⟩⟩]

/-- The graph of the loops, with a bound on the first signal. -/
def tangleGraph : FlowGraph Float :=
  (FlowGraph.ofDiagram tangle tangle.runOrder).addEdgeFact 0
    (.single (.closed (.var "Z_out") 0 1))

theorem layout_tangleGraph :
    tangleGraph.layout =
      (FlowGraph.ofDiagram tangle tangle.runOrder : FlowGraph Float).layout :=
  (FlowGraph.extends_addEdgeFact _ _ _).layout

theorem completes_tangle :
    tangleGraph.layout =
      (FlowGraph.ofDiagram tangle tangle.runOrder : FlowGraph Float).layout ∧
      ∃ st, run? ⟨tangle, .builtin, {}⟩ tangle.runOrder tangleGraph = some st ∧
        st.processed.Perm [0, 1, 2, 3, 4] ∧ ∀ e ∈ st.graph.edges, ∀ k,
          e.hasCategory k = true := by
  have hids : tangleGraph.nodes.map Node.id = [0, 1, 2, 3, 4] := by
    change (FlowGraph.ofDiagram tangle tangle.runOrder : FlowGraph Float).nodes.map
      Node.id = _
    cbv
  have hpins : tangleGraph.edges.map (fun e => e.target.pin) = [0, 1, 0, 0, 0, 0] :=
    (FlowGraph.pins_of_layout layout_tangleGraph).trans (by cbv)
  obtain ⟨htotal, hresult⟩ :=
    completes_iff ⟨tangle, .builtin, {}⟩ tangleGraph layout_tangleGraph
  obtain ⟨st, hst⟩ := htotal.mpr fun e he => by
    have hmem : e.target.pin ∈ [0, 1, 0, 0, 0, 0] := hpins ▸ List.mem_map_of_mem he
    have hle : e.target.pin ≤ 1 := by grind
    exact Nat.lt_of_le_of_lt (Nat.succ_le_succ hle) (by decide)
  obtain ⟨_, hprocessed, _, hcategories⟩ := hresult st hst
  exact ⟨layout_tangleGraph, st, hst, hids ▸ hprocessed, hcategories⟩

/-- A signal that ends at the last input number. -/
def lastPin : Diagram where
  name := "lastPin"
  blocks := [⟨1, "A", "Inport", 0, 1, []⟩, ⟨2, "G", "Gain", 1, 1, []⟩]
  signals := [⟨1, ⟨1, 0⟩, ⟨2, 4294967295⟩⟩]

/-- Its inputs cannot be counted. -/
theorem lastPin_fails :
    (run? ⟨lastPin, .builtin, {}⟩ lastPin.runOrder
      (FlowGraph.ofDiagram lastPin lastPin.runOrder : FlowGraph Float)).isNone = true := by
  decide +kernel

end Propagation
end SignalFlow
