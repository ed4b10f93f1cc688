import SignalFlow.Proofs.Baseline
import SignalFlow.Proofs.Consumption

/-!
# Loop records and the circles of a diagram

A circle is a list of blocks in which an edge joins each block to the next one, and the
last to the first.  The nodes of the graph of a diagram stand for different blocks, so that
circles of blocks and circles of nodes are the same; what is known of recorded nodes is
carried over to the blocks of the records.

**Results.**
* `run_records_circles`: loop records are circles, every circle meets one of them, and
  without circles all facts are consumed.
-/

namespace SignalFlow

variable {R : Type}

namespace FlowGraph

/-- An edge leads from the first block to the second. -/
def Joins (g : FlowGraph R) (a b : BlockId) : Prop :=
  ∃ e ∈ g.edges, g.blockOf? e.source.node = some a ∧ g.blockOf? e.target.node = some b

instance (g : FlowGraph R) (a b : BlockId) : Decidable (g.Joins a b) :=
  inferInstanceAs (Decidable (∃ e ∈ g.edges, g.blockOf? e.source.node = some a ∧
    g.blockOf? e.target.node = some b))

/-- Each block is joined to the next one, and the last to the first. -/
structure Circle (g : FlowGraph R) (blocks : List BlockId) : Prop where
  chain : blocks.IsChain g.Joins
  closing : ∃ first last, blocks.head? = some first ∧ blocks.getLast? = some last ∧
    g.Joins last first

variable {g : FlowGraph R} {d : Diagram}

theorem circle_of_layout {g' : FlowGraph R} (h : g'.layout = g.layout)
    {blocks : List BlockId} : g'.Circle blocks ↔ g.Circle blocks := by
  have hlayout : ∀ g : FlowGraph R, g.layout.Joins = g.Joins := by
    intro g
    funext a b
    simp only [Joins, blockOf?_layout]
    simp [layout, Edge.bare]
  have hjoins : g'.Joins = g.Joins := by
    rw [← hlayout g', h, hlayout]
  constructor
  · rintro ⟨hchain, hclosing⟩
    rw [hjoins] at hchain hclosing
    exact ⟨hchain, hclosing⟩
  · rintro ⟨hchain, hclosing⟩
    rw [← hjoins] at hchain hclosing
    exact ⟨hchain, hclosing⟩

theorem Circle.joins {blocks : List BlockId} (h : g.Circle blocks) {b : BlockId}
    (hb : b ∈ blocks) : ∃ a, g.Joins b a := by
  obtain ⟨before, after, rfl⟩ := List.append_of_mem hb
  cases after with
  | nil =>
      obtain ⟨first, last, _, hlast, hjoins⟩ := h.closing
      obtain rfl : b = last := by simpa using hlast
      exact ⟨first, hjoins⟩
  | cons a after =>
      have htail := (List.isChain_append.mp h.chain).2.1
      exact ⟨a, (List.isChain_cons_cons.mp htail).1⟩

/-- A block is that of one node only. -/
theorem nodeOf?_of_blockOf? (h : LaidOut d g) {n : Nat} {b : BlockId}
    (hb : g.blockOf? n = some b) : g.nodeOf? b = some n := by
  obtain ⟨node, hnode, rfl⟩ := Option.map_eq_some_iff.mp hb
  exact h.registered.nodeOf?_of_nodup h.blocks.nodup hnode

/-- Nodes that are joined feed each other. -/
theorem Joins.feeds (h : LaidOut d g) {a b : BlockId} (hab : g.Joins a b) :
    ∃ m n, g.nodeOf? a = some m ∧ g.nodeOf? b = some n ∧ g.Feeds m n := by
  obtain ⟨e, he, ha, hb⟩ := hab
  exact ⟨_, _, nodeOf?_of_blockOf? h ha, nodeOf?_of_blockOf? h hb, e, he, rfl, rfl⟩

/-- The block of a node of the graph. -/
def blockAt (g : FlowGraph R) (n : Nat) : BlockId :=
  (g.blockOf? n).getD 0

theorem blockOf?_eq_blockAt {n : Nat} (hn : n < g.nodes.length) :
    g.blockOf? n = some (g.blockAt n) := by
  simp [blockAt, blockOf?, hn]

theorem Wired.joins_blockAt (h : g.Wired) {m n : Nat} (hmn : g.Feeds m n) :
    g.Joins (g.blockAt m) (g.blockAt n) := by
  obtain ⟨hm, hn⟩ := h.lt_of_feeds hmn
  obtain ⟨e, he, rfl, rfl⟩ := hmn
  exact ⟨e, he, blockOf?_eq_blockAt hm, blockOf?_eq_blockAt hn⟩

/-- The blocks of a loop form a circle without repetition. -/
theorem LoopAt.circle (hg : LaidOut d g) {n : Nat} {members : List Nat}
    (h : g.LoopAt n members) :
    g.Circle (members.filterMap g.blockOf?) ∧ (members.filterMap g.blockOf?).Nodup := by
  have hmap : members.filterMap g.blockOf? = members.map g.blockAt := by
    rw [← List.filterMap_eq_map]
    exact List.filterMap_congr fun m hm => blockOf?_eq_blockAt (h.lt hm)
  rw [hmap]
  obtain ⟨last, htrail, hfeeds⟩ := h
  refine ⟨⟨?_, g.blockAt n, g.blockAt last, ?_, ?_, hg.wired.joins_blockAt hfeeds⟩, ?_⟩
  · rw [List.isChain_map]
    exact htrail.chain.imp fun _ _ hmn => hg.wired.joins_blockAt hmn
  · simp [htrail.head]
  · simp [htrail.last]
  · refine List.Nodup.map_on (fun m hm k hk heq => ?_) htrail.nodup
    have hnode := nodeOf?_of_blockOf? hg (blockOf?_eq_blockAt (htrail.lt m hm))
    rw [heq, nodeOf?_of_blockOf? hg (blockOf?_eq_blockAt (htrail.lt k hk))] at hnode
    exact (Option.some.inj hnode).symm

end FlowGraph

namespace Propagation

variable {c : Setting} {g : FlowGraph R} {st : Propagation R} {d : Diagram}

/-- Every circle of blocks meets a record, once all nodes have been processed. -/
theorem Tracked.exists_member (h : st.Tracked) (hlaid : LaidOut d st.graph)
    (hresolving : st.resolving = []) (hdone : ∀ n < st.graph.nodes.length, n ∈ st.done)
    {circle : List BlockId} (hcircle : st.graph.Circle circle) :
    ∃ r ∈ st.loops, ∃ b ∈ circle, b ∈ r.members := by
  obtain ⟨first, last, hhead, hlast, hclosing⟩ := hcircle.closing
  let node : BlockId → Nat := fun b => (st.graph.nodeOf? b).getD 0
  have hfeeds : ∀ {a b}, st.graph.Joins a b → st.graph.Feeds (node a) (node b) := by
    intro a b hab
    obtain ⟨m, n, ha, hb, hmn⟩ := hab.feeds hlaid
    simpa [node, ha, hb] using hmn
  have hnodes : ∀ b ∈ circle, st.graph.blockOf? (node b) = some b := by
    intro b hb
    obtain ⟨_, e, _, hsource, _⟩ := hcircle.joins hb
    simpa [node, FlowGraph.nodeOf?_of_blockOf? hlaid hsource] using hsource
  have hmem : ∀ n ∈ circle.map node, n ∈ st.done := by
    intro n hn
    obtain ⟨b, hb, rfl⟩ := List.mem_map.mp hn
    obtain ⟨a, hab⟩ := hcircle.joins hb
    exact hdone _ (hlaid.wired.lt_of_feeds (hfeeds hab)).1
  have hchain : (circle.map node).IsChain st.graph.Feeds := by
    rw [List.isChain_map]
    exact hcircle.chain.imp fun _ _ hab => hfeeds hab
  have hhead' : (circle.map node).head? = some (node first) := by simp [hhead]
  have hlast' : (circle.map node).getLast? = some (node last) := by simp [hlast]
  obtain ⟨n, hn, r, hr, b, hb, hblock⟩ :=
    h.exists_recorded hresolving hhead' hlast' hmem hchain (hfeeds hclosing)
  obtain ⟨a, ha, rfl⟩ := List.mem_map.mp hn
  obtain rfl : a = b := by simpa [hnodes a ha] using hblock
  exact ⟨r, hr, a, ha, hb⟩

variable [Scalar R]

/-- Over the graph of a diagram, whatever facts it has: the blocks of every record form a
circle without repetition; every circle has a block in common with a record, so that there
are records if and only if there are circles; and if there are none, propagation leaves no
fact that is not consumed. -/
theorem run_records_circles (c : Setting) (g : FlowGraph R)
    (hg : g.layout = (FlowGraph.ofDiagram c.diagram c.diagram.runOrder :
      FlowGraph R).layout) :
    (∀ r ∈ (run c c.diagram.runOrder g).loops, g.Circle r.members ∧ r.members.Nodup) ∧
      (∀ circle, g.Circle circle →
        ∃ r ∈ (run c c.diagram.runOrder g).loops, ∃ b ∈ circle, b ∈ r.members) ∧
      ((run c c.diagram.runOrder g).loops = [] ↔ ∀ circle, ¬ g.Circle circle) ∧
      ((∀ circle, ¬ g.Circle circle) →
        ∀ e ∈ (run c c.diagram.runOrder g).graph.edges, e.unconsumed = []) := by
  have hseeded := extends_seeded c g
  have hlaid : LaidOut c.diagram (seeded c g) := .of_layout (hseeded.layout.trans hg)
  have hvisits := visits_run hlaid
  have htracked := hvisits.tracked ⟨by simp, by simp⟩ hlaid.orderly (leads_starts hlaid)
  have hlayout := (hseeded.trans (visited_run hlaid).advances.graph).layout
  have hlaid' : LaidOut c.diagram (run c c.diagram.runOrder g).graph :=
    .of_layout (hlayout.trans hg)
  have hrecords : ∀ r ∈ (run c c.diagram.runOrder g).loops, g.Circle r.members ∧
      r.members.Nodup := by
    intro r hr
    obtain ⟨n, members, hloop, hmembers⟩ := htracked.loopAt r hr
    obtain ⟨hcircle, hnodup⟩ := hloop.circle hlaid'
    rw [hmembers]
    exact ⟨(FlowGraph.circle_of_layout hlayout).mp hcircle, hnodup⟩
  have hmeets : ∀ circle, g.Circle circle →
      ∃ r ∈ (run c c.diagram.runOrder g).loops, ∃ b ∈ circle, b ∈ r.members :=
    fun circle hcircle => htracked.exists_member hlaid' (resolving_run hlaid)
      (fun _ hn => (mem_done_run_iff hlaid).mpr hn)
      ((FlowGraph.circle_of_layout hlayout).mpr hcircle)
  refine ⟨hrecords, hmeets, ⟨fun hnil circle hcircle => ?_, fun hnone => ?_⟩,
    fun hnone e he => ?_⟩
  · obtain ⟨r, hr, _⟩ := hmeets circle hcircle
    rw [hnil] at hr
    cases hr
  · refine List.eq_nil_iff_forall_not_mem.mpr fun r hr => ?_
    exact hnone r.members (hrecords r hr).1
  · have hloops : ∀ n members, ¬ (seeded c g).LoopAt n members := by
      intro n members hloop
      exact hnone _ ((FlowGraph.circle_of_layout hseeded.layout).mp (hloop.circle hlaid).1)
    have hdrained := hvisits.drained ⟨by simp, by simp⟩ hlaid.orderly
      (leads_starts hlaid) rfl hloops
    exact hdrained.consumed e he
      ((mem_done_run_iff hlaid).mpr (hlaid'.wired.entering.tip_lt e he))

/-- A constant that is doubled. -/
def doubling : Diagram where
  name := "doubling"
  blocks :=
    [⟨1, "C", "Constant", 0, 1, [("Value", "3")]⟩, ⟨2, "G", "Gain", 1, 1, [("Gain", "2")]⟩,
      ⟨3, "Y", "Outport", 1, 0, []⟩]
  signals := [⟨1, ⟨1, 0⟩, ⟨2, 0⟩⟩, ⟨2, ⟨2, 0⟩, ⟨3, 0⟩⟩]

theorem run_records_circles_tangle :
    (tangleGraph.layout =
      (FlowGraph.ofDiagram tangle tangle.runOrder : FlowGraph Float).layout ∧
      tangleGraph.Circle [1, 2, 3] ∧
      (∃ r ∈ (run ⟨tangle, .builtin, {}⟩ tangle.runOrder tangleGraph).loops,
        ∃ b ∈ [1, 2, 3], b ∈ r.members ∧ tangleGraph.Circle r.members)) ∧
    ((∀ circle,
      ¬ (FlowGraph.ofDiagram doubling doubling.runOrder : FlowGraph Float).Circle circle) ∧
      ∀ e ∈ (run ⟨doubling, .builtin, {}⟩ doubling.runOrder
        (FlowGraph.ofDiagram doubling doubling.runOrder : FlowGraph Float)).graph.edges,
          e.unconsumed = []) := by
  have hcircle : tangleGraph.Circle [1, 2, 3] := by
    have hjoins : ∀ a b, (a, b) ∈ [(1, 2), (2, 3), (3, 1)] →
        (FlowGraph.ofDiagram tangle tangle.runOrder : FlowGraph Float).Joins a b := by
      have hedges : [(1, 2), (2, 3), (3, 1)].all (fun (a, b) =>
          decide ((FlowGraph.ofDiagram tangle tangle.runOrder : FlowGraph Float).Joins a
            b)) = true := by cbv
      intro a b hab
      simpa using List.all_eq_true.mp hedges _ hab
    refine (FlowGraph.circle_of_layout layout_tangleGraph).mpr
      ⟨?_, 1, 3, rfl, rfl, hjoins 3 1 (by simp)⟩
    simp [List.isChain_cons_cons, hjoins 1 2, hjoins 2 3]
  obtain ⟨hrecords, hmeets, _, _⟩ :=
    run_records_circles ⟨tangle, .builtin, {}⟩ tangleGraph layout_tangleGraph
  obtain ⟨r, hr, b, hb, hmem⟩ := hmeets _ hcircle
  refine ⟨⟨layout_tangleGraph, hcircle, r, hr, b, hb, hmem, (hrecords r hr).1⟩, ?_⟩
  obtain ⟨_, _, hnone, hconsumed⟩ := run_records_circles ⟨doubling, .builtin, {}⟩
    (FlowGraph.ofDiagram doubling doubling.runOrder : FlowGraph Float) rfl
  have hloops : (run ⟨doubling, .builtin, {}⟩ doubling.runOrder
      (FlowGraph.ofDiagram doubling doubling.runOrder : FlowGraph Float)).loops = [] :=
    List.isEmpty_iff.mp (by decide +kernel)
  exact ⟨hnone.mp hloops, hconsumed (hnone.mp hloops)⟩

end Propagation
end SignalFlow
