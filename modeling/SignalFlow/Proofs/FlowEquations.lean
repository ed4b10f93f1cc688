import SignalFlow.Proofs.CrossedFacts
import SignalFlow.Proofs.Depiction
import SignalFlow.Proofs.LoopCoverage

/-!
# The flow equations

Without loops a node is crossed once, when nothing will be written any more to the edges
into it.  So after propagation over a graph without facts, the facts of every edge and
every node are given by an equation: they are what the block of the node makes of what
arrives there.

The equations refer to the final graph only, not to the order in which nodes were
processed.

**Results.**
* `seeded_eq`: the facts that blocks establish by themselves.
* `balanced_process`: processing a node that is due establishes its equations, and keeps
  the others.
* `solves_run`: after propagation all equations hold.
-/

namespace SignalFlow

variable {R : Type} [Scalar R]

/-- The facts that a block establishes by itself, on an edge with the variable `x`. -/
def generated (rule : TransferRule R) (b : Block) (x : String) : List (Fact R) :=
  (rule.generate b).foldl (fun facts p => insertLast facts (p.retarget (.var x))) []

namespace Arrival

/-- The facts behind a block, on an edge with the variable `x`. -/
def output (rule : TransferRule R) (b : Block) (as : List (Arrival R)) (x : String) :
    List (Fact R) :=
  completed x ((effects rule b as).foldl (received x) (generated rule b x))

/-- The facts that stay at a block. -/
def residue (rule : TransferRule R) (b : Block) (as : List (Arrival R)) : List (Fact R) :=
  (effects rule b as).foldl attached []

end Arrival

section Seeding

/-- Write a fact to an edge, as a statement about its variable. -/
def Edge.write (e : Edge R) (p : Fact R) : Edge R :=
  e.addFact (p.retarget e.term)

/-- An edge with the facts that the block where it begins establishes by itself. -/
def Edge.seed (c : Setting) (g : FlowGraph R) (e : Edge R) : Edge R :=
  match c.block? g e.source.node with
  | none => e
  | some b => ((c.rule b : TransferRule R).generate b).foldl Edge.write e

theorem Edge.bare_foldl_write (e : Edge R) (ps : List (Fact R)) :
    (ps.foldl Edge.write e).bare = e.bare :=
  List.foldlRecOn (motive := fun e' : Edge R => e'.bare = e.bare) ps _ rfl
    fun e' he' _ _ => (e'.bare_addFact _).trans he'

theorem Edge.bare_seed (c : Setting) (g : FlowGraph R) (e : Edge R) :
    (e.seed c g).bare = e.bare := by
  unfold seed
  split
  · rfl
  · exact e.bare_foldl_write _

theorem Edge.facts_foldl_write (e : Edge R) (ps : List (Fact R)) :
    (ps.foldl Edge.write e).facts = ps.foldl
      (fun facts p => insertLast facts (p.retarget (.var e.var))) e.facts := by
  induction ps generalizing e with
  | nil => rfl
  | cons p ps ih =>
      have hvar : (e.write p).var = e.var := var_of_bare (e.bare_addFact _)
      rw [List.foldl_cons, ih, hvar, write, facts_addFact, List.foldl_cons]
      rfl

theorem Edge.Fresh.seed {e : Edge R} (h : e.Fresh) (c : Setting) (g : FlowGraph R) :
    (e.seed c g).Fresh := by
  unfold Edge.seed
  split
  · exact h
  · exact List.foldlRecOn (motive := Edge.Fresh) _ _ h fun _ he p _ => he.addFact _

namespace FlowGraph

variable {g : FlowGraph R}

theorem Indexed.foldl_writeOutgoing (h : g.Indexed) (n : NodeId) (ps : List (Fact R)) :
    ps.foldl (fun g p => g.writeOutgoing n p) g = g.updateLeaving n fun e =>
      ps.foldl Edge.write e := by
  induction ps generalizing g with
  | nil => simp [updateLeaving, mapEdges]
  | cons p ps ih =>
      have hlayout := (g.extends_writeOutgoing n p).layout
      rw [List.foldl_cons, ih (h.of_layout hlayout), h.writeOutgoing_eq]
      simp only [updateLeaving, mapEdges, List.map_map]
      congr 1
      refine List.map_congr_left fun e _ => ?_
      have hsource : (e.addFact (p.retarget e.term)).source = e.source :=
        Edge.source_of_bare (e.bare_addFact (p.retarget e.term))
      by_cases hn : e.source.node = n
      · simp [hn, hsource, Edge.write]
      · simp [hn]

theorem Indexed.seedNode_eq (h : g.Indexed) (c : Setting) (n : NodeId) :
    Propagation.seedNode c g n = g.updateLeaving n (Edge.seed c g) := by
  have hseed : ∀ e : Edge R, (if e.source.node = n then e.seed c g else e) =
      if e.source.node = n then (match c.block? g n with
        | none => e
        | some b =>
            ((c.rule b : TransferRule R).generate b).foldl Edge.write e) else e := by
    intro e
    split
    · next hn => rw [Edge.seed, hn]
    · rfl
  simp only [updateLeaving, hseed]
  unfold Propagation.seedNode
  cases c.block? g n with
  | none => simp [mapEdges]
  | some b => exact h.foldl_writeOutgoing n _

/-- Every edge is given the facts of the block where it begins, when it is the turn of that
block. -/
theorem Indexed.foldl_seedNode (h : g.Indexed) (c : Setting) {ns : List NodeId}
    (hns : ns.Nodup) :
    ns.foldl (Propagation.seedNode c) g = g.mapEdges fun e =>
      if e.source.node ∈ ns then e.seed c g else e := by
  induction ns generalizing g with
  | nil => simp [mapEdges]
  | cons n ns ih =>
      rw [List.nodup_cons] at hns
      have hlayout := (g.extends_seedNode c n).layout
      rw [List.foldl_cons, ih (h.of_layout hlayout) hns.2, h.seedNode_eq]
      simp only [updateLeaving, mapEdges, List.map_map]
      congr 1
      refine List.map_congr_left fun e _ => ?_
      have hsource : (e.seed c g).source = e.source :=
        Edge.source_of_bare (e.bare_seed c g)
      by_cases hn : e.source.node = n
      · simp [hn, hsource, hns.1]
      · simp only [Function.comp_apply, hn, if_false, List.mem_cons, false_or]
        rfl

end FlowGraph

/-- Every edge has the facts that the block where it begins establishes by itself. -/
theorem Propagation.seeded_eq {g : FlowGraph R} (h : g.Indexed) (c : Setting) :
    seeded c g = g.mapEdges (Edge.seed c g) := by
  have hnodup : (g.nodes.map Node.id).Nodup := h.wired.map_id ▸ List.nodup_range
  rw [seeded, h.foldl_seedNode c hnodup, h.wired.map_id]
  simp only [FlowGraph.mapEdges]
  congr 1
  refine List.map_congr_left fun e he => if_pos ?_
  exact List.mem_range.mpr (h.wired.leaving.tip_lt e he)

end Seeding

section Reading

variable {g g' : FlowGraph R} {n : NodeId}

omit [Scalar R]

theorem FlowGraph.arrivals_eq (g : FlowGraph R) (n : NodeId) :
    g.arrivals n = ((g.incoming n).map Edge.arrival).mergeSort fun a b => a.pin ≤ b.pin :=
  List.map_mergeSort fun _ _ _ _ => rfl

theorem FlowGraph.map_arrival_incoming (g : FlowGraph R) (n : NodeId) :
    (g.incoming n).map Edge.arrival =
      ((g.nodes[n]?.map Node.incoming).getD []).filterMap fun k =>
        g.edges[k]?.map Edge.arrival := by
  unfold incoming
  cases g.nodes[n]? with
  | none => rfl
  | some node => simp [List.map_filterMap]

/-- What arrives at a node is read from the edges into it. -/
theorem FlowGraph.arrivals_congr (h : g'.layout = g.layout)
    (hfacts : ∀ (k : Nat) (e e' : Edge R), g.edges[k]? = some e → g'.edges[k]? = some e' →
      e.target.node = n →
      e'.facts = e.facts) (hg : g.Wired) : g'.arrivals n = g.arrivals n := by
  have hnodes : g'.nodes.map Node.bare = g.nodes.map Node.bare :=
    congrArg FlowGraph.nodes h
  have hlisted : ∀ g : FlowGraph R,
      (g.nodes.map Node.bare)[n]?.map Node.incoming = g.nodes[n]?.map Node.incoming := by
    intro g
    simp [Function.comp_def, Node.bare]
  have hincoming := hlisted g'
  rw [hnodes, hlisted g] at hincoming
  rw [arrivals_eq, arrivals_eq, map_arrival_incoming, map_arrival_incoming, ← hincoming]
  congr 1
  refine List.filterMap_congr fun k hk => ?_
  cases hnode : g.nodes[n]? with
  | none => simp [hnode] at hk
  | some node =>
      rw [hnode, Option.map_some, Option.getD_some] at hk
      obtain ⟨e, he, htarget⟩ := (hg.entering.mem_listed n node hnode k).mp hk
      obtain ⟨e', he', hbare⟩ := exists_edge_of_layout h.symm he
      rw [he, he', Option.map_some, Option.map_some, Edge.arrival, Edge.arrival,
        hfacts k e e' he he' htarget, Edge.target_of_bare hbare, Edge.var_of_bare hbare]

/-- Different edges end at different pins. -/
def FlowGraph.OneEdgePerPin (g : FlowGraph R) : Prop :=
  ∀ (i j : Nat) (e e' : Edge R), g.edges[i]? = some e → g.edges[j]? = some e' →
    e.target = e'.target → i = j

theorem FlowGraph.OneEdgePerPin.of_layout (h : g.OneEdgePerPin)
    (hlayout : g'.layout = g.layout) : g'.OneEdgePerPin := by
  intro i j e e' he he' htarget
  obtain ⟨e₀, he₀, hbare⟩ := exists_edge_of_layout hlayout he
  obtain ⟨e₀', he₀', hbare'⟩ := exists_edge_of_layout hlayout he'
  refine h i j e₀ e₀' he₀ he₀' ?_
  rw [← Edge.target_of_bare hbare, htarget, Edge.target_of_bare hbare']

theorem FlowGraph.OneEdgePerPin.nodup_pins (h : g.OneEdgePerPin) (hg : g.Indexed)
    (n : NodeId) : ((g.arrivals n).map Arrival.pin).Nodup := by
  have hperm : (g.incomingByPin n).Perm (g.incoming n) := List.mergeSort_perm _ _
  have hpins : (g.arrivals n).map Arrival.pin = (g.incomingByPin n).map fun e =>
      e.target.pin := by
    simp [arrivals, Function.comp_def, Edge.arrival]
  rw [hpins, (hperm.map _).nodup_iff]
  refine List.Nodup.map_on (fun e he e' he' hpin => ?_) (hg.nodup_id_incoming n).of_map
  obtain ⟨hmem, hnode⟩ := hg.wired.mem_incoming.mp he
  obtain ⟨hmem', hnode'⟩ := hg.wired.mem_incoming.mp he'
  have htarget : e.target = e'.target := by
    rw [Socket.mk.injEq]
    exact ⟨hnode.trans hnode'.symm, hpin⟩
  have hid := h _ _ e e' (hg.wired.getElem?_id hmem) (hg.wired.getElem?_id hmem') htarget
  have heq := hg.wired.getElem?_id hmem
  rw [hid, hg.wired.getElem?_id hmem'] at heq
  exact (Option.some.inj heq).symm

end Reading

section Crossing

variable {g : FlowGraph R} {rule : TransferRule R} {b : Block} {n m : NodeId}

/-- Crossing a node does not change what arrives where it does not feed. -/
theorem FlowGraph.arrivals_cross (h : g.Wired) (hnm : ¬ g.Feeds n m) :
    (g.cross rule b n).arrivals m = g.arrivals m := by
  refine arrivals_congr (g.extends_cross rule b n).layout
    (fun k e e' he he' htarget => ?_) h
  exact facts_cross_of_source_ne h he he' fun hsource =>
    hnm ⟨e, List.mem_of_getElem? he, hsource, htarget⟩

end Crossing

namespace Propagation

variable {c : Setting} {st : Propagation R} {g : FlowGraph R} {n : NodeId}

/-- The facts of a graph while nodes are processed, each behind all that feed it.  Until a
node is processed, the edges out of it have what its block establishes by itself; from then
on they have what the block makes of what arrives. -/
structure Balanced (c : Setting) (g : FlowGraph R) (done : List NodeId) : Prop where
  indexed : g.Indexed
  pins : g.OneEdgePerPin
  behind : ∀ m n, g.Feeds m n → n ∈ done → m ∈ done
  fresh : ∀ e ∈ g.edges, e.target.node ∉ done → e.Fresh
  edges : ∀ e ∈ g.edges, ∀ b, c.block? g e.source.node = some b → e.facts =
    if e.source.node ∈ done then Arrival.output (c.rule b) b
    (g.arrivals e.source.node) e.var
    else generated (c.rule b) b e.var
  nodes : ∀ (n : Nat) (node : Node R), g.nodes[n]? = some node →
    ∀ b, c.block? g n = some b → node.facts =
    if n ∈ done then Arrival.residue (c.rule b) b (g.arrivals n) else []

theorem Balanced.ready (h : Balanced c st.graph st.done) (hn : Due c st n) :
    st.graph.Ready n where
  not_self := hn.not_self
  fresh e he htarget := h.fresh e he (htarget ▸ hn.not_done)
  pins := h.pins.nodup_pins h.indexed n

section Step

variable {b : Block} {m : NodeId}

/-- The same arrives at processed nodes as before. -/
theorem Balanced.arrivals_cross (h : Balanced c st.graph st.done) (hn : Due c st n)
    (hm : m ∈ st.done ++ [n]) :
    (st.graph.cross (c.rule b) b n).arrivals m = st.graph.arrivals m :=
  FlowGraph.arrivals_cross h.indexed.wired fun hnm =>
    hn.not_done (hn.mem_done_of_feeds h.behind hnm hm)

theorem Balanced.fresh_cross (h : Balanced c st.graph st.done) (hn : Due c st n)
    {e' : Edge R} (he' : e' ∈ (st.graph.cross (c.rule b) b n).edges)
    (htarget : e'.target.node ∉ st.done ++ [n]) : e'.Fresh := by
  obtain ⟨e, he, hbare, hsettled, hkept⟩ := (h.ready hn).exists_edge h.indexed he'
  rw [List.mem_append, List.mem_singleton, not_or, Edge.target_of_bare hbare] at htarget
  have hfresh := h.fresh e he htarget.1
  by_cases hsource : e.source.node = n
  · rw [hsettled hsource]
    exact hfresh.settle _
  · rw [(hkept hsource).2 htarget.2]
    exact hfresh

/-- The equation of an edge out of the node is established, and those of the other edges
are kept. -/
theorem Balanced.edges_cross (h : Balanced c st.graph st.done) (hn : Due c st n)
    (hb : c.block? st.graph n = some b) {e' : Edge R}
    (he' : e' ∈ (st.graph.cross (c.rule b) b n).edges) {b' : Block}
    (hb' : c.block? st.graph e'.source.node = some b') : e'.facts =
      if e'.source.node ∈ st.done ++ [n] then
        Arrival.output (c.rule b') b'
          ((st.graph.cross (c.rule b) b n).arrivals e'.source.node) e'.var
      else generated (c.rule b') b' e'.var := by
  obtain ⟨e, he, hbare, hsettled, hkept⟩ := (h.ready hn).exists_edge h.indexed he'
  rw [Edge.source_of_bare hbare] at hb' ⊢
  rw [Edge.var_of_bare hbare]
  have hfacts := h.edges e he b' hb'
  by_cases hsource : e.source.node = n
  -- The edge had what the block establishes by itself, and now receives the effects of
  -- what arrives.
  · have hmem : e.source.node ∈ st.done ++ [n] := by simp [hsource]
    obtain rfl : b = b' := by simpa [hsource, hb] using hb'
    rw [if_neg (hsource ▸ hn.not_done)] at hfacts
    rw [if_pos hmem, h.arrivals_cross hn hmem, hsettled hsource, Edge.facts_settle,
      hfacts, hsource]
    rfl
  · have hmem : e.source.node ∈ st.done ++ [n] ↔ e.source.node ∈ st.done := by
      simp [hsource]
    rw [(hkept hsource).1, hfacts]
    simp only [hmem]
    split
    · next hdone => rw [h.arrivals_cross hn (List.mem_append_left _ hdone)]
    · rfl

/-- The equation of the node is established, and those of the other nodes are kept. -/
theorem Balanced.nodes_cross (h : Balanced c st.graph st.done) (hn : Due c st n)
    (hb : c.block? st.graph n = some b) {node' : Node R}
    (hnode' : (st.graph.cross (c.rule b) b n).nodes[m]? = some node') {b' : Block}
    (hb' : c.block? st.graph m = some b') : node'.facts =
      if m ∈ st.done ++ [n] then Arrival.residue (c.rule b') b'
        ((st.graph.cross (c.rule b) b n).arrivals m)
      else [] := by
  rw [((h.ready hn).cross h.indexed (c.rule b) b).2, List.getElem?_modify] at hnode'
  obtain ⟨node, hnode, rfl⟩ := Option.map_eq_some_iff.mp hnode'
  have hfacts := h.nodes m node hnode b' hb'
  by_cases hmn : n = m
  · subst hmn
    have hmem : n ∈ st.done ++ [n] := by simp
    obtain rfl : b = b' := by simpa [hb] using hb'
    rw [if_neg hn.not_done] at hfacts
    rw [if_pos rfl, if_pos hmem, h.arrivals_cross hn hmem,
      Node.facts_foldl_receive, hfacts]
    rfl
  · have hmem : m ∈ st.done ++ [n] ↔ m ∈ st.done := by simp [Ne.symm hmn]
    rw [if_neg hmn, hfacts]
    simp only [hmem]
    split
    · next hdone => rw [h.arrivals_cross hn (List.mem_append_left _ hdone)]
    · rfl

end Step

/-- Processing a node that is due establishes its equations, and keeps the others. -/
theorem balanced_process (h : Balanced c st.graph st.done) (hn : Due c st n) :
    Balanced c (st.process c n).graph (st.process c n).done := by
  obtain ⟨b, hb, hgraph, hdone⟩ := hn.process
  rw [hgraph, hdone]
  have hextends := st.graph.extends_cross (c.rule b) b n
  have hblock := hextends.block? c
  exact {
    indexed := h.indexed.of_layout hextends.layout
    pins := h.pins.of_layout hextends.layout
    behind := fun m k hmk hk =>
      List.mem_append_left _ (hn.mem_done_of_feeds h.behind (hextends.feeds ▸ hmk) hk)
    fresh := fun _ he htarget => h.fresh_cross hn he htarget
    edges := fun _ he _ hb' => h.edges_cross hn hb he (hblock _ ▸ hb')
    nodes := fun _ _ hnode _ hb' => h.nodes_cross hn hb hnode (hblock _ ▸ hb') }

/-- Before any node is processed, edges have what the blocks where they begin establish by
themselves. -/
theorem balanced_seeded (c : Setting) (hg : g.Indexed) (hblank : g.Blank)
    (hpins : g.OneEdgePerPin) : Balanced c (seeded c g) [] := by
  have hlayout : (seeded c g).layout = g.layout := (extends_seeded c g).layout
  have hseeded := seeded_eq hg c
  have hedge : ∀ e' ∈ (seeded c g).edges, ∃ e ∈ g.edges, e' = e.seed c g := by
    intro e' he'
    rw [hseeded] at he'
    obtain ⟨e, he, rfl⟩ := List.mem_map.mp he'
    exact ⟨e, he, rfl⟩
  refine ⟨hg.of_layout hlayout, hpins.of_layout hlayout, by simp, fun e' he' _ =>
    ?_, fun e' he' b hb => ?_,
    fun n node hnode b hb => ?_⟩
  · obtain ⟨e, he, rfl⟩ := hedge e' he'
    have hfresh : e.Fresh := by simp [Edge.Fresh, hblank.edges e he]
    exact hfresh.seed c g
  · obtain ⟨e, he, rfl⟩ := hedge e' he'
    have hbare := e.bare_seed c g
    have hnone : e.facts = [] := (hblank.edges e he).1
    rw [hseeded, Edge.source_of_bare hbare] at hb
    have hb' : c.block? g e.source.node = some b := hb
    rw [if_neg List.not_mem_nil, Edge.var_of_bare hbare, Edge.seed, hb']
    exact (e.facts_foldl_write _).trans (by rw [hnone]; rfl)
  · rw [hseeded] at hnode
    rw [if_neg List.not_mem_nil]
    exact hblank.nodes node (List.mem_of_getElem? hnode)

/-- The facts of every edge and every node are what the block of the node makes of what
arrives there. -/
structure Solves (c : Setting) (g : FlowGraph R) : Prop where
  edges : ∀ e ∈ g.edges, ∀ b, c.block? g e.source.node = some b →
    e.facts = Arrival.output (c.rule b) b (g.arrivals e.source.node) e.var
  nodes : ∀ (n : Nat) (node : Node R), g.nodes[n]? = some node →
    ∀ b, c.block? g n = some b →
    node.facts = Arrival.residue (c.rule b) b (g.arrivals n)

/-- Propagation over a graph without facts and without loops solves the flow equations. -/
theorem solves_run (c : Setting) (hg : g.Indexed) (hblank : g.Blank)
    (hpins : g.OneEdgePerPin)
    (hlayout : g.layout = (FlowGraph.ofDiagram c.diagram c.diagram.runOrder :
      FlowGraph R).layout)
    (hloops : ∀ n members, ¬ g.LoopAt n members) :
    Solves c (run c c.diagram.runOrder g).graph := by
  have hseeded := extends_seeded c g
  have hlaid : LaidOut c.diagram (seeded c g) := .of_layout (hseeded.layout.trans hlayout)
  have hbalanced := (visits_run hlaid).invariant (P := Balanced c)
    (fun st n => balanced_process)
    (balanced_seeded c hg hblank hpins) hlaid.orderly (leads_starts hlaid) rfl
    fun n members hloop => hloops n members (loopAt_of_layout hseeded.layout.symm hloop)
  have hdone : ∀ n < (run c c.diagram.runOrder g).graph.nodes.length,
      n ∈ (run c c.diagram.runOrder g).done :=
    fun _ hn => (mem_done_run_iff hlaid).mpr hn
  refine ⟨fun e he b hb => ?_, fun n node hnode b hb => ?_⟩
  · rw [hbalanced.edges e he b hb,
      if_pos (hdone _ (hbalanced.indexed.wired.leaving.tip_lt e he))]
  · rw [hbalanced.nodes n node hnode b hb,
      if_pos (hdone n (List.getElem?_eq_some_iff.mp hnode).1)]

end Propagation

end SignalFlow
