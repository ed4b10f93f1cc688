import SignalFlow.Propagation.Visit
import SignalFlow.Proofs.Wiring

/-!
# Growth of the facts

Propagation leaves the layout of a graph alone and takes no fact away: a graph *extends*
another if both are equal up to their facts and every edge starts with the facts it had.
Every operation on the way extends the graph, so what an edge has once it keeps.

**Results.**
* `wired_layout`, `registered_layout`, `feeds_layout`: wiring is a matter of the layout.
* `extends_cross`, `extends_consumeInside`, `extends_seedNode`: propagation extends the
  graph.
* `hasCategory_fillDefaults`: defaults leave every edge out of a node with a fact of each
  category.
-/

namespace SignalFlow

variable {R : Type}

/-- A node without its facts. -/
def Node.bare (n : Node R) : Node R :=
  { n with facts := [] }

/-- An edge without its facts. -/
def Edge.bare (e : Edge R) : Edge R :=
  { e with facts := [], consumed := [] }

theorem Edge.source_of_bare {e e' : Edge R} (h : e'.bare = e.bare) :
    e'.source = e.source := by
  have hsource : e'.bare.source = e.bare.source := congrArg Edge.source h
  exact hsource

theorem Edge.target_of_bare {e e' : Edge R} (h : e'.bare = e.bare) :
    e'.target = e.target := by
  have htarget : e'.bare.target = e.bare.target := congrArg Edge.target h
  exact htarget

theorem Edge.var_of_bare {e e' : Edge R} (h : e'.bare = e.bare) : e'.var = e.var := by
  have hvar : e'.bare.var = e.bare.var := congrArg Edge.var h
  exact hvar

/-- The graph without facts and formulas. -/
def FlowGraph.layout (g : FlowGraph R) : FlowGraph R :=
  { g with
    nodes := g.nodes.map Node.bare
    edges := g.edges.map Edge.bare
    obligations := []
    equalities := [] }

theorem Edge.hasCategory_of_prefix {e e' : Edge R} (h : e.facts <+: e'.facts)
    {c : Category} (hc : e.hasCategory c = true) : e'.hasCategory c = true := by
  simp only [Edge.hasCategory, List.any_eq_true] at hc ⊢
  obtain ⟨p, hp, hcat⟩ := hc
  exact ⟨p, h.subset hp, hcat⟩

namespace FlowGraph

variable {g g' g'' : FlowGraph R}

section Layout

theorem lists_map_iff {listed : Node R → List Nat} {tip : Edge R → Nat}
    {f : Node R → Node R} {h : Edge R → Edge R}
    (hf : ∀ node, listed (f node) = listed node) (hh : ∀ e, tip (h e) = tip e)
    {nodes : List (Node R)} {edges : List (Edge R)} :
    Lists listed tip (nodes.map f) (edges.map h) ↔ Lists listed tip nodes edges := by
  constructor
  · intro hlists
    refine ⟨fun n node hn i => ?_, fun e he => ?_⟩
    · have hmem := hlists.mem_listed n (f node) (by simp [hn]) i
      simpa [hf, hh] using hmem
    · simpa [hh] using hlists.tip_lt (h e) (List.mem_map_of_mem he)
  · intro hlists
    refine ⟨fun n node hn i => ?_, fun e he => ?_⟩
    · obtain ⟨node', hnode', rfl⟩ : ∃ node', nodes[n]? = some node' ∧ f node' = node := by
        simpa using hn
      simpa [hf, hh] using hlists.mem_listed n node' hnode' i
    · obtain ⟨e', he', rfl⟩ := List.mem_map.mp he
      simpa [hh] using hlists.tip_lt e' he'

theorem wired_layout : g.layout.Wired ↔ g.Wired := by
  have hleaving : Lists _ _ g.layout.nodes g.layout.edges ↔
      Lists Node.outgoing (fun e => e.source.node) _ _ :=
    lists_map_iff (f := Node.bare) (h := Edge.bare) (fun _ => rfl) (fun _ => rfl)
  have hentering : Lists _ _ g.layout.nodes g.layout.edges ↔
      Lists Node.incoming (fun e => e.target.node) _ _ :=
    lists_map_iff (f := Node.bare) (h := Edge.bare) (fun _ => rfl) (fun _ => rfl)
  constructor
  · intro h
    refine ⟨fun i node hi => ?_, fun i e hi => ?_, hleaving.mp h.leaving,
      hentering.mp h.entering⟩
    · exact h.node_id i node.bare (by simp [layout, hi])
    · exact h.edge_id i e.bare (by simp [layout, hi])
  · intro h
    refine ⟨fun i node hi => ?_, fun i e hi => ?_, hleaving.mpr h.leaving,
      hentering.mpr h.entering⟩
    · obtain ⟨node', hnode', rfl⟩ : ∃ node', g.nodes[i]? = some node' ∧
          node'.bare = node := by
        simpa [layout] using hi
      exact h.node_id i node' hnode'
    · obtain ⟨e', he', rfl⟩ : ∃ e', g.edges[i]? = some e' ∧ e'.bare = e := by
        simpa [layout] using hi
      exact h.edge_id i e' he'

@[simp]
theorem feeds_layout : g.layout.Feeds = g.Feeds := by
  funext m n
  simp [Feeds, layout, Edge.bare]

@[simp]
theorem length_nodes_layout : g.layout.nodes.length = g.nodes.length := by
  simp [layout]

@[simp]
theorem map_block_layout : g.layout.nodes.map Node.block = g.nodes.map Node.block := by
  simp [layout, Function.comp_def, Node.bare]

theorem blockOf?_layout (n : NodeId) : g.layout.blockOf? n = g.blockOf? n := by
  simp [blockOf?, layout, Function.comp_def, Node.bare]

theorem registered_layout : g.layout.Registered ↔ g.Registered := by
  have hsignals : g.layout.edges.map Edge.signal = g.edges.map Edge.signal := by
    simp [layout, Function.comp_def, Edge.bare]
  exact ⟨fun h => h.of_keys rfl rfl rfl map_block_layout.symm hsignals.symm,
    fun h => h.of_keys rfl rfl rfl map_block_layout hsignals⟩

end Layout

/-- The graphs have the same layout, and every edge of the first starts with the facts it
had. -/
structure Extends (g g' : FlowGraph R) : Prop where
  layout : g'.layout = g.layout
  facts : ∀ (i : Nat) (e e' : Edge R), g.edges[i]? = some e → g'.edges[i]? = some e' →
    e.facts <+: e'.facts

theorem Extends.refl (g : FlowGraph R) : g.Extends g := by
  refine ⟨rfl, fun i e e' he he' => ?_⟩
  obtain rfl : e = e' := by simpa [he] using he'
  exact List.prefix_refl _

/-- Edges of graphs with the same layout correspond to each other. -/
theorem exists_edge_of_layout (h : g'.layout = g.layout) {i : Nat} {e' : Edge R}
    (he' : g'.edges[i]? = some e') : ∃ e, g.edges[i]? = some e ∧ e'.bare = e.bare := by
  have hedges : g'.edges.map Edge.bare = g.edges.map Edge.bare :=
    congrArg FlowGraph.edges h
  have hi := congrArg (fun es => es[i]?) hedges
  simp only [List.getElem?_map, he', Option.map_some] at hi
  obtain ⟨e, he, hbare⟩ := Option.map_eq_some_iff.mp hi.symm
  exact ⟨e, he, hbare.symm⟩

/-- The edge that there was, with its facts. -/
theorem Extends.exists_edge (h : g.Extends g') {i : Nat} {e' : Edge R}
    (he' : g'.edges[i]? = some e') :
    ∃ e, g.edges[i]? = some e ∧ e'.bare = e.bare ∧ e.facts <+: e'.facts := by
  obtain ⟨e, he, hbare⟩ := exists_edge_of_layout h.layout he'
  exact ⟨e, he, hbare, h.facts i e e' he he'⟩

/-- The edge that there is now, with more facts. -/
theorem Extends.exists_grown (h : g.Extends g') {i : Nat} {e : Edge R}
    (he : g.edges[i]? = some e) :
    ∃ e', g'.edges[i]? = some e' ∧ e'.bare = e.bare ∧ e.facts <+: e'.facts := by
  obtain ⟨e', he', hbare⟩ := exists_edge_of_layout h.layout.symm he
  exact ⟨e', he', hbare.symm, h.facts i e e' he he'⟩

theorem Extends.trans (h : g.Extends g') (h' : g'.Extends g'') : g.Extends g'' := by
  refine ⟨h'.layout.trans h.layout, fun i e e'' he he'' => ?_⟩
  obtain ⟨e', he', _, hfacts⟩ := h'.exists_edge he''
  exact (h.facts i e e' he he').trans hfacts

theorem Extends.foldl {α : Type} {step : FlowGraph R → α → FlowGraph R}
    (h : ∀ (g : FlowGraph R) a, g.Extends (step g a)) (xs : List α) (g : FlowGraph R) :
    g.Extends (xs.foldl step g) :=
  List.foldlRecOn xs step (Extends.refl g) fun g' hg' x _ => hg'.trans (h g' x)

theorem extends_modifyNode {f : Node R → Node R} (hf : ∀ node, (f node).bare = node.bare)
    (g : FlowGraph R) (n : NodeId) : g.Extends (g.modifyNode n f) := by
  refine ⟨?_, (Extends.refl g).facts⟩
  simp only [layout, modifyNode, map_modify_of_eq hf]

theorem extends_modifyEdge {f : Edge R → Edge R} (hbare : ∀ e, (f e).bare = e.bare)
    (hfacts : ∀ e : Edge R, e.facts <+: (f e).facts) (g : FlowGraph R) (i : EdgeId) :
    g.Extends (g.modifyEdge i f) := by
  refine ⟨?_, fun j e e' he he' => ?_⟩
  · simp only [layout, modifyEdge, map_modify_of_eq hbare]
  · simp only [modifyEdge, List.getElem?_modify, he, Option.map_eq_map, Option.map_some,
      Option.some.injEq] at he'
    subst he'
    split
    · exact hfacts e
    · exact List.prefix_refl _

theorem extends_consume (g : FlowGraph R) (e : EdgeId) (i : Nat) :
    g.Extends (g.modifyEdge e fun edge => edge.consume i) :=
  extends_modifyEdge (f := fun edge => edge.consume i) (fun _ => rfl)
    (fun _ => List.prefix_refl _) g e

theorem extends_consumeInside (g : FlowGraph R) (members : List NodeId) :
    g.Extends (Propagation.consumeInside g members) := by
  refine Extends.foldl (fun g n => ?_) members g
  refine Extends.foldl (fun g e => ?_) _ g
  exact extends_modifyEdge (f := Edge.consumeAll) (fun _ => rfl)
    (fun _ => List.prefix_refl _) g e.id

end FlowGraph

variable [Scalar R]

theorem Edge.bare_addFact (e : Edge R) (p : Fact R) : (e.addFact p).bare = e.bare := by
  unfold Edge.addFact
  split <;> rfl

theorem Edge.facts_addFact (e : Edge R) (p : Fact R) :
    (e.addFact p).facts = insertLast e.facts p := by
  unfold Edge.addFact insertLast Edge.carries
  split <;> rfl

theorem Edge.prefix_addFact (e : Edge R) (p : Fact R) :
    e.facts <+: (e.addFact p).facts := by
  rw [Edge.facts_addFact]
  unfold insertLast
  split
  · exact List.prefix_refl _
  · exact List.prefix_append _ _

theorem Edge.bare_addFacts (e : Edge R) (ps : List (Fact R)) :
    (e.addFacts ps).bare = e.bare :=
  List.foldlRecOn (motive := fun e' : Edge R => e'.bare = e.bare) ps _ rfl
    fun e' he' p _ => (e'.bare_addFact p).trans he'

theorem Edge.prefix_addFacts (e : Edge R) (ps : List (Fact R)) :
    e.facts <+: (e.addFacts ps).facts :=
  List.foldlRecOn (motive := fun e' : Edge R => e.facts <+: e'.facts) ps _
    (List.prefix_refl _)
    fun e' he' p _ => he'.trans (e'.prefix_addFact p)

theorem Fact.category_eq_of_beq {p q : Fact R} (h : (p == q) = true) :
    p.category = q.category := by
  cases p <;> cases q <;> first | rfl | cases h

omit [Scalar R] in
theorem Fact.category_noInformation (name : String) (c : Category) :
    (Fact.noInformation name c : Fact R).category = c := by
  cases c <;> rfl

/-- A fact is added, or an equal one is there. -/
theorem Edge.hasCategory_addFact (e : Edge R) (p : Fact R) :
    (e.addFact p).hasCategory p.category = true := by
  unfold Edge.addFact Edge.hasCategory
  rw [List.any_eq_true]
  split
  · next h =>
      obtain ⟨q, hq, hpq⟩ := List.contains_iff_exists_mem_beq.mp h
      exact ⟨q, hq, by simp [Fact.category_eq_of_beq hpq]⟩
  · exact ⟨p, by simp, by simp⟩

theorem Edge.hasCategory_addFacts {e : Edge R} {ps : List (Fact R)} {p : Fact R}
    (hp : p ∈ ps) : (e.addFacts ps).hasCategory p.category = true := by
  obtain ⟨before, after, rfl⟩ := List.append_of_mem hp
  unfold Edge.addFacts
  rw [List.foldl_append, List.foldl_cons]
  exact Edge.hasCategory_of_prefix (Edge.prefix_addFacts _ after)
    (Edge.hasCategory_addFact _ p)

theorem Edge.hasCategory_defaults (e : Edge R) (c : Category) :
    (e.addFacts (FlowGraph.defaults e)).hasCategory c = true := by
  by_cases hc : e.hasCategory c = true
  · exact Edge.hasCategory_of_prefix (e.prefix_addFacts _) hc
  · have hmem : Fact.noInformation e.var c ∈ FlowGraph.defaults e := by
      refine List.mem_map_of_mem (List.mem_filter.mpr ⟨?_, by simpa using hc⟩)
      cases c <;> simp [Category.all]
    have hcat := Edge.hasCategory_addFacts (e := e) hmem
    rwa [Fact.category_noInformation] at hcat

namespace FlowGraph

variable {g : FlowGraph R}

theorem extends_addEdgeFact (g : FlowGraph R) (i : EdgeId) (p : Fact R) :
    g.Extends (g.addEdgeFact i p) :=
  extends_modifyEdge (fun e => e.bare_addFact p) (fun e => e.prefix_addFact p) g i

theorem extends_writeOutgoing (g : FlowGraph R) (n : NodeId) (p : Fact R) :
    g.Extends (g.writeOutgoing n p) := by
  unfold writeOutgoing
  exact Extends.foldl (fun g e => g.extends_addEdgeFact e.id _) (g.outgoing n) g

theorem extends_fillDefault (g : FlowGraph R) (e : Edge R) :
    g.Extends (g.modifyEdge e.id fun e => e.addFacts (defaults e)) :=
  extends_modifyEdge (fun e => e.bare_addFacts _) (fun e => e.prefix_addFacts _) g e.id

theorem extends_fillDefaults (g : FlowGraph R) (n : NodeId) :
    g.Extends (g.fillDefaults n) :=
  Extends.foldl extends_fillDefault (g.outgoing n) g

theorem extends_applyEffect (g : FlowGraph R) (n : NodeId) (effect : Effect R) :
    g.Extends (g.applyEffect n effect) := by
  cases effect with
  | propagate p =>
      simp only [applyEffect]
      split
      · exact Extends.refl g
      · exact g.extends_writeOutgoing n p
  | attach p =>
      exact extends_modifyNode (f := fun node => node.addFact p) (fun _ => rfl) g n
  | stop => exact Extends.refl g

theorem extends_advance (effect : Fact R → Effect R) (n : NodeId) (e : EdgeId)
    (x : Crossing R) (i : Nat) :
    x.graph.Extends (Crossing.advance effect n e x i).graph := by
  unfold Crossing.advance
  split
  · exact Extends.refl x.graph
  · simp only
    split
    · exact x.graph.extends_consume e i
    · exact (x.graph.extends_applyEffect n _).trans (extends_consume _ e i)

theorem extends_advanceEdge (effect : Nat → Fact R → Effect R) (n : NodeId)
    (x : Crossing R) (e : Edge R) :
    x.graph.Extends (Crossing.advanceEdge effect n x e).graph :=
  List.foldlRecOn (motive := fun y : Crossing R => x.graph.Extends y.graph) _ _
    (Extends.refl x.graph)
    fun y hy i _ => hy.trans (extends_advance _ n e.id y i)

theorem extends_foldl_advanceEdge (effect : Nat → Fact R → Effect R) (n : NodeId)
    (x : Crossing R) (es : List (Edge R)) :
    x.graph.Extends (es.foldl (Crossing.advanceEdge effect n) x).graph :=
  List.foldlRecOn (motive := fun y : Crossing R => x.graph.Extends y.graph) es _
    (Extends.refl x.graph)
    fun y hy e _ => hy.trans (extends_advanceEdge effect n y e)

/-- The graph before the defaults are filled in. -/
theorem exists_cross_eq (g : FlowGraph R) (rule : TransferRule R) (b : Block)
    (n : NodeId) : ∃ g', g.Extends g' ∧ g.cross rule b n = g'.fillDefaults n :=
  ⟨_, extends_foldl_advanceEdge _ n ⟨g, []⟩ (g.incomingByPin n), rfl⟩

theorem extends_cross (g : FlowGraph R) (rule : TransferRule R) (b : Block) (n : NodeId) :
    g.Extends (g.cross rule b n) := by
  obtain ⟨g', hg', heq⟩ := g.exists_cross_eq rule b n
  rw [heq]
  exact hg'.trans (g'.extends_fillDefaults n)

theorem extends_seedNode (c : Setting) (g : FlowGraph R) (n : NodeId) :
    g.Extends (Propagation.seedNode c g n) := by
  unfold Propagation.seedNode
  split
  · exact Extends.refl g
  · exact Extends.foldl (fun g p => g.extends_writeOutgoing n p) _ g

/-- Defaults leave every edge out of a node with a fact of each category. -/
theorem hasCategory_fillDefaults (hg : g.Wired) {n : NodeId} {e : Edge R}
    (he : e ∈ (g.fillDefaults n).edges) (hsource : e.source.node = n) (c : Category) :
    e.hasCategory c = true := by
  obtain ⟨i, hi⟩ := List.mem_iff_getElem?.mp he
  obtain ⟨e₀, he₀, hbare, _⟩ := (g.extends_fillDefaults n).exists_edge hi
  have hout : e₀ ∈ g.outgoing n :=
    hg.mem_outgoing.mpr ⟨List.mem_of_getElem? he₀, Edge.source_of_bare hbare ▸ hsource⟩
  obtain ⟨before, after, hsplit⟩ := List.append_of_mem hout
  have hid : e₀.id = i := hg.edge_id i e₀ he₀
  -- The edge is filled at its turn, and keeps its facts from then on.
  unfold fillDefaults at hi
  rw [hsplit, List.foldl_append, List.foldl_cons] at hi
  obtain ⟨e₁, he₁, _, hfacts⟩ := (Extends.foldl extends_fillDefault after _).exists_edge hi
  refine Edge.hasCategory_of_prefix hfacts ?_
  simp only [modifyEdge, List.getElem?_modify, hid, if_true] at he₁
  obtain ⟨e₂, _, rfl⟩ := Option.map_eq_some_iff.mp he₁
  exact e₂.hasCategory_defaults c

end FlowGraph
end SignalFlow
