import SignalFlow.Proofs.Consumption
import SignalFlow.Proofs.Indexing

/-!
# The facts behind a block

What the edges out of a node have once it has been crossed is a function of the block and
of what *arrives* at its inputs: the pins, the variables and the facts of the edges into
the node, in the order of the pins.  Facts that arrive are sifted, so that none has an
effect that has been seen before; each effect is received by the node or by the edges out
of it; and what is missing of the categories is made up for.

This holds for a node that does not feed itself, whose inputs are *fresh*: none of their
facts is consumed.

**Results.**
* `passes_advanceEdge`: advancing the facts of an edge.
* `Ready.cross`, `Ready.exists_edge`: crossing a node.
-/

namespace SignalFlow

variable {R : Type}

/-- What arrives at an input pin: the variable and the facts of an edge that ends there. -/
structure Arrival (R : Type) where
  pin : Nat
  var : String
  facts : List (Fact R)

/-- What an edge brings to the block where it ends. -/
def Edge.arrival (e : Edge R) : Arrival R :=
  ⟨e.target.pin, e.var, e.facts⟩

/-- None of the facts is consumed. -/
def Edge.Fresh (e : Edge R) : Prop :=
  e.consumed = List.replicate e.facts.length false

namespace Arrival

/-- What is known at an input pin. -/
def inlet (as : List (Arrival R)) (pin : Nat) : Inlet R :=
  let here := as.filter fun a => a.pin == pin
  ⟨here.getLast?.map Arrival.var, here.flatMap Arrival.facts⟩

/-- A block with what is known at its inputs. -/
def site (b : Block) (as : List (Arrival R)) : Site R :=
  ⟨b, (List.range (as.foldl (fun count a => max count (a.pin + 1)) b.inputs)).map
    (inlet as)⟩

/-- The facts that arrive, each with its pin. -/
def arrived (as : List (Arrival R)) : List (Nat × Fact R) :=
  as.flatMap fun a => a.facts.map fun p => (a.pin, p)

end Arrival

namespace FlowGraph

/-- What arrives at a node, in the order of its pins. -/
def arrivals (g : FlowGraph R) (n : NodeId) : List (Arrival R) :=
  (g.incomingByPin n).map Edge.arrival

theorem site_eq (g : FlowGraph R) (b : Block) (n : NodeId) :
    g.site b n = Arrival.site b ((g.incoming n).map Edge.arrival) := by
  have hinlet : ∀ pin, g.inlet n pin = Arrival.inlet
      ((g.incoming n).map Edge.arrival) pin := by
    intro pin
    simp [inlet, Arrival.inlet, List.filter_map, List.getLast?_map, List.flatMap_map,
      Function.comp_def, Edge.arrival]
  simp only [site, Arrival.site, inletCount, List.foldl_map, funext hinlet]
  rfl

end FlowGraph

section Order

/-- Lists of at most one element are equal if they are permutations of each other. -/
theorem eq_of_perm_of_length_le_one {α : Type} {xs ys : List α} (h : xs.Perm ys)
    (hlength : xs.length ≤ 1) : xs = ys := by
  match xs, hlength with
  | [], _ => exact (List.nil_perm.mp h).symm
  | [x], _ => exact List.singleton_perm.mp h

/-- What arrives at one of different pins does not depend on the order. -/
theorem Arrival.filter_pin_eq_of_perm {as as' : List (Arrival R)} (h : as.Perm as')
    (hpins : (as.map Arrival.pin).Nodup) (pin : Nat) :
    (as.filter fun a => a.pin == pin) = as'.filter fun a => a.pin == pin := by
  refine eq_of_perm_of_length_le_one (h.filter _) ?_
  have hcount := List.nodup_iff_count_le_one.mp hpins pin
  rwa [List.count_eq_countP, List.countP_map, List.countP_eq_length_filter] at hcount

/-- The order in which arrivals at different pins are listed is of no account. -/
theorem Arrival.site_eq_of_perm {as as' : List (Arrival R)} (h : as.Perm as')
    (hpins : (as.map Arrival.pin).Nodup) (b : Block) :
    Arrival.site b as = Arrival.site b as' := by
  have hinlet : ∀ pin, Arrival.inlet as pin = Arrival.inlet as' pin := by
    intro pin
    simp only [Arrival.inlet, Arrival.filter_pin_eq_of_perm h hpins]
  have hcount : RightCommutative fun (count : Nat) (a : Arrival R) =>
      max count (a.pin + 1) :=
    ⟨fun k a a' => by omega⟩
  simp only [Arrival.site, h.foldl_eq, funext hinlet]

end Order

theorem Edge.unconsumed_of_fresh {e : Edge R} (h : e.Fresh) :
    e.unconsumed = List.range e.facts.length := by
  unfold unconsumed
  rw [List.filter_eq_self]
  intro i hi
  rw [h, List.getElem?_replicate_of_lt (List.mem_range.mp hi)]
  rfl

theorem filterMap_range_getElem? {α β : Type} (f : α → β) (xs : List α) :
    ((List.range xs.length).filterMap fun i => xs[i]?.map f) = xs.map f := by
  induction xs with
  | nil => rfl
  | cons x xs ih => simp [List.range_succ_eq_map, List.filterMap_map, ih]

variable [Scalar R]

section Effects

/-- The effects of facts that arrive one after the other; a fact that has been seen before
has none. -/
def sift (effect : Nat → Fact R → Effect R) : List (Fact R) → List (Nat × Fact R) →
      List (Effect R)
  | _, [] => []
  | seen, (pin, p) :: rest =>
      if seen.contains p then sift effect seen rest
        else effect pin p :: sift effect (seen ++ [p]) rest

theorem sift_append (effect : Nat → Fact R → Effect R) (seen : List (Fact R))
    (ps qs : List (Nat × Fact R)) :
    sift effect seen (ps ++ qs) =
      sift effect seen ps ++ sift effect ((ps.map Prod.snd).foldl insertLast seen) qs := by
  induction ps generalizing seen with
  | nil => rfl
  | cons first ps ih =>
      obtain ⟨pin, p⟩ := first
      cases hseen : seen.contains p with
      | true =>
          simp only [List.cons_append, sift, hseen, if_true, List.map_cons,
            List.foldl_cons, insertLast_of_contains hseen]
          exact ih seen
      | false =>
          simp only [List.cons_append, sift, hseen, Bool.false_eq_true, if_false,
            List.map_cons, List.foldl_cons, insertLast_of_not_contains hseen]
          exact congrArg _ (ih (seen ++ [p]))

/-- What an edge out of a node makes of an effect. -/
def Edge.receive (e : Edge R) : Effect R → Edge R
  | .propagate p => if p.isNoInformation then e else e.addFact (p.retarget e.term)
  | .attach _ => e
  | .stop => e

/-- What a node makes of an effect. -/
def Node.receive (node : Node R) : Effect R → Node R
  | .propagate _ => node
  | .attach p => node.addFact p
  | .stop => node

theorem Edge.bare_receive (e : Edge R) (effect : Effect R) :
    (e.receive effect).bare = e.bare := by
  cases effect with
  | propagate p =>
      simp only [receive]
      split
      · rfl
      · exact e.bare_addFact _
  | attach p => rfl
  | stop => rfl

theorem Edge.bare_foldl_receive (e : Edge R) (effects : List (Effect R)) :
    (effects.foldl Edge.receive e).bare = e.bare :=
  List.foldlRecOn (motive := fun e' : Edge R => e'.bare = e.bare) effects _ rfl
    fun e' he' effect _ => (e'.bare_receive effect).trans he'

namespace FlowGraph

variable {g : FlowGraph R}

/-- An effect is received by the edges out of the node, or by the node. -/
theorem Indexed.applyEffect_eq (h : g.Indexed) (n : NodeId) (effect : Effect R) :
    g.applyEffect n effect =
      (g.updateLeaving n fun e => e.receive effect).modifyNode n fun node =>
        node.receive effect := by
  have hid : ∀ nodes : List (Node R), nodes.modify n (fun node => node) = nodes :=
    fun nodes => List.modify_id n nodes
  have hkeep : ∀ g : FlowGraph R, g.updateLeaving n (fun e => e) = g := by
    intro g
    simp [updateLeaving, mapEdges]
  cases effect with
  | propagate p =>
      simp only [applyEffect, Edge.receive, Node.receive, modifyNode, hid]
      split
      · exact (hkeep g).symm
      · exact h.writeOutgoing_eq n p
  | attach p =>
      simp only [applyEffect, Edge.receive, Node.receive, hkeep]
      rfl
  | stop => simp only [applyEffect, Edge.receive, Node.receive, hkeep, modifyNode, hid]

end FlowGraph

end Effects

namespace Crossing

variable {n : NodeId} {x y z : Crossing R} {ps qs : List (Nat × Fact R)}

/-- `y` comes from `x` by advancing facts: they have been seen, and their effects have been
received. -/
structure Passes (effect : Nat → Fact R → Effect R) (n : NodeId) (x : Crossing R)
    (ps : List (Nat × Fact R)) (y : Crossing R) : Prop where
  seen : y.seen = (ps.map Prod.snd).foldl insertLast x.seen
  leaving : ∀ (k : Nat) (e : Edge R), x.graph.edges[k]? = some e → e.source.node = n →
    y.graph.edges[k]? = some ((sift effect x.seen ps).foldl Edge.receive e)
  nodes : y.graph.nodes = x.graph.nodes.modify n fun node =>
    (sift effect x.seen ps).foldl Node.receive node

theorem Passes.refl (effect : Nat → Fact R → Effect R) (n : NodeId) (x : Crossing R) :
    Passes effect n x [] x :=
  ⟨rfl, fun _ _ he _ => he, (List.modify_id n x.graph.nodes).symm⟩

theorem Passes.trans {effect : Nat → Fact R → Effect R} (h : Passes effect n x ps y)
    (h' : Passes effect n y qs z) : Passes effect n x (ps ++ qs) z := by
  have hsift := sift_append effect x.seen ps qs
  rw [← h.seen] at hsift
  refine ⟨?_, fun k e he hsource => ?_, ?_⟩
  · rw [h'.seen, h.seen, List.map_append, List.foldl_append]
  · have hsource' : ((sift effect x.seen ps).foldl Edge.receive e).source = e.source :=
      Edge.source_of_bare (e.bare_foldl_receive _)
    rw [h'.leaving k _ (h.leaving k e he hsource) (hsource' ▸ hsource), hsift,
      List.foldl_append]
  · rw [h'.nodes, h.nodes, List.modify_modify_eq, hsift]
    simp only [Function.comp_def, List.foldl_append]

/-- Advancing one fact on an edge that does not leave the node. -/
theorem passes_advance (effect : Nat → Fact R → Effect R) (hx : x.graph.Indexed)
    {j i : Nat} {edge : Edge R} (hedge : x.graph.edges[j]? = some edge)
    (hapart : edge.source.node ≠ n) {p : Fact R} (hp : edge.facts[i]? = some p)
    (pin : Nat) : Passes effect n x [(pin, p)] (advance (effect pin) n j x i) := by
  have hne : ∀ k e, x.graph.edges[k]? = some e → e.source.node = n → j ≠ k := by
    rintro k e he hsource rfl
    obtain rfl : edge = e := by simpa [hedge] using he
    exact hapart hsource
  unfold advance
  simp only [hedge, Option.bind_some, hp]
  cases hseen : x.seen.contains p with
  | true =>
      have hsift : sift effect x.seen [(pin, p)] = [] := by simp [sift, hseen]
      refine ⟨?_, fun k e he hsource => ?_, ?_⟩
      · simp [insertLast_of_contains hseen]
      · simp [hsift, FlowGraph.modifyEdge, hne k e he hsource, he]
      · simp only [hsift, List.foldl_nil]
        exact (List.modify_id n x.graph.nodes).symm
  | false =>
      have hsift : sift effect x.seen [(pin, p)] = [effect pin p] := by simp [sift, hseen]
      refine ⟨?_, fun k e he hsource => ?_, ?_⟩
      · simp [insertLast_of_not_contains hseen]
      · simp [hsift, FlowGraph.modifyEdge, hne k e he hsource, he, hx.applyEffect_eq,
          FlowGraph.modifyNode, FlowGraph.updateLeaving, FlowGraph.mapEdges, hsource]
      · simp [hsift, FlowGraph.modifyEdge, hx.applyEffect_eq, FlowGraph.modifyNode,
          FlowGraph.updateLeaving, FlowGraph.mapEdges]

/-- Advancing facts of one edge, which stay where they are. -/
theorem passes_foldl_advance (effect : Nat → Fact R → Effect R) (hx : x.graph.Indexed)
    {j pin : Nat} {facts : List (Fact R)} {is : List Nat}
    (his : ∀ i ∈ is, i < facts.length) (hedge : ∃ edge, x.graph.edges[j]? = some edge ∧
      edge.source.node ≠ n ∧ edge.facts = facts) :
    Passes effect n x (is.filterMap fun i => facts[i]?.map fun p => (pin, p))
      (is.foldl (advance (effect pin) n j) x) := by
  induction is generalizing x with
  | nil => exact .refl effect n x
  | cons i is ih =>
      rw [List.forall_mem_cons] at his
      obtain ⟨edge, hedge, hapart, rfl⟩ := hedge
      obtain ⟨p, hp⟩ : ∃ p, edge.facts[i]? = some p := ⟨_, List.getElem?_eq_getElem his.1⟩
      have hfirst := passes_advance effect hx hedge hapart hp pin
      have hlayout := (FlowGraph.extends_advance (effect pin) n j x i).layout
      have hk : x.graph.Apart n j := by
        intro e he
        obtain rfl : edge = e := by simpa [hedge] using he
        exact hapart
      have hlt : ∀ e, x.graph.edges[j]? = some e → i < e.facts.length := by
        intro e he
        obtain rfl : edge = e := by simpa [hedge] using he
        exact his.1
      have hnext := FlowGraph.edges_advance hx.wired hk (effect pin) hlt
      rw [hedge] at hnext
      have hrest := ih (hx.of_layout hlayout) his.2
        ⟨edge.consume i, by simpa using hnext, hapart, rfl⟩
      rw [List.foldl_cons, List.filterMap_cons, hp]
      exact hfirst.trans hrest

/-- Advancing all facts of a fresh edge. -/
theorem passes_advanceEdge (effect : Nat → Fact R → Effect R) (hx : x.graph.Indexed)
    {e : Edge R} (he : x.graph.edges[e.id]? = some e) (hapart : e.source.node ≠ n)
    (hfresh : e.Fresh) :
    Passes effect n x (e.facts.map fun p => (e.target.pin, p))
      (advanceEdge effect n x e) := by
  unfold advanceEdge
  rw [he, Option.map_some, Option.getD_some, e.unconsumed_of_fresh hfresh,
    ← filterMap_range_getElem?]
  exact passes_foldl_advance effect hx (fun i hi => List.mem_range.mp hi)
    ⟨e, he, hapart, rfl⟩

/-- Advancing all facts of several fresh edges. -/
theorem passes_foldl_advanceEdge (effect : Nat → Fact R → Effect R) (hx : x.graph.Indexed)
    {es : List (Edge R)} (hids : (es.map Edge.id).Nodup)
    (hes : ∀ e ∈ es, x.graph.edges[e.id]? = some e ∧ e.source.node ≠ n ∧ e.Fresh) :
    Passes effect n x (Arrival.arrived (es.map Edge.arrival))
      (es.foldl (advanceEdge effect n) x) := by
  induction es generalizing x with
  | nil => exact .refl effect n x
  | cons e es ih =>
      rw [List.map_cons, List.nodup_cons] at hids
      rw [List.forall_mem_cons] at hes
      obtain ⟨⟨he, hapart, hfresh⟩, hes⟩ := hes
      have hfirst := passes_advanceEdge effect hx he hapart hfresh
      have hlayout := (FlowGraph.extends_advanceEdge effect n x e).layout
      rw [List.foldl_cons]
      refine hfirst.trans (ih (hx.of_layout hlayout) hids.2 fun e' he' => ?_)
      obtain ⟨hedge', hapart', hfresh'⟩ := hes e' he'
      have hk : x.graph.Apart n e'.id := by
        intro e'' he''
        obtain rfl : e' = e'' := by simpa [hedge'] using he''
        exact hapart'
      have hne : e.id ≠ e'.id := fun heq => hids.1 (heq ▸ List.mem_map_of_mem he')
      refine ⟨?_, hapart', hfresh'⟩
      rw [FlowGraph.edges_advanceEdge hx.wired hk, hedge', Option.map_some, if_neg hne]

end Crossing

section Facts

/-- The facts of an edge with the variable `x` after an effect. -/
def received (x : String) (facts : List (Fact R)) : Effect R → List (Fact R)
  | .propagate p =>
      if p.isNoInformation then facts else insertLast facts (p.retarget (.var x))
  | .attach _ => facts
  | .stop => facts

/-- Facts that are made up to all categories. -/
def completed (x : String) (facts : List (Fact R)) : List (Fact R) :=
  ((Category.all.filter fun k => !facts.any fun p => p.category == k).map
    (Fact.noInformation x)).foldl insertLast facts

/-- The facts of a node after an effect. -/
def attached (facts : List (Fact R)) : Effect R → List (Fact R)
  | .propagate _ => facts
  | .attach p => insertLast facts p
  | .stop => facts

namespace Edge

theorem facts_receive (e : Edge R) (effect : Effect R) :
    (e.receive effect).facts = received e.var e.facts effect := by
  cases effect with
  | propagate p =>
      simp only [receive, received]
      split
      · rfl
      · exact e.facts_addFact _
  | attach p => rfl
  | stop => rfl

theorem facts_foldl_receive (e : Edge R) (effects : List (Effect R)) :
    (effects.foldl Edge.receive e).facts = effects.foldl (received e.var) e.facts := by
  induction effects generalizing e with
  | nil => rfl
  | cons effect effects ih =>
      rw [List.foldl_cons, ih, facts_receive, var_of_bare (e.bare_receive effect),
        List.foldl_cons]

theorem facts_addFacts (e : Edge R) (ps : List (Fact R)) :
    (e.addFacts ps).facts = ps.foldl insertLast e.facts := by
  unfold addFacts
  induction ps generalizing e with
  | nil => rfl
  | cons p ps ih => rw [List.foldl_cons, ih, facts_addFact, List.foldl_cons]

theorem facts_addDefaults (e : Edge R) :
    (e.addFacts (FlowGraph.defaults e)).facts = completed e.var e.facts :=
  e.facts_addFacts _

theorem Fresh.addFact {e : Edge R} (h : e.Fresh) (p : Fact R) : (e.addFact p).Fresh := by
  unfold Edge.addFact
  split
  · exact h
  · have hflags : e.consumed ++ [false] = List.replicate (e.facts.length + 1) false := by
      rw [List.replicate_succ', h]
    simpa [Fresh] using hflags

theorem Fresh.addFacts {e : Edge R} (h : e.Fresh) (ps : List (Fact R)) :
    (e.addFacts ps).Fresh :=
  List.foldlRecOn (motive := Edge.Fresh) ps _ h fun _ he p _ => he.addFact p

theorem Fresh.foldl_receive {e : Edge R} (h : e.Fresh) (effects : List (Effect R)) :
    (effects.foldl Edge.receive e).Fresh := by
  refine List.foldlRecOn (motive := Edge.Fresh) effects _ h fun e he effect _ => ?_
  cases effect with
  | propagate p =>
      simp only [receive]
      split
      · exact he
      · exact he.addFact _
  | attach p => exact he
  | stop => exact he

end Edge

theorem Node.facts_foldl_receive (node : Node R) (effects : List (Effect R)) :
    (effects.foldl Node.receive node).facts = effects.foldl attached node.facts := by
  induction effects generalizing node with
  | nil => rfl
  | cons effect effects ih =>
      rw [List.foldl_cons, ih, List.foldl_cons]
      cases effect <;> rfl

end Facts

/-- The effects of what arrives at a block. -/
def Arrival.effects (rule : TransferRule R) (b : Block) (as : List (Arrival R)) :
    List (Effect R) :=
  sift (rule.advance (Arrival.site b as)) [] (Arrival.arrived as)

/-- An edge out of a node whose block has these effects, once it has been crossed. -/
def Edge.settle (effects : List (Effect R)) (e : Edge R) : Edge R :=
  (effects.foldl Edge.receive e).addFacts
    (FlowGraph.defaults (effects.foldl Edge.receive e))

theorem Edge.facts_settle (effects : List (Effect R)) (e : Edge R) :
    (e.settle effects).facts = completed e.var
      (effects.foldl (received e.var) e.facts) := by
  rw [settle, facts_addDefaults, facts_foldl_receive,
    var_of_bare (e.bare_foldl_receive effects)]

theorem Edge.Fresh.settle {e : Edge R} (h : e.Fresh) (effects : List (Effect R)) :
    (e.settle effects).Fresh :=
  (h.foldl_receive effects).addFacts _

namespace FlowGraph

variable {g : FlowGraph R} {rule : TransferRule R} {b : Block} {n : NodeId}

/-- A node is ready to be crossed: it does not feed itself, its inputs are fresh and have
pins of their own. -/
structure Ready (g : FlowGraph R) (n : NodeId) : Prop where
  not_self : ¬ g.Feeds n n
  fresh : ∀ e ∈ g.edges, e.target.node = n → e.Fresh
  pins : ((g.arrivals n).map Arrival.pin).Nodup

omit [Scalar R] in
/-- What is known at a node in the order of its pins. -/
theorem Ready.site_eq (h : g.Ready n) (b : Block) :
    g.site b n = Arrival.site b (g.arrivals n) := by
  have hperm : (g.arrivals n).Perm ((g.incoming n).map Edge.arrival) :=
    (List.mergeSort_perm _ _).map _
  rw [FlowGraph.site_eq, Arrival.site_eq_of_perm hperm h.pins]

theorem Ready.passes (h : g.Ready n) (hg : g.Indexed) (effect : Nat → Fact R → Effect R) :
    Crossing.Passes effect n ⟨g, []⟩ (Arrival.arrived (g.arrivals n))
      ((g.incomingByPin n).foldl (Crossing.advanceEdge effect n) ⟨g, []⟩) := by
  have hperm : (g.incomingByPin n).Perm (g.incoming n) := List.mergeSort_perm _ _
  refine Crossing.passes_foldl_advanceEdge effect hg
    ((hperm.map Edge.id).nodup_iff.mpr (hg.nodup_id_incoming n)) ?_
  intro e he
  obtain ⟨hmem, htarget⟩ := hg.wired.mem_incoming.mp (hperm.mem_iff.mp he)
  exact ⟨hg.wired.getElem?_id hmem, fun hsource => h.not_self ⟨e, hmem, hsource, htarget⟩,
    h.fresh e hmem htarget⟩

/-- The edges out of a node and the node itself, once it has been crossed. -/
theorem Ready.cross (h : g.Ready n) (hg : g.Indexed) (rule : TransferRule R) (b : Block) :
    (∀ (k : Nat) (e : Edge R), g.edges[k]? = some e → e.source.node = n →
      (g.cross rule b n).edges[k]? = some
        (e.settle (Arrival.effects rule b (g.arrivals n)))) ∧
    (g.cross rule b n).nodes =
      g.nodes.modify n fun node =>
        (Arrival.effects rule b (g.arrivals n)).foldl Node.receive node := by
  have hpasses := h.passes hg (rule.advance (Arrival.site b (g.arrivals n)))
  have hextends :=
    extends_foldl_advanceEdge (rule.advance (Arrival.site b (g.arrivals n))) n ⟨g, []⟩
    (g.incomingByPin n)
  unfold FlowGraph.cross
  dsimp only
  rw [h.site_eq, (hg.of_layout hextends.layout).fillDefaults_eq]
  refine ⟨fun k e he hsource => ?_, hpasses.nodes⟩
  have hedge := hpasses.leaving k e he hsource
  have hbare := e.bare_foldl_receive (Arrival.effects rule b (g.arrivals n))
  have hsource' :
      ((Arrival.effects rule b (g.arrivals n)).foldl Edge.receive e).source.node = n :=
    Edge.source_of_bare hbare ▸ hsource
  simp only [updateLeaving, mapEdges, List.getElem?_map]
  rw [hedge, Option.map_some]
  exact congrArg some (if_pos hsource')

/-- The facts on edges that do not leave the node stay. -/
theorem facts_foldl_advanceEdge {x : Crossing R} (hx : x.graph.Wired) {k : Nat}
    (hk : x.graph.Apart n k) (effect : Nat → Fact R → Effect R) (es : List (Edge R)) :
    (es.foldl (Crossing.advanceEdge effect n) x).graph.edges[k]?.map Edge.facts =
      x.graph.edges[k]?.map Edge.facts := by
  induction es generalizing x with
  | nil => rfl
  | cons e es ih =>
      have hextends := extends_advanceEdge effect n x e
      rw [List.foldl_cons, ih (hextends.wired hx) (hextends.apart hk),
        edges_advanceEdge hx hk, Option.map_map]
      refine congrArg (fun f => x.graph.edges[k]?.map f) (funext fun e' => ?_)
      show (if e.id = k then e'.unconsumed.foldl Edge.consume e' else e').facts = e'.facts
      split
      · exact e'.facts_foldl_consume _
      · rfl

theorem facts_cross_of_source_ne (h : g.Wired) {k : Nat} {e e' : Edge R}
    (he : g.edges[k]? = some e) (he' : (g.cross rule b n).edges[k]? = some e')
    (hsource : e.source.node ≠ n) : e'.facts = e.facts := by
  have hk : g.Apart n k := by
    intro e₀ he₀
    obtain rfl : e = e₀ := by simpa [he] using he₀
    exact hsource
  have hextends := extends_foldl_advanceEdge (rule.advance (g.site b n)) n ⟨g, []⟩
    (g.incomingByPin n)
  have hfacts := facts_foldl_advanceEdge (x := ⟨g, []⟩) h hk (rule.advance (g.site b n))
    (g.incomingByPin n)
  unfold FlowGraph.cross at he'
  rw [edges_fillDefaults_of_apart (hextends.wired h) (hextends.apart hk)] at he'
  rw [he, he'] at hfacts
  exact Option.some.inj hfacts

/-- An edge after a node has been crossed: it is settled if it leaves the node, keeps its
facts if it does not, and stays as it is if it does not touch the node. -/
theorem Ready.exists_edge (h : g.Ready n) (hg : g.Indexed) {e' : Edge R}
    (he' : e' ∈ (g.cross rule b n).edges) :
    ∃ e ∈ g.edges, e'.bare = e.bare ∧
      (e.source.node = n → e' = e.settle (Arrival.effects rule b (g.arrivals n))) ∧
      (e.source.node ≠ n → e'.facts = e.facts ∧ (e.target.node ≠ n → e' = e)) := by
  obtain ⟨k, hk⟩ := List.mem_iff_getElem?.mp he'
  obtain ⟨e, he, hbare, _⟩ := (g.extends_cross rule b n).exists_edge hk
  refine ⟨e, List.mem_of_getElem? he, hbare, fun hsource => ?_, fun hsource =>
    ⟨?_, fun htarget => ?_⟩⟩
  · have hsettled := (h.cross hg rule b).1 k e he hsource
    rw [hk] at hsettled
    exact Option.some.inj hsettled
  · exact facts_cross_of_source_ne hg.wired he hk hsource
  · have hkept : (g.cross rule b n).edges[k]? = some e :=
      edges_cross_of_ne hg.wired he hsource htarget
    rw [hk] at hkept
    exact Option.some.inj hkept

end FlowGraph

end SignalFlow
