import SignalFlow.Proofs.SettledObligation
import SignalFlow.Proofs.UniqueFlow

/-!
# Obligations of graphs that agree

Obligations are derived block by block and edge by edge.  What is derived at a block
depends on what arrives at its inputs, and what is derived at an edge depends on its facts
and its variable.  So graphs that agree on the facts of their edges give rise to the same
obligations, in whatever order.

An obligation is left out if an equal one is there.  Equal literals need not be the same,
but an obligation has its literal from the limits, so that equal obligations are the same.

**Results.**
* `mem_obligations_iff`: the obligations of the graph are those that are derived.
* `mem_derive_of_agrees`: graphs that agree give rise to the same obligations.
-/

namespace SignalFlow

namespace FlowGraph

/-- The edge into an input pin is found among what arrives. -/
theorem OneEdgePerPin.inputEdge? {R : Type} {g : FlowGraph R} (h : g.OneEdgePerPin)
    (hg : g.Indexed) (n : NodeId) (pin : Nat) : (g.inputEdge? n pin).map Edge.arrival =
      (g.arrivals n).find? fun a => a.pin == pin := by
  have hperm : (g.arrivals n).Perm ((g.incoming n).map Edge.arrival) :=
    (List.mergeSort_perm _ _).map _
  rw [← List.head?_filter, Arrival.filter_pin_eq_of_perm hperm (h.nodup_pins hg n),
    List.head?_filter, List.find?_map]
  rfl

end FlowGraph

namespace Obligation

variable {R : Type} [Scalar R] {oracle : Oracle R} {l : Limits} {d d' : Diagram}
  {g g' : FlowGraph R} {p q : Formula R}

section Forms

/-- What a variable is compared to. -/
def limit (l : Limits) : Comparison → R
  | .le => l.upper
  | .ge => l.lower
  | _ => 0

/-- Obligations compare a variable to a limit or to zero. -/
def Form (l : Limits) (p : Formula R) : Prop :=
  ∃ x c, p = .compare (.var x) c (.num (limit l c))

theorem form_nonzero (l : Limits) (x : String) : Form l (nonzero x : Formula R) :=
  ⟨x, .ne, rfl⟩

/-- A variable is kept within a limit. -/
def Bounding (l : Limits) (p : Formula R) : Prop :=
  ∃ x, p = atMost l x ∨ p = atLeast l x

theorem bounding_atMost (l : Limits) (x : String) : Bounding l (atMost l x : Formula R) :=
  ⟨x, Or.inl rfl⟩

theorem bounding_atLeast (l : Limits) (x : String) :
    Bounding l (atLeast l x : Formula R) :=
  ⟨x, Or.inr rfl⟩

theorem Bounding.form (h : Bounding l p) : Form l p := by
  obtain ⟨x, rfl | rfl⟩ := h
  · exact ⟨x, .le, rfl⟩
  · exact ⟨x, .ge, rfl⟩

/-- Obligations that are equal are the same, although equal literals need not be. -/
theorem Form.eq_of_beq (hp : Form l p) (hq : Form l q) (h : (p == q) = true) : p = q := by
  obtain ⟨x, c, rfl⟩ := hp
  obtain ⟨y, c', rfl⟩ := hq
  have hparts : ((Term.var x : Term R) == .var y &&
      (c == c' && (Term.num (limit l c) : Term R) == .num (limit l c'))) = true := h
  rw [Bool.and_eq_true, Bool.and_eq_true] at hparts
  have hname : (x == y) = true := hparts.1
  obtain rfl : x = y := by simpa using hname
  obtain rfl : c = c' := by simpa using hparts.2.1
  rfl

theorem bounding_of_mem_ite {cond : Bool} (h : p ∈ if cond then [q] else [])
    (hq : Bounding l q) : Bounding l p :=
  List.mem_singleton.mp (List.mem_ite_nil_right.mp h).2 ▸ hq

/-- What is required at a division is that the variable of a divisor is not zero. -/
theorem exists_divisorEdge {b : Block} {n : NodeId} (h : p ∈ ofDivision g b n) :
    ∃ e ∈ divisorEdges g b n, p = nonzero e.var := by
  have hmap : p ∈ ((divisorEdges g b n).filter fun e =>
      (informative e).all Fact.crossesZero).map
      (fun e => nonzero e.var) → ∃ e ∈ divisorEdges g b n, p = nonzero e.var := by
    intro hp
    obtain ⟨e, he, rfl⟩ := List.mem_map.mp hp
    exact ⟨e, (List.mem_filter.mp he).1, rfl⟩
  unfold ofDivision at h
  split at h
  · exact hmap h
  · exact hmap h
  · cases h

theorem bounding_ofIntegrator {b : Block} {n : NodeId}
    (h : p ∈ ofIntegrator oracle l g b n) : Bounding l p := by
  have hlimits : ∀ low high :
      Bool, p ∈ (if low then [atLeast l (b.outputVar 0)] else []) ++
      (if high then [atMost l (b.outputVar 0)] else []) → Bounding l p := by
    intro low high hp
    rcases List.mem_append.mp hp with hp | hp
    · exact bounding_of_mem_ite hp (bounding_atLeast l _)
    · exact bounding_of_mem_ite hp (bounding_atMost l _)
  unfold ofIntegrator at h
  split at h
  · split at h
    · cases h
    · exact hlimits _ _ h
  · split at h
    · cases h
    · exact hlimits _ _ h
  · cases h

theorem bounding_ofEdge {e : Edge R} (h : p ∈ ofEdge l e) : Bounding l p := by
  obtain ⟨r, _, hp⟩ := List.mem_flatMap.mp h
  rcases List.mem_append.mp hp with hp | hp
  · exact bounding_of_mem_ite hp (bounding_atMost l _)
  · exact bounding_of_mem_ite hp (bounding_atLeast l _)

theorem bounding_ofCycle {b : Block} (h : p ∈ ofCycle l b) : Bounding l p := by
  have hp := (List.mem_ite_nil_right.mp h).2
  rcases List.mem_cons.mp hp with rfl | hp
  · exact bounding_atMost l _
  · exact List.mem_singleton.mp hp ▸ bounding_atLeast l _

omit [Scalar R] in
theorem exists_of_mem_forNodes {nodes : List NodeId}
    {rule : Block → NodeId → List (Formula R)} (h : p ∈ forNodes d g nodes rule) :
    ∃ n ∈ nodes, ∃ id b, g.blockOf? n = some id ∧ d.block? id = some b ∧ p ∈ rule b n := by
  obtain ⟨n, hn, hp⟩ := List.mem_flatMap.mp h
  split at hp
  · next b hb =>
      obtain ⟨id, hid, hblock⟩ := Option.bind_eq_some_iff.mp hb
      exact ⟨n, hn, id, b, hid, hblock, hp⟩
  · cases hp

/-- Obligations are about divisors, or keep variables within limits. -/
theorem exists_of_mem_derive (h : p ∈ derive oracle l d g) :
    (∃ b n, p ∈ ofDivision g b n) ∨ Bounding l p := by
  simp only [derive, List.mem_append] at h
  rcases h with ((h | h) | h) | h
  · obtain ⟨n, _, _, b, _, _, hp⟩ := exists_of_mem_forNodes h
    exact Or.inl ⟨b, n, hp⟩
  · obtain ⟨_, _, _, _, _, _, hp⟩ := exists_of_mem_forNodes h
    exact Or.inr (bounding_ofIntegrator hp)
  · obtain ⟨_, _, hp⟩ := List.mem_flatMap.mp h
    exact Or.inr (bounding_ofEdge hp)
  · obtain ⟨_, _, _, _, _, _, hp⟩ := exists_of_mem_forNodes h
    exact Or.inr (bounding_ofCycle hp)

theorem form_derive (h : p ∈ derive oracle l d g) : Form l p := by
  rcases exists_of_mem_derive h with ⟨b, n, hp⟩ | hp
  · obtain ⟨e, _, rfl⟩ := exists_divisorEdge hp
    exact form_nonzero l e.var
  · exact hp.form

/-- The obligations of a graph that had none are those that are derived. -/
theorem mem_obligations_iff (h : g.obligations = []) :
    p ∈ (g.withObligations oracle l d).obligations ↔ p ∈ derive oracle l d g := by
  rw [FlowGraph.withObligations, FlowGraph.obligations_foldl_addObligation, h]
  have hderived : ∀ q ∈ (derive oracle l d g).foldl insertLast [],
      q ∈ derive oracle l d g := by
    intro q hq
    exact (mem_or_mem_of_mem_foldl_insertLast hq).resolve_left List.not_mem_nil
  refine ⟨hderived p, fun hp => ?_⟩
  obtain ⟨q, hq, rfl | hpq⟩ := exists_mem_foldl_insertLast hp []
  · exact hq
  · rw [(form_derive hp).eq_of_beq (form_derive (hderived q hq)) hpq]
    exact hq

end Forms

section Agreement

variable {b : Block} {n n' : NodeId}

/-- The same arrives at the inputs of the nodes. -/
def SameInputs (g g' : FlowGraph R) (n n' : NodeId) : Prop :=
  ∀ pin, (g'.inputEdge? n' pin).map Edge.arrival = (g.inputEdge? n pin).map Edge.arrival

theorem ofDivision_congr (h : SameInputs g g' n n') :
    ofDivision g' b n' = ofDivision g b n := by
  have hedges : (divisorEdges g' b n').map Edge.arrival = (divisorEdges g b n).map
      Edge.arrival := by
    simp only [divisorEdges, List.map_filterMap]
    refine List.filterMap_congr fun pin _ => ?_
    cases pin.1 with
    | true => exact h pin.2
    | false => rfl
  have hread : ∀ es : List (Edge R),
      ((es.filter fun e => (informative e).all Fact.crossesZero).map fun e =>
        (nonzero e.var : Formula R)) =
        ((es.map Edge.arrival).filter fun a =>
          (a.facts.filter Fact.isInformativeSignal).all Fact.crossesZero).map
          fun a => nonzero a.var := by
    intro es
    rw [List.filter_map, List.map_map]
    rfl
  unfold ofDivision
  rw [hread, hread, hedges]

theorem mayBe_congr (oracle : Oracle R) {e e' : Edge R} (h : e'.arrival = e.arrival)
    (c : Comparison) : mayBe oracle e' c = mayBe oracle e c := by
  have hfacts : e'.facts = e.facts := congrArg Arrival.facts h
  have hvar : e'.var = e.var := congrArg Arrival.var h
  unfold mayBe informative Edge.term
  rw [hfacts, hvar]

theorem ofIntegrator_congr (h : SameInputs g g' n n') :
    ofIntegrator oracle l g' b n' = ofIntegrator oracle l g b n := by
  have hfirst := h 0
  unfold ofIntegrator
  cases he : g.inputEdge? n 0 with
  | none =>
      have he' : g'.inputEdge? n' 0 = none := by simpa [he] using hfirst
      rw [he']
  | some e =>
      obtain ⟨e', he', harrival⟩ : ∃ e', g'.inputEdge? n' 0 = some e' ∧
          e'.arrival = e.arrival := by
        simpa [he] using hfirst
      have hmay := mayBe_congr oracle harrival
      simp only [he', hmay]

theorem ofEdge_congr {e e' : Edge R} (hfacts : e'.facts = e.facts)
    (hvar : e'.var = e.var) : ofEdge l e' = ofEdge l e := by
  unfold ofEdge Edge.boundaries
  rw [hfacts, hvar]

omit [Scalar R] in
/-- Nodes of the same block give rise to the same obligations if these are read from the
inputs. -/
theorem mem_forNodes_of_agrees (h : FlowGraph.Agrees d g g') (hg : FlowGraph.Mirrors d g)
    (hg' : FlowGraph.Mirrors d g') (hd : d.Feedforward)
    {rule rule' : Block → NodeId → List (Formula R)}
    (hrule : ∀ b n n', SameInputs g g' n n' → rule' b n' = rule b n)
    (hp : p ∈ forNodes d g (g.nodes.map Node.id) rule) :
    p ∈ forNodes d g' (g'.nodes.map Node.id) rule' := by
  obtain ⟨n, _, id, b, hn, hb, hp⟩ := exists_of_mem_forNodes hp
  obtain ⟨n', hn'⟩ := hg.exists_node hg' hn
  have hinputs : SameInputs g g' n n' := by
    intro pin
    rw [(hg'.oneEdgePerPin hd).inputEdge? hg'.indexed,
      (hg.oneEdgePerPin hd).inputEdge? hg.indexed, h.arrivals_eq hg hg' hd hn hn']
  obtain ⟨node, hnode, _⟩ := Option.map_eq_some_iff.mp hn'
  refine mem_forNodes (n := n') ?_ (by rw [hn', Option.bind_some, hb])
    (hrule b n n' hinputs ▸ hp)
  rw [hg'.indexed.wired.map_id, List.mem_range]
  exact (List.getElem?_eq_some_iff.mp hnode).1

/-- Graphs whose edges carry the same facts give rise to the same obligations. -/
theorem mem_derive_of_agrees (h : FlowGraph.Agrees d g g') (hg : FlowGraph.Mirrors d g)
    (hg' : FlowGraph.Mirrors d g') (hd : d.Feedforward) (hp : p ∈ derive oracle l d g) :
    p ∈ derive oracle l d g' := by
  simp only [derive, List.mem_append] at hp ⊢
  rcases hp with ((hp | hp) | hp) | hp
  · exact .inl
      (.inl (.inl (mem_forNodes_of_agrees h hg hg' hd (fun _ _ _ => ofDivision_congr) hp)))
  · exact .inl (.inl
      (.inr (mem_forNodes_of_agrees h hg hg' hd (fun _ _ _ => ofIntegrator_congr) hp)))
  · obtain ⟨e, he, hp⟩ := List.mem_flatMap.mp hp
    obtain ⟨e', he', htwins⟩ := hg.exists_twin hg' he
    refine .inl (.inr (List.mem_flatMap.mpr ⟨e', he', ?_⟩))
    rwa [ofEdge_congr (h e he e' he' htwins) htwins.var_eq]
  · obtain ⟨n, hn, _⟩ := exists_of_mem_forNodes hp
    rw [hg.nodesOnCycles_eq hd] at hn
    cases hn

end Agreement

end Obligation

end SignalFlow
