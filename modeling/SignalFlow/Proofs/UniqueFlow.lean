import Mathlib.Order.WellFoundedSet
import SignalFlow.Proofs.FlowEquations

/-!
# Feedforward diagrams

In a feedforward diagram no block feeds itself, also not through others, and at most one
signal ends at each input pin.  There the flow equations have one solution at most: blocks
are compared along the signals, and a block at whose inputs the same facts arrive has the
same facts behind it.

The comparison is between two graphs that mirror the same diagram.  Their nodes and edges
may be numbered differently; they correspond to each other through the blocks and signals
they stand for.

**Results.**
* `Mirrors.arrivals_eq`: the same arrives at a block if its signals carry the same facts.
* `Solves.unique`: solutions of the flow equations agree.
-/

open Relation (TransGen)

namespace SignalFlow

namespace Diagram

/-- A signal leads from the first block to the second. -/
def Feeds (d : Diagram) (a b : BlockId) : Prop :=
  ∃ s ∈ d.attached, s.source.block = a ∧ s.target.block = b

/-- Blocks and signals have identifiers of their own, signals have input pins of their own,
and signals do not lead from a block back to it. -/
structure Feedforward (d : Diagram) : Prop where
  blocks : (d.blocks.map Block.id).Nodup
  signals : (d.signals.map Signal.id).Nodup
  pins : (d.signals.map Signal.target).Nodup
  acyclic : ∀ id, ¬ TransGen d.Feeds id id

variable {d : Diagram}

/-- Blocks can be treated in an order in which every block comes behind those that feed
it. -/
@[elab_as_elim]
theorem Feedforward.induction (h : d.Feedforward) {P : BlockId → Prop}
    (hP : ∀ id ∈ d.blocks.map Block.id, (∀ a, d.Feeds a id → P a) → P id) {id : BlockId}
    (hid : id ∈ d.blocks.map Block.id) : P id := by
  have horder : IsStrictOrder BlockId (TransGen d.Feeds) :=
    { irrefl := h.acyclic, trans := fun _ _ _ => TransGen.trans }
  have hwf : {id | id ∈ d.blocks.map Block.id}.WellFoundedOn (TransGen d.Feeds) :=
    (List.finite_toSet _).wellFoundedOn
  refine hwf.induction hid fun id hid ih => hP id hid fun a ha =>
    ih a ?_ (TransGen.single ha)
  obtain ⟨s, hs, rfl, _⟩ := ha
  simpa [hasBlock] using (mem_attached.mp hs).2.1

end Diagram

namespace FlowGraph

variable {R : Type} {d : Diagram} {g g' : FlowGraph R}

theorem Mirrors.laidOut (h : Mirrors d g) : LaidOut d g :=
  ⟨h.indexed.wired, h.indexed.registered, h.indexed.blocks, fun id hid =>
    (h.mem_blocks id).mp hid⟩

/-- What an edge stands for is a matter of the layout. -/
theorem Depicts.of_layout {e e' : Edge R} {s : Signal} (h : Depicts d g e s)
    (hlayout : g'.layout = g.layout) (hbare : e'.bare = e.bare) : Depicts d g' e' s := by
  have hblockOf : ∀ n, g'.blockOf? n = g.blockOf? n := fun n => by
    rw [← blockOf?_layout, hlayout, blockOf?_layout]
  have hsource := Edge.source_of_bare hbare
  have htarget := Edge.target_of_bare hbare
  have hsignal : e'.bare.signal = e.bare.signal := congrArg Edge.signal hbare
  refine ⟨hsignal.trans h.signal, ?_, ?_, ?_, ?_, ?_⟩
  · rw [hblockOf, hsource, h.source]
  · rw [hblockOf, htarget, h.target]
  · rw [hsource, h.source_pin]
  · rw [htarget, h.target_pin]
  · rw [Edge.var_of_bare hbare]
    exact h.var

theorem forall_depicted_of_layout (h : ∀ e ∈ g.edges, ∃ s ∈ d.attached, Depicts d g e s)
    (hlayout : g'.layout = g.layout) :
    ∀ e ∈ g'.edges, ∃ s ∈ d.attached, Depicts d g' e s := by
  intro e' he'
  obtain ⟨k, hk⟩ := List.mem_iff_getElem?.mp he'
  obtain ⟨e, he, hbare⟩ := exists_edge_of_layout hlayout hk
  obtain ⟨s, hs, hes⟩ := h e (List.mem_of_getElem? he)
  exact ⟨s, hs, hes.of_layout hlayout hbare⟩

/-- What the nodes and edges stand for is a matter of the layout. -/
theorem Mirrors.of_layout (h : Mirrors d g) (hlayout : g'.layout = g.layout) :
    Mirrors d g' := by
  have hblocks : g'.nodes.map Node.block = g.nodes.map Node.block := by
    rw [← map_block_layout, hlayout, map_block_layout]
  refine ⟨h.indexed.of_layout hlayout, fun id => hblocks ▸ h.mem_blocks id,
    forall_depicted_of_layout h.depicts hlayout, fun s hs => ?_⟩
  obtain ⟨e, he, hes⟩ := h.depicted s hs
  obtain ⟨k, hk⟩ := List.mem_iff_getElem?.mp he
  obtain ⟨e', he', hbare⟩ := exists_edge_of_layout hlayout.symm hk
  exact ⟨e', List.mem_of_getElem? he', hes.of_layout hlayout hbare.symm⟩

section Edges

/-- Edges that stand for the same signal. -/
def Twins (d : Diagram) (g g' : FlowGraph R) (e e' : Edge R) : Prop :=
  ∃ s ∈ d.attached, Depicts d g e s ∧ Depicts d g' e' s

variable {e e' : Edge R} {n n' : NodeId} {id : BlockId}

theorem Twins.symm (h : Twins d g g' e e') : Twins d g' g e' e := by
  obtain ⟨s, hs, he, he'⟩ := h
  exact ⟨s, hs, he', he⟩

theorem Twins.var_eq (h : Twins d g g' e e') : e'.var = e.var := by
  obtain ⟨s, _, he, he'⟩ := h
  obtain ⟨b, hb, hvar⟩ := he.var
  obtain ⟨b', hb', hvar'⟩ := he'.var
  obtain rfl : b = b' := by simpa [hb] using hb'
  rw [hvar, hvar']

theorem Twins.pin_eq (h : Twins d g g' e e') : e'.target.pin = e.target.pin := by
  obtain ⟨s, _, he, he'⟩ := h
  rw [he.target_pin, he'.target_pin]

theorem Mirrors.exists_twin (h : Mirrors d g) (h' : Mirrors d g') (he : e ∈ g.edges) :
    ∃ e' ∈ g'.edges, Twins d g g' e e' := by
  obtain ⟨s, hs, hdepicts⟩ := h.depicts e he
  obtain ⟨e', he', hdepicts'⟩ := h'.depicted s hs
  exact ⟨e', he', s, hs, hdepicts, hdepicts'⟩

/-- Different edges end at different pins, as the signals do. -/
theorem Indexed.oneEdgePerPin (h : g.Indexed)
    (hdepicts : ∀ e ∈ g.edges, ∃ s ∈ d.attached, Depicts d g e s)
    (hpins : (d.signals.map Signal.target).Nodup) : g.OneEdgePerPin := by
  intro i j e e' he he' htarget
  obtain ⟨s, hs, hes⟩ := hdepicts e (List.mem_of_getElem? he)
  obtain ⟨s', hs', hes'⟩ := hdepicts e' (List.mem_of_getElem? he')
  have hblock : s.target.block = s'.target.block := by
    have hsource := hes.target
    rw [htarget, hes'.target] at hsource
    exact (Option.some.inj hsource).symm
  have hpin : s.target = s'.target := by
    rw [Pin.mk.injEq]
    exact ⟨hblock, by rw [← hes.target_pin, htarget, hes'.target_pin]⟩
  obtain rfl : s = s' :=
    List.inj_on_of_nodup_map hpins (Diagram.mem_attached.mp hs).1
      (Diagram.mem_attached.mp hs').1 hpin
  have hsignal : (g.edges.map Edge.signal)[i]? = (g.edges.map Edge.signal)[j]? := by
    rw [List.getElem?_map, List.getElem?_map, he, he', Option.map_some, Option.map_some,
      hes.signal, hes'.signal]
  have hlt : i < (g.edges.map Edge.signal).length := by
    rw [List.length_map]
    exact (List.getElem?_eq_some_iff.mp he).1
  exact (List.getElem?_inj hlt h.signals).mp hsignal

theorem Mirrors.oneEdgePerPin (h : Mirrors d g) (hd : d.Feedforward) : g.OneEdgePerPin :=
  h.indexed.oneEdgePerPin h.depicts hd.pins

/-- What arrives at a node is in the order of different pins. -/
theorem OneEdgePerPin.pairwise_arrivals (h : g.OneEdgePerPin) (hg : g.Indexed)
    (n : NodeId) : (g.arrivals n).Pairwise fun a b => a.pin < b.pin := by
  have hsorted : (g.arrivals n).Pairwise fun a b => decide (a.pin ≤ b.pin) = true := by
    rw [arrivals_eq]
    refine List.pairwise_mergeSort (fun a b c hab hbc => ?_) (fun a b => ?_) _
    · simp only [decide_eq_true_eq] at hab hbc ⊢
      omega
    · simp only [Bool.or_eq_true, decide_eq_true_eq]
      omega
  have hne := List.pairwise_map.mp (h.nodup_pins hg n)
  refine hsorted.imp₂ (fun a b hab hne => ?_) hne
  rw [decide_eq_true_eq] at hab
  omega

/-- What arrives at a node arrives at the other one too, if the edges into them carry the
same facts. -/
theorem Mirrors.arrivals_subset (h : Mirrors d g) (h' : Mirrors d g')
    (hn : g.blockOf? n = some id) (hn' : g'.blockOf? n' = some id)
    (hfacts : ∀ e ∈ g.edges, ∀ e' ∈ g'.edges, Twins d g g' e e' → e.target.node = n →
      e'.facts = e.facts) :
    g.arrivals n ⊆ g'.arrivals n' := by
  intro a ha
  obtain ⟨e, he, rfl⟩ := List.mem_map.mp ha
  obtain ⟨hedge, htarget⟩ := h.indexed.wired.mem_incoming.mp (List.mem_mergeSort.mp he)
  obtain ⟨e', hedge', htwins⟩ := h.exists_twin h' hedge
  have htarget' : e'.target.node = n' := by
    obtain ⟨s, _, hes, hes'⟩ := htwins
    have hblock : id = s.target.block := by simpa [htarget, hn] using hes.target
    have hnode := nodeOf?_of_blockOf? h'.laidOut hes'.target
    rw [← hblock, nodeOf?_of_blockOf? h'.laidOut hn'] at hnode
    exact (Option.some.inj hnode).symm
  refine List.mem_map.mpr
    ⟨e', List.mem_mergeSort.mpr (h'.indexed.wired.mem_incoming.mpr ⟨hedge', htarget'⟩), ?_⟩
  rw [Edge.arrival, Edge.arrival, htwins.pin_eq, htwins.var_eq,
    hfacts e hedge e' hedge' htwins htarget]

theorem Mirrors.exists_node (h : Mirrors d g) (h' : Mirrors d g') {n : NodeId}
    {id : BlockId} (hn : g.blockOf? n = some id) : ∃ n', g'.blockOf? n' = some id := by
  rw [blockOf?_eq] at hn
  obtain ⟨n', hn'⟩ := List.mem_iff_getElem?.mp
    ((h'.mem_blocks id).mpr ((h.mem_blocks id).mp (List.mem_of_getElem? hn)))
  exact ⟨n', by rw [blockOf?_eq, hn']⟩

/-- The same arrives at nodes of the same block if the edges into the first one carry the
facts of their twins. -/
theorem Mirrors.arrivals_eq (h : Mirrors d g) (h' : Mirrors d g') (hd : d.Feedforward)
    (hn : g.blockOf? n = some id) (hn' : g'.blockOf? n' = some id)
    (hfacts : ∀ e ∈ g.edges, ∀ e' ∈ g'.edges, Twins d g g' e e' →
      g.blockOf? e.target.node = some id →
      e'.facts = e.facts) : g'.arrivals n' = g.arrivals n := by
  have hsubset : g.arrivals n ⊆ g'.arrivals n' :=
    h.arrivals_subset h' hn hn' fun e he e' he' htwins htarget =>
      hfacts e he e' he' htwins (htarget ▸ hn)
  have hsubset' : g'.arrivals n' ⊆ g.arrivals n := by
    refine h'.arrivals_subset h hn' hn fun e' he' e he htwins htarget =>
      (hfacts e he e' he' htwins.symm ?_).symm
    obtain ⟨s, _, hes', hes⟩ := htwins
    rw [hes.target, ← hes'.target, htarget, hn']
  have hsorted := (h.oneEdgePerPin hd).pairwise_arrivals h.indexed n
  have hsorted' := (h'.oneEdgePerPin hd).pairwise_arrivals h'.indexed n'
  have hnodup : ∀ as : List (Arrival R), as.Pairwise (fun a b => a.pin < b.pin) →
      as.Nodup := by
    intro as has
    refine has.imp fun {a b} hab heq => ?_
    rw [heq] at hab
    exact Nat.lt_irrefl _ hab
  have hperm : (g'.arrivals n').Perm (g.arrivals n) :=
    (List.perm_ext_iff_of_nodup (hnodup _ hsorted') (hnodup _ hsorted)).mpr fun a =>
      ⟨@hsubset' a, @hsubset a⟩
  exact hperm.eq_of_pairwise (fun a b _ _ hab hba =>
    absurd hab (Nat.lt_asymm hba)) hsorted' hsorted

/-- Edges that stand for the same signal carry the same facts. -/
def Agrees (d : Diagram) (g g' : FlowGraph R) : Prop :=
  ∀ e ∈ g.edges, ∀ e' ∈ g'.edges, Twins d g g' e e' → e'.facts = e.facts

theorem Agrees.symm (h : Agrees d g g') : Agrees d g' g :=
  fun e' he' e he htwins => (h e he e' he' htwins.symm).symm

theorem Agrees.arrivals_eq (h : Agrees d g g') (hg : Mirrors d g) (hg' : Mirrors d g')
    (hd : d.Feedforward) (hn : g.blockOf? n = some id) (hn' : g'.blockOf? n' = some id) :
    g'.arrivals n' = g.arrivals n :=
  hg.arrivals_eq hg' hd hn hn' fun e he e' he' htwins _ => h e he e' he' htwins

end Edges

section Cycles

theorem Mirrors.feeds_blockAt (h : Mirrors d g) {m n : NodeId} (hmn : g.Feeds m n) :
    d.Feeds (g.blockAt m) (g.blockAt n) := by
  obtain ⟨e, he, rfl, rfl⟩ := hmn
  obtain ⟨s, hs, hes⟩ := h.depicts e he
  exact ⟨s, hs, by simp [blockAt, hes.source], by simp [blockAt, hes.target]⟩

/-- Nothing leads from a node back to it. -/
theorem Mirrors.not_transGen (h : Mirrors d g) (hd : d.Feedforward) (n : NodeId) :
    ¬ TransGen g.Feeds n n :=
  fun hloop => hd.acyclic (g.blockAt n) (hloop.lift g.blockAt fun _ _ hmn =>
    h.feeds_blockAt hmn)

theorem Mirrors.nodesOnCycles_eq (h : Mirrors d g) (hd : d.Feedforward) :
    g.nodesOnCycles = [] := by
  refine List.filter_eq_nil_iff.mpr fun n hn => ?_
  have hlt : n < g.nodes.length := List.mem_range.mp (h.indexed.wired.map_id ▸ hn)
  rcases h.indexed.wired.cycleThrough_cases hlt with hloop | hnone
  · exact absurd (hloop.transGen hloop.mem) (h.not_transGen hd n)
  · simp [hnone.1]

end Cycles

end FlowGraph

namespace Propagation

variable {R : Type} [Scalar R] {c : Setting} {g g' : FlowGraph R}

open FlowGraph (Mirrors Twins)

/-- The solutions agree on the edges out of a block if they agree on those into it. -/
theorem Solves.facts_eq (h : Solves c g) (h' : Solves c g') (hg : Mirrors c.diagram g)
    (hg' : Mirrors c.diagram g') (hd : c.diagram.Feedforward) {e e' : Edge R}
    (he : e ∈ g.edges) (he' : e' ∈ g'.edges) (htwins : Twins c.diagram g g' e e')
    (hfacts : ∀ e₁ ∈ g.edges, ∀ e₁' ∈ g'.edges, Twins c.diagram g g' e₁ e₁' →
      g.blockOf? e₁.target.node = g.blockOf? e.source.node → e₁'.facts = e₁.facts) :
      e'.facts = e.facts := by
  have hvar := htwins.var_eq
  obtain ⟨s, _, hes, hes'⟩ := htwins
  obtain ⟨b, hb, _⟩ := hes.var
  have hblock : c.block? g e.source.node = some b := by
    rw [Setting.block?, hes.source, Option.bind_some, hb]
  have hblock' : c.block? g' e'.source.node = some b := by
    rw [Setting.block?, hes'.source, Option.bind_some, hb]
  have harrivals : g'.arrivals e'.source.node = g.arrivals e.source.node :=
    hg.arrivals_eq hg' hd hes.source hes'.source fun e₁ he₁ e₁' he₁' htwins₁ htarget =>
      hfacts e₁ he₁ e₁' he₁' htwins₁ (htarget.trans hes.source.symm)
  rw [h.edges e he b hblock, h'.edges e' he' b hblock', harrivals, hvar]

/-- In a feedforward diagram the flow equations have one solution at most. -/
theorem Solves.unique (h : Solves c g) (h' : Solves c g') (hg : Mirrors c.diagram g)
    (hg' : Mirrors c.diagram g') (hd : c.diagram.Feedforward) :
    FlowGraph.Agrees c.diagram g g' := by
  have hall : ∀ id ∈ c.diagram.blocks.map Block.id, ∀ e ∈ g.edges, ∀ e' ∈ g'.edges,
      Twins c.diagram g g' e e' →
      g.blockOf? e.source.node = some id → e'.facts = e.facts := by
    intro id hid
    refine hd.induction ?_ hid
    intro id _ ih e he e' he' htwins hsource
    refine h.facts_eq h' hg hg' hd he he' htwins fun e₁ he₁ e₁' he₁' htwins₁ htarget => ?_
    obtain ⟨s, hs, hes, hes'⟩ := htwins₁
    have hfeeds : c.diagram.Feeds s.source.block id :=
      ⟨s, hs, rfl, by simpa [hes.target, hsource] using htarget⟩
    exact ih s.source.block hfeeds e₁ he₁ e₁' he₁' ⟨s, hs, hes, hes'⟩ hes.source
  rintro e he e' he' ⟨s, hs, hes, hes'⟩
  refine hall s.source.block ?_ e he e' he' ⟨s, hs, hes, hes'⟩ hes.source
  simpa [Diagram.hasBlock] using (Diagram.mem_attached.mp hs).2.1

end Propagation

end SignalFlow
