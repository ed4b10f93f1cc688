import Mathlib.Data.Finset.Card
import Mathlib.Data.Finset.Range
import SignalFlow.Proofs.LoopSearch
import SignalFlow.Proofs.Processing

/-!
# Visiting all nodes

Visits are stated without a bound on their depth.  They rest on one fact about where a
visit can be: a node that is visited leads to every active node.  So a node that is active
when it is visited lies on a loop, the search finds one, and the members of this loop are
processed before the visit ends.

A visit goes deeper only if it makes a node active or takes one up into a loop that is
being resolved, which bounds the depth by twice the number of nodes.

**Results.**
* `Visits.visited`: what visits do to the nodes, over any number of visits.
* `visits_foldl`: the bounded visits are visits, if there are fewer open nodes than levels.
-/

open Relation (TransGen)

namespace SignalFlow
namespace Propagation

variable {R : Type}

/-- The node is done, or a loop that it belongs to is being resolved. -/
def Passed (st : Propagation R) (n : Nat) : Prop :=
  n ∈ st.done ∨ n ∈ st.resolving

instance (st : Propagation R) (n : Nat) : Decidable (st.Passed n) :=
  inferInstanceAs (Decidable (n ∈ st.done ∨ n ∈ st.resolving))

variable [Scalar R]

/-- The last active node is no longer active, and is processed. -/
def leave (c : Setting) (st : Propagation R) (n : NodeId) : Propagation R :=
  processNew c st.pop n

/-- Visits to nodes in turn, however deep they go. -/
inductive Visits (c : Setting) : Propagation R → List NodeId → Propagation R → Prop
  | nil (st : Propagation R) : Visits c st [] st
  | skip {st st' : Propagation R} {n : NodeId} {ns : List NodeId} (hn : st.Passed n)
      (hrest : Visits c st ns st') : Visits c st (n :: ns) st'
  /-- Reaching an active node that lies on no loop settles it without processing it. -/
  | stray {st st' : Propagation R} {n : NodeId} {ns : List NodeId} (hn : ¬ st.Passed n)
      (hactive : n ∈ st.active) (hnone : st.graph.cycleThrough n = [])
      (hrest : Visits c (st.markDone n) ns st') : Visits c st (n :: ns) st'
  | loop {st st₁ st' : Propagation R} {n : NodeId} {ns : List NodeId} (hn : ¬ st.Passed n)
      (hactive : n ∈ st.active) (hsome : st.graph.cycleThrough n ≠ [])
      (hsources : Visits c (st.enterLoop (st.graph.cycleThrough n))
        (outerSources st.graph (st.graph.cycleThrough n)) st₁)
      (hrest : Visits c ((finishLoop c n (st.graph.cycleThrough n) st₁).markDone n) ns
        st') :
      Visits c st (n :: ns) st'
  | path {st st₁ st' : Propagation R} {n : NodeId} {ns : List NodeId} (hn : ¬ st.Passed n)
      (hactive : n ∉ st.active)
      (hsources : Visits c (st.enter n) (st.graph.predecessors n) st₁)
      (hrest : Visits c (leave c st₁ n) ns st') : Visits c st (n :: ns) st'

variable {c : Setting} {st st₁ st₂ st' : Propagation R} {n : Nat} {ns : List Nat}

theorem Visits.unique (h₁ : Visits c st ns st₁) (h₂ : Visits c st ns st₂) : st₁ = st₂ := by
  induction h₁ generalizing st₂ with
  | nil st =>
      cases h₂
      rfl
  | skip hn _ ih =>
      cases h₂ with
      | skip _ hrest => exact ih hrest
      | stray hn' => exact absurd hn hn'
      | loop hn' => exact absurd hn hn'
      | path hn' => exact absurd hn hn'
  | stray hn hactive hnone _ ih =>
      cases h₂ with
      | skip hn' => exact absurd hn' hn
      | stray _ _ _ hrest => exact ih hrest
      | loop _ _ hsome => exact absurd hnone hsome
      | path _ hactive' => exact absurd hactive hactive'
  | loop hn hactive hsome _ _ ihsources ihrest =>
      cases h₂ with
      | skip hn' => exact absurd hn' hn
      | stray _ _ hnone => exact absurd hnone hsome
      | loop _ _ _ hsources hrest =>
          obtain rfl := ihsources hsources
          exact ihrest hrest
      | path _ hactive' => exact absurd hactive hactive'
  | path hn hactive _ _ ihsources ihrest =>
      cases h₂ with
      | skip hn' => exact absurd hn' hn
      | stray _ hactive' => exact absurd hactive' hactive
      | loop _ hactive' => exact absurd hactive' hactive
      | path _ _ hsources hrest =>
          obtain rfl := ihsources hsources
          exact ihrest hrest

section Preconditions

/-- A node of the graph that leads to every active node. -/
def Leads (st : Propagation R) (n : Nat) : Prop :=
  n < st.graph.nodes.length ∧ ∀ a ∈ st.active, TransGen st.graph.Feeds n a

omit [Scalar R]

theorem Leads.advance (h : st.Leads n) (hst : st.Advances st') : st'.Leads n := by
  unfold Leads
  rw [hst.graph.length_nodes, hst.graph.feeds, hst.active]
  exact h

/-- An active node that is visited lies on a loop. -/
theorem Leads.loopAt (h : st.Leads n) (hg : st.graph.Wired) (hactive : n ∈ st.active) :
    st.graph.LoopAt n (st.graph.cycleThrough n) :=
  (hg.cycleThrough_cases h.1).resolve_right fun hnone => hnone.2 (h.2 n hactive)

/-- The search finds the loop, so that no active node is passed over. -/
theorem Leads.cycleThrough_ne_nil (h : st.Leads n) (hg : st.graph.Wired)
    (hactive : n ∈ st.active) : st.graph.cycleThrough n ≠ [] :=
  List.ne_nil_of_mem (h.loopAt hg hactive).mem

theorem Leads.outerSources (h : st.Leads n) (hg : st.graph.Wired)
    (hactive : n ∈ st.active) {m : Nat}
    (hm : m ∈ outerSources st.graph (st.graph.cycleThrough n)) :
    (st.enterLoop (st.graph.cycleThrough n)).Leads m := by
  obtain ⟨k, hk, hmk⟩ := List.mem_flatMap.mp hm
  have hfeeds : st.graph.Feeds m k := hg.mem_predecessors.mp (List.mem_filter.mp hmk).1
  have hloop := (h.loopAt hg hactive).transGen hk
  exact ⟨(hg.lt_of_feeds hfeeds).1, fun a ha =>
    TransGen.head hfeeds (hloop.trans (h.2 a ha))⟩

theorem Leads.predecessors (h : st.Leads n) (hg : st.graph.Wired) {m : Nat}
    (hm : m ∈ st.graph.predecessors n) : (st.enter n).Leads m := by
  have hfeeds : st.graph.Feeds m n := hg.mem_predecessors.mp hm
  refine ⟨(hg.lt_of_feeds hfeeds).1, fun a ha => ?_⟩
  rcases List.mem_append.mp ha with ha | ha
  · exact TransGen.head hfeeds (h.2 a ha)
  · rw [List.mem_singleton.mp ha]
    exact TransGen.single hfeeds

end Preconditions

/-- What visits do: nodes that were passed stay so, the visited ones are passed too, and no
loop is left that was not being resolved before. -/
structure Visited (c : Setting) (st : Propagation R) (ns : List Nat)
    (st' : Propagation R) : Prop where
  advances : st.Advances st'
  orderly : Orderly c st'.graph st'.done
  passed : ∀ n, st.Passed n → st'.Passed n
  resolving : st'.resolving ⊆ st.resolving
  visited : ∀ n ∈ ns, st'.Passed n

section Steps

omit [Scalar R] in
theorem Visited.cons (h : Visited c st [n] st₁) (h' : Visited c st₁ ns st') :
    Visited c st (n :: ns) st' where
  advances := h.advances.trans h'.advances
  orderly := h'.orderly
  passed m hm := h'.passed m (h.passed m hm)
  resolving m hm := h.resolving (h'.resolving hm)
  visited := by
    rw [List.forall_mem_cons]
    exact ⟨h'.passed n (h.visited n (by simp)), h'.visited⟩

omit [Scalar R] in
theorem visited_skip (h : Orderly c st.graph st.done) (hn : st.Passed n) :
    Visited c st [n] st :=
  ⟨.refl st, h, fun _ hm => hm, fun _ hm => hm, by simpa using hn⟩

omit [Scalar R] in
theorem markDone_of_mem (h : n ∈ st.done) : st.markDone n = st := by
  simp [markDone, insertLast, h]

/-- The node is a member of its loop, and done with the others. -/
theorem markDone_finishLoop (h : Orderly c st.graph st.done) (hn : st.Leads n)
    (hactive : n ∈ st.active)
    (hsources : Visited c (st.enterLoop (st.graph.cycleThrough n)) ns st₁) :
    (finishLoop c n (st.graph.cycleThrough n) st₁).markDone n =
      finishLoop c n (st.graph.cycleThrough n) st₁ := by
  have hloop := hn.loopAt h.wired hactive
  have hlength : st₁.graph.nodes.length = st.graph.nodes.length :=
    hsources.advances.graph.length_nodes
  have hfinished := finished_finishLoop hsources.orderly hloop.mem fun m hm =>
    hlength ▸ hloop.lt hm
  exact markDone_of_mem (hfinished.mem_done n hloop.mem)

/-- The members of the loop that an active node lies on are processed. -/
theorem visited_loop (h : Orderly c st.graph st.done) (hn : st.Leads n)
    (hactive : n ∈ st.active)
    (hsources : Visited c (st.enterLoop (st.graph.cycleThrough n)) ns st₁) :
    Visited c st [n] (finishLoop c n (st.graph.cycleThrough n) st₁) := by
  have hloop := hn.loopAt h.wired hactive
  obtain ⟨hgraph, hdone, hsame⟩ := hsources.advances
  have hadvances : st.Advances st₁ := ⟨hgraph, hdone, hsame⟩
  have hfinished := finished_finishLoop hsources.orderly hloop.mem fun m hm => by
    rw [hadvances.graph.length_nodes]
    exact hloop.lt hm
  refine ⟨hadvances.trans hfinished.advances, hfinished.orderly, fun m hm =>
    ?_, fun m hm => ?_, ?_⟩
  · have hm₁ : st₁.Passed m := hsources.passed m (hm.imp_right (List.mem_append_left _))
    by_cases hmember : m ∈ st.graph.cycleThrough n
    · exact Or.inl (hfinished.mem_done m hmember)
    · refine hm₁.imp (fun h => hfinished.advances.done.subset h) fun h => ?_
      rw [hfinished.resolving]
      exact List.mem_filter.mpr ⟨h, by simpa using hmember⟩
  · rw [hfinished.resolving, List.mem_filter] at hm
    have hmember : m ∉ st.graph.cycleThrough n := by simpa using hm.2
    exact (List.mem_append.mp (hsources.resolving hm.1)).resolve_right hmember
  · rw [List.forall_mem_singleton]
    exact Or.inl (hfinished.mem_done n hloop.mem)

/-- A node is processed behind the nodes that feed it. -/
theorem visited_path (hn : st.Leads n) (hsources : Visited c (st.enter n) ns st₁) :
    Visited c st [n] (leave c st₁ n) := by
  obtain ⟨hgraph, hdone, hsame⟩ := hsources.advances
  have hadvances : st.Advances st₁.pop := by
    refine ⟨hgraph, hdone, ?_⟩
    show st₁.active.dropLast = st.active
    rw [hsame]
    exact List.dropLast_concat
  have horderly : Orderly c st₁.pop.graph st₁.pop.done := hsources.orderly
  have hprocessed : Processed c st₁.pop n (leave c st₁ n) :=
    processed_processNew horderly (hadvances.graph.length_nodes ▸ hn.1)
  refine ⟨hadvances.trans hprocessed.advances, hprocessed.orderly, fun m hm =>
    ?_, fun m hm => ?_, ?_⟩
  · refine (hsources.passed m hm).imp (fun h => hprocessed.advances.done.subset h) fun h =>
      ?_
    rw [hprocessed.resolving]
    exact h
  · rw [hprocessed.resolving] at hm
    exact hsources.resolving hm
  · rw [List.forall_mem_singleton]
    exact Or.inl hprocessed.mem_done

end Steps

/-- Any number of visits does what one visit does. -/
theorem Visits.visited (h : Visits c st ns st') (ho : Orderly c st.graph st.done)
    (hns : ∀ n ∈ ns, st.Leads n) : Visited c st ns st' := by
  induction h with
  | nil st => exact ⟨.refl st, ho, fun _ hm => hm, fun _ hm => hm, by simp⟩
  | skip hn _ ih =>
      rw [List.forall_mem_cons] at hns
      exact (visited_skip ho hn).cons (ih ho hns.2)
  | stray _ hactive hnone _ _ =>
      rw [List.forall_mem_cons] at hns
      exact absurd hnone (hns.1.cycleThrough_ne_nil ho.wired hactive)
  | loop _ hactive _ _ _ ihsources ihrest =>
      rw [List.forall_mem_cons] at hns
      have hvisited := ihsources ho fun m hm => hns.1.outerSources ho.wired hactive hm
      have hfirst := visited_loop ho hns.1 hactive hvisited
      rw [markDone_finishLoop ho hns.1 hactive hvisited] at ihrest
      exact hfirst.cons (ihrest hfirst.orderly fun m hm =>
        (hns.2 m hm).advance hfirst.advances)
  | path _ _ _ _ ihsources ihrest =>
      rw [List.forall_mem_cons] at hns
      have hfirst := visited_path hns.1 (ihsources ho fun m hm =>
        hns.1.predecessors ho.wired hm)
      exact hfirst.cons (ihrest hfirst.orderly fun m hm =>
        (hns.2 m hm).advance hfirst.advances)

/-- Visits settle nodes by processing them only. -/
theorem Visits.settled (h : Visits c st ns st') (hst : st.Settled)
    (ho : Orderly c st.graph st.done) (hns : ∀ n ∈ ns, st.Leads n) : st'.Settled := by
  induction h with
  | nil st => exact hst
  | skip hn _ ih =>
      rw [List.forall_mem_cons] at hns
      exact ih hst ho hns.2
  | stray _ hactive hnone _ _ =>
      rw [List.forall_mem_cons] at hns
      exact absurd hnone (hns.1.cycleThrough_ne_nil ho.wired hactive)
  | loop _ hactive _ hsources _ ihsources ihrest =>
      rw [List.forall_mem_cons] at hns
      have hleads := fun m hm => hns.1.outerSources (m := m) ho.wired hactive hm
      have hvisited := hsources.visited ho hleads
      have hfirst := visited_loop ho hns.1 hactive hvisited
      rw [markDone_finishLoop ho hns.1 hactive hvisited] at ihrest
      exact ihrest (settled_finishLoop (ihsources hst ho hleads) c _ _) hfirst.orderly
        fun m hm => (hns.2 m hm).advance hfirst.advances
  | @path _ st₁ _ _ _ _ _ hsources _ ihsources ihrest =>
      rw [List.forall_mem_cons] at hns
      have hleads := fun m hm => hns.1.predecessors (m := m) ho.wired hm
      have hfirst := visited_path hns.1 (hsources.visited ho hleads)
      have hpop : st₁.pop.Settled := ihsources hst ho hleads
      exact ihrest (settled_processNew hpop c _) hfirst.orderly
        fun m hm => (hns.2 m hm).advance hfirst.advances

section Depth

/-- The nodes that are not active, and those that are not passed. -/
def openNodes (st : Propagation R) : Nat :=
  {n ∈ Finset.range st.graph.nodes.length | n ∉ st.active}.card
    + {n ∈ Finset.range st.graph.nodes.length | ¬ st.Passed n}.card

omit [Scalar R]

theorem openNodes_le_twice (st : Propagation R) :
    st.openNodes ≤ 2 * st.graph.nodes.length := by
  rw [Nat.two_mul, openNodes]
  have hle := fun (p : Nat → Prop) [DecidablePred p] =>
    Finset.card_filter_le (Finset.range st.graph.nodes.length) p
  simp only [Finset.card_range] at hle
  exact Nat.add_le_add (hle _) (hle _)

theorem openNodes_le (h : Visited c st ns st') : st'.openNodes ≤ st.openNodes := by
  unfold openNodes
  rw [h.advances.graph.length_nodes, h.advances.active]
  refine Nat.add_le_add_left (Finset.card_le_card fun m hm => ?_) _
  rw [Finset.mem_filter] at hm ⊢
  exact ⟨hm.1, fun hpassed => hm.2 (h.passed m hpassed)⟩

theorem openNodes_enter (hn : n < st.graph.nodes.length) (hactive : n ∉ st.active) :
    (st.enter n).openNodes < st.openNodes := by
  refine Nat.add_lt_add_right
    (Finset.card_lt_card (Finset.ssubset_iff_subset_ne.mpr ⟨?_, ?_⟩)) _
  · intro m hm
    simp only [enter, Finset.mem_filter, List.mem_append, not_or] at hm ⊢
    exact ⟨hm.1, hm.2.1⟩
  · intro heq
    have hmem : n ∈ {m ∈ Finset.range st.graph.nodes.length | m ∉ st.active} := by
      simp [hn, hactive]
    rw [← heq] at hmem
    simp [enter] at hmem

theorem openNodes_enterLoop {members : List Nat} (hn : n < st.graph.nodes.length)
    (hnew : ¬ st.Passed n) (hmember : n ∈ members) :
    (st.enterLoop members).openNodes < st.openNodes := by
  refine Nat.add_lt_add_left
    (Finset.card_lt_card (Finset.ssubset_iff_subset_ne.mpr ⟨?_, ?_⟩)) _
  · intro m hm
    rw [Finset.mem_filter] at hm ⊢
    exact ⟨hm.1, fun hpassed => hm.2 (hpassed.imp_right (List.mem_append_left _))⟩
  · intro heq
    have hmem : n ∈ {m ∈ Finset.range st.graph.nodes.length | ¬ st.Passed m} := by
      simp [hn, hnew]
    rw [← heq] at hmem
    exact (Finset.mem_filter.mp hmem).2 (Or.inr (List.mem_append_right _ hmember))

end Depth

/-- Visit a node down to the given depth, as if inputs could always be counted. -/
def visit (c : Setting) (depth : Nat) (st : Propagation R) (n : NodeId) : Propagation R :=
  Id.run ((Steps.unchecked c).visit c depth st n)

/-- One level of a visit. -/
theorem visit_succ (c : Setting) (depth : Nat) (st : Propagation R) (n : NodeId) :
    visit c (depth + 1) st n =
      if st.done.contains n || st.resolving.contains n then st
      else if st.active.contains n then
        if (st.graph.cycleThrough n).isEmpty then st.markDone n
        else
          (finishLoop c n (st.graph.cycleThrough n)
            ((outerSources st.graph (st.graph.cycleThrough n)).foldl
            (visit c depth) (st.enterLoop (st.graph.cycleThrough n)))).markDone n
      else leave c ((st.graph.predecessors n).foldl (visit c depth) (st.enter n)) n := by
  unfold visit
  rw [Steps.visit]
  split
  · rfl
  · split
    · dsimp only
      split
      · rfl
      · simp only [Id.run_bind, List.idRun_foldlM]
        rfl
    · simp only [Id.run_bind, List.idRun_foldlM]
      rfl

theorem run_eq (c : Setting) (order : RunOrder) (g : FlowGraph R) :
    run c order g = (starts (seeded c g) order).foldl
      (visit c (2 * (seeded c g).nodes.length + 2)) { graph := seeded c g } := by
  unfold run Steps.run
  simp only [List.idRun_foldlM]
  rfl

/-- The bounded visits are visits, if there are fewer open nodes than levels. -/
theorem visits_foldl {depth : Nat} (ho : Orderly c st.graph st.done)
    (hns : ∀ n ∈ ns, st.Leads n) (hdepth : st.openNodes < depth) :
    Visits c st ns (ns.foldl (visit c depth) st) := by
  induction depth generalizing st ns with
  | zero => omega
  | succ depth ihdepth =>
      induction ns generalizing st with
      | nil => exact .nil st
      | cons n ns ih =>
          rw [List.forall_mem_cons] at hns
          -- What the first visit leaves is a state for the rest.
          have hcons : ∀ {st₁}, Visited c st [n] st₁ →
              Visits c st₁ ns (ns.foldl (visit c (depth + 1)) st₁) := by
            intro st₁ hfirst
            have hle := openNodes_le hfirst
            exact ih hfirst.orderly
              (fun m hm => (hns.2 m hm).advance hfirst.advances) (by omega)
          rw [List.foldl_cons, visit_succ]
          split
          · next hpassed =>
              have hn : st.Passed n := by simpa [Passed] using hpassed
              exact .skip hn (hcons (visited_skip ho hn))
          · next hnew =>
              have hn : ¬ st.Passed n := by simpa [Passed] using hnew
              split
              · next hmem =>
                  have hactive : n ∈ st.active := by simpa using hmem
                  have hlt :=
                    openNodes_enterLoop hns.1.1 hn (hns.1.loopAt ho.wired hactive).mem
                  have hleads := fun m hm =>
                    hns.1.outerSources (m := m) ho.wired hactive hm
                  have hsources : Visits c (st.enterLoop _) _ _ :=
                    ihdepth ho hleads (by omega)
                  have hvisited := hsources.visited ho hleads
                  have hsome := hns.1.cycleThrough_ne_nil ho.wired hactive
                  have hfirst := visited_loop ho hns.1 hactive hvisited
                  rw [← markDone_finishLoop ho hns.1 hactive hvisited] at hfirst
                  rw [if_neg (by simpa using hsome)]
                  exact .loop hn hactive hsome hsources (hcons hfirst)
              · next hmem =>
                  have hactive : n ∉ st.active := by simpa using hmem
                  have hlt := openNodes_enter hns.1.1 hactive
                  have hleads := fun m hm => hns.1.predecessors (m := m) ho.wired hm
                  have hsources : Visits c (st.enter n) _ _ := ihdepth ho hleads (by omega)
                  exact .path hn hactive hsources
                    (hcons (visited_path hns.1 (hsources.visited ho hleads)))

end Propagation
end SignalFlow
