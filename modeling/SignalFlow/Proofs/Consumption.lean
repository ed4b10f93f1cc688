import SignalFlow.Proofs.LoopRecords

/-!
# Consumption of facts

Crossing a node consumes every fact on the edges into it, and changes no other edges than
those into it and out of it.  In a graph without loops a node is processed behind all that
feed it.  So nothing is written any more to the edges into a node that has been processed,
and their facts stay consumed.

**Results.**
* `edges_cross_of_ne`, `unconsumed_cross`: which edges crossing a node leaves alone, and
  whose facts it consumes.
* `Visits.invariant`: without loops, what processing keeps behind all feeders is kept over
  visits.
* `Visits.drained`: without loops, the facts on the edges into processed nodes are
  consumed.
-/

namespace SignalFlow

variable {R : Type}

namespace Edge

theorem mem_unconsumed {e : Edge R} {i : Nat} :
    i ∈ e.unconsumed ↔ i < e.facts.length ∧ e.consumed[i]? = some false := by
  unfold unconsumed
  rw [List.mem_filter, List.mem_range, Option.any_eq_true]
  simp

/-- After the facts at some positions have been consumed, those that were consumed before
are so still. -/
theorem getElem?_consumed_foldl_consume (is : List Nat) (e : Edge R) (k : Nat) :
    (is.foldl consume e).consumed[k]? = e.consumed[k]?.map fun flag =>
      flag || decide (k ∈ is) := by
  induction is generalizing e with
  | nil => simp
  | cons i is ih =>
      rw [List.foldl_cons, ih, consume, List.getElem?_set]
      by_cases hik : i = k
      · subst hik
        cases hflag : e.consumed[i]? with
        | none => simp [List.getElem?_eq_none_iff.mp hflag]
        | some flag => simp [(List.getElem?_eq_some_iff.mp hflag).1]
      · have hki : k ≠ i := fun h => hik h.symm
        simp [hik, hki]

theorem facts_foldl_consume (is : List Nat) (e : Edge R) :
    (is.foldl consume e).facts = e.facts :=
  List.foldlRecOn (motive := fun e' : Edge R => e'.facts = e.facts) is _ rfl
    fun _ he' _ _ => he'

/-- No fact is left once all that were open have been consumed. -/
theorem unconsumed_foldl_unconsumed (e : Edge R) :
    (e.unconsumed.foldl consume e).unconsumed = [] := by
  refine List.eq_nil_iff_forall_not_mem.mpr fun k hk => ?_
  rw [mem_unconsumed, facts_foldl_consume, getElem?_consumed_foldl_consume] at hk
  obtain ⟨hlt, hopen⟩ := hk
  obtain ⟨flag, hflag, hfalse⟩ := Option.map_eq_some_iff.mp hopen
  obtain ⟨rfl, hnot⟩ : flag = false ∧ k ∉ e.unconsumed := by simpa using hfalse
  exact hnot (mem_unconsumed.mpr ⟨hlt, hflag⟩)

end Edge

namespace FlowGraph

variable {g : FlowGraph R}

/-- Edges that are not named keep as they are. -/
theorem getElem?_foldl_modifyEdge (f : Edge R → Edge R → Edge R)
    {es : List (Edge R)} {k : Nat} (hk : ∀ e ∈ es, e.id ≠ k) (g : FlowGraph R) :
    (es.foldl (fun g e => g.modifyEdge e.id (f e)) g).edges[k]? = g.edges[k]? := by
  induction es generalizing g with
  | nil => rfl
  | cons e es ih =>
      rw [List.forall_mem_cons] at hk
      rw [List.foldl_cons, ih hk.2, modifyEdge, List.getElem?_modify]
      simp [hk.1]

/-- The edge at a position, if there is one, does not leave the node. -/
def Apart (g : FlowGraph R) (n k : Nat) : Prop :=
  ∀ e, g.edges[k]? = some e → e.source.node ≠ n

theorem Wired.id_ne_of_apart (h : g.Wired) {n k : Nat} (hk : g.Apart n k) {e : Edge R}
    (he : e ∈ g.outgoing n) : e.id ≠ k := by
  rintro rfl
  obtain ⟨hmem, hsource⟩ := h.mem_outgoing.mp he
  exact hk e (h.getElem?_id hmem) hsource

theorem Extends.apart {g' : FlowGraph R} (h : g.Extends g') {n k : Nat}
    (hk : g.Apart n k) : g'.Apart n k := by
  intro e' he'
  obtain ⟨e, he, hbare, _⟩ := h.exists_edge he'
  exact fun hn => hk e he (Edge.source_of_bare hbare ▸ hn)

variable [Scalar R]

theorem edges_writeOutgoing_of_apart (h : g.Wired) {n k : Nat} (hk : g.Apart n k)
    (p : Fact R) : (g.writeOutgoing n p).edges[k]? = g.edges[k]? :=
  getElem?_foldl_modifyEdge (fun e edge => edge.addFact (p.retarget e.term))
    (fun _ he => h.id_ne_of_apart hk he) g

theorem edges_fillDefaults_of_apart (h : g.Wired) {n k : Nat} (hk : g.Apart n k) :
    (g.fillDefaults n).edges[k]? = g.edges[k]? :=
  getElem?_foldl_modifyEdge (fun _ e => e.addFacts (defaults e))
    (fun _ he => h.id_ne_of_apart hk he) g

theorem edges_applyEffect_of_apart (h : g.Wired) {n k : Nat} (hk : g.Apart n k)
    (effect : Effect R) : (g.applyEffect n effect).edges[k]? = g.edges[k]? := by
  cases effect with
  | propagate p =>
      simp only [applyEffect]
      split
      · rfl
      · exact edges_writeOutgoing_of_apart h hk p
  | attach p => rfl
  | stop => rfl

section Crossing

variable {n k : Nat} {x : Crossing R}

/-- Advancing a fact consumes it. -/
theorem edges_advance (hx : x.graph.Wired) (hk : x.graph.Apart n k)
    (effect : Fact R → Effect R) {j i : Nat}
    (hi : ∀ e, x.graph.edges[j]? = some e → i < e.facts.length) :
    (Crossing.advance effect n j x i).graph.edges[k]? =
      x.graph.edges[k]?.map fun e => if j = k then e.consume i else e := by
  have hconsume : ∀ g : FlowGraph R, (g.modifyEdge j fun e => e.consume i).edges[k]? =
      g.edges[k]?.map fun e => if j = k then e.consume i else e := by
    intro g
    rw [modifyEdge, List.getElem?_modify, Option.map_eq_map]
  unfold Crossing.advance
  split
  · next hnone =>
      cases hedge : x.graph.edges[k]? with
      | none => rfl
      | some e =>
          have hjk : j ≠ k := by
            rintro rfl
            have hlt := hi e hedge
            simp [hedge, hlt] at hnone
          simp [hjk]
  · dsimp only
    split
    · exact hconsume x.graph
    · rw [hconsume, edges_applyEffect_of_apart hx hk]

theorem edges_foldl_advance (hx : x.graph.Wired) (hk : x.graph.Apart n k)
    (effect : Fact R → Effect R) {j : Nat} {is : List Nat}
    (his : ∀ i ∈ is, ∀ e, x.graph.edges[j]? = some e → i < e.facts.length) :
    (is.foldl (Crossing.advance effect n j) x).graph.edges[k]? =
      x.graph.edges[k]?.map fun e => if j = k then is.foldl Edge.consume e else e := by
  induction is generalizing x with
  | nil => simp
  | cons i is ih =>
      rw [List.forall_mem_cons] at his
      have hextends := extends_advance effect n j x i
      have hrest : ∀ i' ∈ is, ∀ e,
          (Crossing.advance effect n j x i).graph.edges[j]? = some e →
          i' < e.facts.length := by
        intro i' hi' e he
        obtain ⟨e₀, he₀, _, hfacts⟩ := hextends.exists_edge he
        exact Nat.lt_of_lt_of_le (his.2 i' hi' e₀ he₀) hfacts.length_le
      rw [List.foldl_cons, ih (hextends.wired hx) (hextends.apart hk) hrest,
        edges_advance hx hk effect his.1, Option.map_map]
      refine congrArg (fun f => x.graph.edges[k]?.map f) (funext fun e => ?_)
      by_cases hjk : j = k <;> simp [hjk]

/-- Advancing the facts of an edge consumes them, and leaves the other edges alone. -/
theorem edges_advanceEdge (hx : x.graph.Wired) (hk : x.graph.Apart n k)
    (effect : Nat → Fact R → Effect R) (e : Edge R) :
    (Crossing.advanceEdge effect n x e).graph.edges[k]? =
      x.graph.edges[k]?.map fun e' => if e.id = k then e'.unconsumed.foldl Edge.consume e'
        else e' := by
  unfold Crossing.advanceEdge
  rw [edges_foldl_advance hx hk]
  · by_cases hek : e.id = k
    · subst hek
      cases hedge : x.graph.edges[e.id]? <;> simp
    · simp [hek]
  · intro i hi edge hedge
    rw [hedge, Option.map_some, Option.getD_some] at hi
    exact (Edge.mem_unconsumed.mp hi).1

/-- Edges whose facts are advanced have them consumed, the others are as they were. -/
theorem edges_foldl_advanceEdge (hx : x.graph.Wired) (hk : x.graph.Apart n k)
    (effect : Nat → Fact R → Effect R) (es : List (Edge R)) :
    ((∀ e ∈ es, e.id ≠ k) →
        (es.foldl (Crossing.advanceEdge effect n) x).graph.edges[k]? = x.graph.edges[k]?) ∧
      ∀ e', (es.foldl (Crossing.advanceEdge effect n) x).graph.edges[k]? = some e' →
        (∃ e ∈ es, e.id = k) → e'.unconsumed = [] := by
  induction es generalizing x with
  | nil => exact ⟨fun _ => rfl, by simp⟩
  | cons e es ih =>
      have hextends := extends_advanceEdge effect n x e
      obtain ⟨ihkeep, ihconsumed⟩ := ih (hextends.wired hx) (hextends.apart hk)
      have hedge := edges_advanceEdge hx hk effect e
      rw [List.foldl_cons]
      refine ⟨fun hne => ?_, fun e' he' hmem => ?_⟩
      · rw [List.forall_mem_cons] at hne
        rw [ihkeep hne.2, hedge]
        simp [hne.1]
      · by_cases hlater : ∃ e ∈ es, e.id = k
        · exact ihconsumed e' he' hlater
        · -- The edge has its turn now, and never again.
          push Not at hlater
          have hid : e.id = k := by
            obtain ⟨e₁, he₁, hid⟩ := hmem
            rcases List.mem_cons.mp he₁ with rfl | he₁
            · exact hid
            · exact absurd hid (hlater e₁ he₁)
          rw [ihkeep hlater, hedge] at he'
          obtain ⟨e₀, _, rfl⟩ := Option.map_eq_some_iff.mp he'
          rw [if_pos hid]
          exact e₀.unconsumed_foldl_unconsumed

end Crossing

section Cross

variable {n : Nat} {rule : TransferRule R} {b : Block} {i : Nat} {e : Edge R}

/-- The facts on the edges into a node are consumed, and other edges that do not leave it
stay as they are. -/
theorem edges_cross (h : g.Wired) {k : Nat} (hk : g.Apart n k) :
    ((∀ e ∈ g.incoming n, e.id ≠ k) → (g.cross rule b n).edges[k]? = g.edges[k]?) ∧
      ∀ e', (g.cross rule b n).edges[k]? = some e' → (∃ e ∈ g.incoming n, e.id = k) →
        e'.unconsumed = [] := by
  have hextends := extends_foldl_advanceEdge (rule.advance (g.site b n)) n ⟨g, []⟩
    (g.incomingByPin n)
  obtain ⟨hkeep, hconsumed⟩ := edges_foldl_advanceEdge (x := ⟨g, []⟩) h hk
    (rule.advance (g.site b n)) (g.incomingByPin n)
  have hmem : ∀ e, e ∈ g.incomingByPin n ↔ e ∈ g.incoming n := fun e => List.mem_mergeSort
  simp only [hmem] at hkeep hconsumed
  unfold cross
  dsimp only
  rw [edges_fillDefaults_of_apart (hextends.wired h) (hextends.apart hk)]
  exact ⟨hkeep, hconsumed⟩

/-- Crossing a node leaves the edges alone that do not touch it. -/
theorem edges_cross_of_ne (h : g.Wired) (hi : g.edges[i]? = some e)
    (hsource : e.source.node ≠ n) (htarget : e.target.node ≠ n) :
    (g.cross rule b n).edges[i]? = some e := by
  have hk : g.Apart n i := by
    intro e' he'
    obtain rfl : e = e' := by simpa [hi] using he'
    exact hsource
  rw [(edges_cross h hk).1, hi]
  rintro e' he' rfl
  obtain ⟨hmem, hnode⟩ := h.mem_incoming.mp he'
  obtain rfl : e = e' := by simpa [hi] using h.getElem?_id hmem
  exact htarget hnode

/-- Crossing a node consumes the facts on the edges into it that do not leave it again. -/
theorem unconsumed_cross (h : g.Wired) (he : e ∈ (g.cross rule b n).edges)
    (hsource : e.source.node ≠ n) (htarget : e.target.node = n) : e.unconsumed = [] := by
  obtain ⟨k, hk⟩ := List.mem_iff_getElem?.mp he
  obtain ⟨e₀, he₀, hbare, _⟩ := (g.extends_cross rule b n).exists_edge hk
  have hsource₀ : e₀.source.node ≠ n := Edge.source_of_bare hbare ▸ hsource
  have htarget₀ : e₀.target.node = n := Edge.target_of_bare hbare ▸ htarget
  have hapart : g.Apart n k := by
    intro e' he'
    obtain rfl : e₀ = e' := by simpa [he₀] using he'
    exact hsource₀
  refine (edges_cross h hapart).2 e hk ⟨e₀, ?_, h.edge_id k e₀ he₀⟩
  exact h.mem_incoming.mpr ⟨List.mem_of_getElem? he₀, htarget₀⟩

end Cross

end FlowGraph

namespace Propagation

variable {c : Setting} {st st' : Propagation R} {n : Nat} {ns : List Nat}

/-- What feeds a processed node has been processed too, and the facts on the edges into it
are consumed. -/
structure Drained (st : Propagation R) : Prop where
  behind : ∀ m n, st.graph.Feeds m n → n ∈ st.done → m ∈ st.done
  consumed : ∀ e ∈ st.graph.edges, e.target.node ∈ st.done → e.unconsumed = []

/-- A node that is to be processed, behind all that feed it. -/
structure Due (c : Setting) (st : Propagation R) (n : NodeId) : Prop where
  orderly : Orderly c st.graph st.done
  lt : n < st.graph.nodes.length
  not_done : n ∉ st.done
  not_self : ¬ st.graph.Feeds n n
  feeders : ∀ m, st.graph.Feeds m n → m ∈ st.done

/-- What feeds the node or a processed one has been processed. -/
theorem Due.mem_done_of_feeds (h : Due c st n)
    (hbehind : ∀ m n, st.graph.Feeds m n → n ∈ st.done → m ∈ st.done) {m k : Nat}
    (hmk : st.graph.Feeds m k) (hk : k ∈ st.done ++ [n]) : m ∈ st.done := by
  rcases List.mem_append.mp hk with hk | hk
  · exact hbehind m k hmk hk
  · rw [List.mem_singleton.mp hk] at hmk
    exact h.feeders m hmk

variable [Scalar R]

/-- Processing a node crosses its block. -/
theorem Due.process (h : Due c st n) : ∃ b, c.block? st.graph n = some b ∧
    (st.process c n).graph = st.graph.cross (c.rule b) b n ∧
      (st.process c n).done = st.done ++ [n] := by
  obtain ⟨b, hb⟩ := Option.isSome_iff_exists.mp (h.orderly.isSome_block n h.lt)
  have hdone := (st.keeps_warnUnknown c b).done
  exact ⟨b, hb, by simp [Propagation.process, hb], by
    simp [Propagation.process, hb, hdone]⟩

theorem drained_process (h : st.Drained) (hn : Due c st n) : (st.process c n).Drained := by
  obtain ⟨b, _, hgraph, hdone⟩ := hn.process
  have hextends := st.graph.extends_cross (c.rule b) b n
  refine ⟨fun m k hmk hk => ?_, fun e he htarget => ?_⟩
  · rw [hgraph, hextends.feeds] at hmk
    rw [hdone] at hk ⊢
    exact List.mem_append_left _ (hn.mem_done_of_feeds h.behind hmk hk)
  · rw [hgraph] at he
    rw [hdone] at htarget
    have hfeed : st.graph.Feeds e.source.node e.target.node := by
      rw [← hextends.feeds]
      exact ⟨e, he, rfl, rfl⟩
    rcases List.mem_append.mp htarget with htarget | htarget
    · -- The facts of the edge have been consumed before, and this node does not feed it.
      have hsource : e.source.node ≠ n := fun heq =>
        hn.not_done (heq ▸ h.behind _ _ hfeed htarget)
      have hne : e.target.node ≠ n := fun heq => hn.not_done (heq ▸ htarget)
      obtain ⟨i, hi⟩ := List.mem_iff_getElem?.mp he
      obtain ⟨e₀, he₀, hbare, _⟩ := hextends.exists_edge hi
      have hkept : (st.graph.cross (c.rule b) b n).edges[i]? = some e₀ :=
        FlowGraph.edges_cross_of_ne hn.orderly.wired he₀
          (Edge.source_of_bare hbare ▸ hsource)
          (Edge.target_of_bare hbare ▸ hne)
      obtain rfl : e = e₀ := by simpa [hi] using hkept
      exact h.consumed e (List.mem_of_getElem? he₀) htarget
    · have htarget := List.mem_singleton.mp htarget
      refine FlowGraph.unconsumed_cross hn.orderly.wired he
        (fun hsource => hn.not_self ?_) htarget
      rwa [hsource, htarget] at hfeed

omit [Scalar R] in
theorem Visited.resolving_eq_nil (h : Visited c st ns st') (hst : st.resolving = []) :
    st'.resolving = [] :=
  List.subset_nil.mp (hst ▸ h.resolving)

omit [Scalar R] in
/-- A node is due when those that feed it have been visited and it is on no loop. -/
theorem Visited.due (h : Visited c (st.enter n) (st.graph.predecessors n) st')
    (ho : Orderly c st.graph st.done) (hn : n < st.graph.nodes.length)
    (hresolving : st.resolving = []) (hloops : ∀ members, ¬ st.graph.LoopAt n members)
    (hnew : n ∉ st'.done) : Due c st'.pop n := by
  have hfeeds : st'.pop.graph.Feeds = st.graph.Feeds := h.advances.graph.feeds
  refine ⟨h.orderly, h.advances.graph.length_nodes ▸ hn, hnew, fun hself => ?_,
    fun m hm => ?_⟩
  · rw [hfeeds] at hself
    exact hloops [n] ⟨n, .singleton hn, hself⟩
  · rw [hfeeds] at hm
    refine (h.visited m (ho.wired.mem_predecessors.mpr hm)).resolve_right fun hres => ?_
    rw [h.resolving_eq_nil hresolving] at hres
    cases hres

/-- Without loops, what is kept when a node is processed that is due is kept over any
number of visits. -/
theorem Visits.invariant {P : FlowGraph R → List NodeId → Prop}
    (hprocess : ∀ (st : Propagation R) (n : NodeId), P st.graph st.done → Due c st n →
      P (st.process c n).graph (st.process c n).done)
    (hvisits : Visits c st ns st') (h : P st.graph st.done)
    (ho : Orderly c st.graph st.done) (hns : ∀ n ∈ ns, st.Leads n)
    (hresolving : st.resolving = []) (hloops : ∀ n members, ¬ st.graph.LoopAt n members) :
    P st'.graph st'.done := by
  induction hvisits with
  | nil st => exact h
  | skip hn _ ih =>
      rw [List.forall_mem_cons] at hns
      exact ih h ho hns.2 hresolving hloops
  | stray _ hactive _ _ _ =>
      rw [List.forall_mem_cons] at hns
      exact absurd (hns.1.loopAt ho.wired hactive) (hloops _ _)
  | loop _ hactive _ _ _ _ _ =>
      rw [List.forall_mem_cons] at hns
      exact absurd (hns.1.loopAt ho.wired hactive) (hloops _ _)
  | @path st st₁ st' n ns hn hactive hsources _ ihsources ihrest =>
      rw [List.forall_mem_cons] at hns
      have hleads := fun m hm => hns.1.predecessors (m := m) ho.wired hm
      have hvisited := hsources.visited ho hleads
      have hfirst := visited_path hns.1 hvisited
      have hbefore : P st₁.graph st₁.done := ihsources h ho hleads hresolving hloops
      have hleft : P (leave c st₁ n).graph (leave c st₁ n).done := by
        unfold leave
        rw [processNew_eq]
        split
        · exact hbefore
        · next hnew =>
            have hnew : n ∉ st₁.done := by simpa [pop] using hnew
            exact hprocess _ n hbefore
              (hvisited.due ho hns.1.1 hresolving (hloops n) hnew)
      refine ihrest hleft hfirst.orderly
        (fun m hm => (hns.2 m hm).advance hfirst.advances)
        (hfirst.resolving_eq_nil hresolving) fun m members hloop => ?_
      exact hloops m members (loopAt_of_layout hfirst.advances.graph.layout.symm hloop)

/-- Without loops, the facts on the edges into processed nodes are consumed over any number
of visits. -/
theorem Visits.drained (hvisits : Visits c st ns st') (h : st.Drained)
    (ho : Orderly c st.graph st.done) (hns : ∀ n ∈ ns, st.Leads n)
    (hresolving : st.resolving = []) (hloops : ∀ n members, ¬ st.graph.LoopAt n members) :
    st'.Drained := by
  have hdrained := hvisits.invariant
    (P := fun g done => Drained ({ graph := g, done := done } : Propagation R)) ?_
    ⟨h.behind, h.consumed⟩ ho hns hresolving hloops
  · exact ⟨hdrained.behind, hdrained.consumed⟩
  · intro st n hst hn
    have hbefore : st.Drained := ⟨hst.behind, hst.consumed⟩
    have hafter := drained_process hbefore hn
    exact ⟨hafter.behind, hafter.consumed⟩

end Propagation
end SignalFlow
