import Mathlib.Data.List.Nodup
import SignalFlow.Proofs.FactGrowth

/-!
# Processing nodes

While nodes are processed, the list of those that have been is *orderly*: it has nodes of
the graph only, none of them twice, and every edge out of one of them has a fact of each
category.  Simulating a loop changes facts and messages only; resolving it processes all of
its members that have not been processed before.

**Results.**
* `processed_processNew`: processing a node, unless that has been done before.
* `keeps_simulate`: a simulation leaves alone which nodes are processed, active or being
  resolved.
* `finished_finishLoop`: what resolving a loop gives.
* `settled_finishLoop`: what is done there is done by processing.
-/

namespace SignalFlow

variable {R : Type}

/-- Nodes of the graph have been processed, none of them twice, and the edges out of them
have facts of each category. -/
structure Orderly (c : Setting) (g : FlowGraph R) (done : List Nat) : Prop where
  wired : g.Wired
  isSome_block : ∀ n < g.nodes.length, (c.block? g n).isSome = true
  nodup : done.Nodup
  lt : ∀ n ∈ done, n < g.nodes.length
  hasCategory : ∀ e ∈ g.edges, e.source.node ∈ done → ∀ k, e.hasCategory k = true

namespace FlowGraph

variable {g g' : FlowGraph R}

theorem Extends.wired (h : g.Extends g') (hg : g.Wired) : g'.Wired := by
  rw [← wired_layout, h.layout, wired_layout]
  exact hg

theorem Extends.length_nodes (h : g.Extends g') : g'.nodes.length = g.nodes.length := by
  rw [← length_nodes_layout, h.layout, length_nodes_layout]

theorem Extends.feeds (h : g.Extends g') : g'.Feeds = g.Feeds := by
  rw [← feeds_layout, h.layout, feeds_layout]

theorem Extends.block? (h : g.Extends g') (c : Setting) (n : NodeId) :
    c.block? g' n = c.block? g n := by
  unfold Setting.block?
  rw [← blockOf?_layout, h.layout, blockOf?_layout]

end FlowGraph

namespace Orderly

variable {c : Setting} {g g' : FlowGraph R} {done : List Nat}

theorem extend (h : Orderly c g done) (hg : g.Extends g') : Orderly c g' done where
  wired := hg.wired h.wired
  isSome_block n hn := by
    rw [hg.block?]
    exact h.isSome_block n (hg.length_nodes ▸ hn)
  nodup := h.nodup
  lt n hn := hg.length_nodes ▸ h.lt n hn
  hasCategory e' he' hsource k := by
    obtain ⟨i, hi⟩ := List.mem_iff_getElem?.mp he'
    obtain ⟨e, he, hbare, hfacts⟩ := hg.exists_edge hi
    have hmem : e.source.node ∈ done := Edge.source_of_bare hbare ▸ hsource
    exact Edge.hasCategory_of_prefix hfacts
      (h.hasCategory e (List.mem_of_getElem? he) hmem k)

/-- Crossing a node fills the edges out of it. -/
theorem cross [Scalar R] (h : Orderly c g done) {n : Nat} (hn : n < g.nodes.length)
    (hnew : n ∉ done) (rule : TransferRule R) (b : Block) :
    Orderly c (g.cross rule b n) (done ++ [n]) := by
  have hgrown := h.extend (g.extends_cross rule b n)
  obtain ⟨g', hg', hcross⟩ := g.exists_cross_eq rule b n
  refine ⟨hgrown.wired, hgrown.isSome_block, ?_, fun m hm => ?_, fun e he hsource k => ?_⟩
  · exact List.nodup_append_comm.mp (List.nodup_cons.mpr ⟨hnew, h.nodup⟩)
  · rcases List.mem_append.mp hm with hm | hm
    · exact hgrown.lt m hm
    · rw [List.mem_singleton.mp hm, (g.extends_cross rule b n).length_nodes]
      exact hn
  · rcases List.mem_append.mp hsource with hsource | hsource
    · exact hgrown.hasCategory e he hsource k
    · rw [hcross] at he
      exact FlowGraph.hasCategory_fillDefaults (hg'.wired h.wired) he
        (List.mem_singleton.mp hsource) k

end Orderly

namespace Propagation

variable {c : Setting} {st st' st'' : Propagation R}

/-- Facts are added and nodes are processed, while the same nodes stay active. -/
structure Advances (st st' : Propagation R) : Prop where
  graph : st.graph.Extends st'.graph
  done : st.done <+: st'.done
  active : st'.active = st.active

theorem Advances.refl (st : Propagation R) : st.Advances st :=
  ⟨.refl _, List.prefix_refl _, rfl⟩

theorem Advances.trans (h : st.Advances st') (h' : st'.Advances st'') : st.Advances st'' :=
  ⟨h.graph.trans h'.graph, h.done.trans h'.done, h'.active.trans h.active⟩

/-- Facts and messages are added, and nothing else. -/
structure Keeps (st st' : Propagation R) : Prop where
  graph : st.graph.Extends st'.graph
  done : st'.done = st.done
  processed : st'.processed = st.processed
  active : st'.active = st.active
  resolving : st'.resolving = st.resolving

theorem Keeps.refl (st : Propagation R) : st.Keeps st :=
  ⟨.refl _, rfl, rfl, rfl, rfl⟩

theorem Keeps.advances (h : st.Keeps st') : st.Advances st' :=
  ⟨h.graph, h.done ▸ List.prefix_refl _, h.active⟩

variable [Scalar R]

theorem keeps_publish (st : Propagation R) (n : NodeId) (p : Option (Fact R)) :
    st.Keeps (st.publish n p) := by
  cases p with
  | none => exact .refl st
  | some p => exact ⟨st.graph.extends_writeOutgoing n p, rfl, rfl, rfl, rfl⟩

/-- What is reported is of no account to the nodes. -/
theorem keeps_publish_report (st : Propagation R) (d : Diagnostic) (n : NodeId)
    (p : Option (Fact R)) : st.Keeps ((st.report d).publish n p) := by
  obtain ⟨hgraph, hdone, hprocessed, hactive, hresolving⟩ :=
    (st.report d).keeps_publish n p
  exact ⟨hgraph, hdone, hprocessed, hactive, hresolving⟩

theorem keeps_conclude (st : Propagation R) (representative : NodeId) (id : BlockId)
    (output : Term R) (budget : Nat) (r : Run R) :
    st.Keeps (st.conclude representative id output budget r).1 := by
  cases r with
  | failed cause trace => exact st.keeps_publish_report _ representative _
  | closed rounds trace =>
      simp only [conclude]
      split
      · next p _ => exact st.keeps_publish representative (some p)
      · exact .refl st
  | exhausted rounds trace => exact st.keeps_publish_report _ representative _

theorem keeps_simulate (st : Propagation R) (c : Setting) (members : List NodeId)
    (representative : NodeId) : st.Keeps (st.simulate c members representative).1 := by
  unfold simulate
  split
  · exact .refl st
  · simp only
    split
    · exact ⟨.refl _, rfl, rfl, rfl, rfl⟩
    · exact st.keeps_conclude representative _ _ _ _

omit [Scalar R] in
theorem keeps_warnUnknown (st : Propagation R) (c : Setting) (b : Block) :
    st.Keeps (st.warnUnknown c b) := by
  unfold warnUnknown
  split
  · exact .refl st
  · exact ⟨.refl _, rfl, rfl, rfl, rfl⟩

omit [Scalar R] in
@[simp]
theorem graph_warnUnknown (st : Propagation R) (c : Setting) (b : Block) :
    (st.warnUnknown c b).graph = st.graph := by
  unfold warnUnknown
  split <;> rfl

/-- Process a node, unless it is done. -/
def processNew (c : Setting) (st : Propagation R) (n : NodeId) : Propagation R :=
  Id.run ((Steps.unchecked c).processNew st n)

theorem processNew_eq (c : Setting) (st : Propagation R) (n : NodeId) :
    processNew c st n = if st.done.contains n then st else st.process c n := by
  unfold processNew Steps.processNew
  split <;> rfl

/-- One node more is processed. -/
structure Processed (c : Setting) (st : Propagation R) (n : NodeId)
    (st' : Propagation R) : Prop where
  advances : st.Advances st'
  orderly : Orderly c st'.graph st'.done
  mem_done : n ∈ st'.done
  resolving : st'.resolving = st.resolving

theorem processed_processNew (h : Orderly c st.graph st.done) {n : Nat}
    (hn : n < st.graph.nodes.length) : Processed c st n (processNew c st n) := by
  rw [processNew_eq]
  split
  · next hdone => exact ⟨.refl st, h, by simpa using hdone, rfl⟩
  · next hnew =>
      obtain ⟨b, hb⟩ := Option.isSome_iff_exists.mp (h.isSome_block n hn)
      have hwarn := st.keeps_warnUnknown c b
      have hcross := (h.extend hwarn.graph).cross (hwarn.graph.length_nodes ▸ hn)
        (by simpa using hnew)
        (c.rule b) b
      have hdone : (st.process c n).done = st.done ++ [n] := by
        simp [process, hb, hwarn.done]
      simp only [process, hb, hwarn.done] at hdone ⊢
      refine ⟨⟨hwarn.graph.trans (FlowGraph.extends_cross _ _ b n), ?_, hwarn.active⟩, ?_,
        ?_, hwarn.resolving⟩
      · exact List.prefix_append _ _
      · exact hcross
      · simp

/-- All nodes of a list are processed. -/
theorem processed_foldl (h : Orderly c st.graph st.done) {ns : List NodeId}
    (hns : ∀ n ∈ ns, n < st.graph.nodes.length) :
    let st' := ns.foldl (processNew c) st
    st.Advances st' ∧ Orderly c st'.graph st'.done ∧ st'.resolving = st.resolving ∧
      ∀ n ∈ ns, n ∈ st'.done := by
  induction ns generalizing st with
  | nil => exact ⟨.refl st, h, rfl, by simp⟩
  | cons n ns ih =>
      have hfirst := processed_processNew h (hns n (by simp))
      have hlength := hfirst.advances.graph.length_nodes
      obtain ⟨hadvances, horderly, hresolving, hdone⟩ := ih hfirst.orderly fun m hm => by
        rw [hlength]
        exact hns m (List.mem_cons_of_mem _ hm)
      refine ⟨hfirst.advances.trans hadvances, horderly,
        hresolving.trans hfirst.resolving, ?_⟩
      rw [List.forall_mem_cons]
      exact ⟨hadvances.done.subset hfirst.mem_done, hdone⟩

section Loop

variable {start representative : Nat} {members : List Nat}

omit [Scalar R] in
/-- The representative comes last, behind the members after and before it. -/
theorem rotateBehind_append {before after : List Nat} (h : representative ∉ before) :
    rotateBehind representative (before ++ representative :: after) = after ++ before ++
      [representative] := by
  have hpos : ∀ n ∈ before, (n != representative) = true := by
    intro n hn
    simp only [bne_iff_ne, ne_eq]
    rintro rfl
    exact h hn
  unfold rotateBehind
  rw [List.dropWhile_append_of_pos hpos, List.takeWhile_append_of_pos hpos]
  simp

omit [Scalar R] in
/-- The members are gone through once around the loop. -/
theorem mem_rotateBehind (h : representative ∈ members) {m : Nat} :
    m ∈ rotateBehind representative members ↔ m ∈ members := by
  obtain ⟨before, after, rfl, hbefore⟩ := List.eq_append_cons_of_mem h
  rw [rotateBehind_append hbefore]
  simp only [List.mem_append, List.mem_cons, List.not_mem_nil, or_false]
  tauto

theorem representativeOf_mem (st : Propagation R) (c : Setting) (h : start ∈ members) :
    st.representativeOf c members start ∈ members := by
  unfold representativeOf
  cases hfind : members.find? fun n => c.behaviour st.graph n == .stateful with
  | none => exact h
  | some n => exact List.mem_of_find?_eq_some hfind

/-- Simulate a loop if all of its blocks allow it, and report it otherwise. -/
def attempt (c : Setting) (members : List NodeId) (representative : NodeId)
    (st : Propagation R) : Propagation R × LoopOutcome R :=
  Id.run ((Steps.unchecked c).attempt c members representative st)

/-- What a simulation keeps, and what leaving a loop alone keeps, an attempt keeps. -/
theorem attempt_cases (c : Setting) (members : List NodeId) (representative : NodeId)
    (st : Propagation R) :
    attempt c members representative st = st.simulate c members representative ∨
      attempt c members representative st = st.leaveUnsimulated c members := by
  unfold attempt Steps.attempt
  split
  · exact Or.inl rfl
  · exact Or.inr rfl

theorem keeps_attempt (c : Setting) (members : List NodeId) (representative : NodeId)
    (st : Propagation R) : st.Keeps (attempt c members representative st).1 := by
  rcases attempt_cases c members representative st with h | h
  · rw [h]
    exact st.keeps_simulate c members representative
  · rw [h]
    exact ⟨.refl _, rfl, rfl, rfl, rfl⟩

/-- Resolve a loop whose inputs from outside have been processed. -/
def finishLoop (c : Setting) (start : NodeId) (members : List NodeId)
    (st : Propagation R) : Propagation R :=
  Id.run ((Steps.unchecked c).finishLoop c start members st)

theorem finishLoop_eq (c : Setting) (start : NodeId) (members : List NodeId)
    (st : Propagation R) :
    finishLoop c start members st =
      let representative := st.representativeOf c members start
      let r := attempt c members representative st
      ((rotateBehind representative members).foldl (processNew c) r.1).closeLoop members
      representative r.2 := by
  unfold finishLoop Steps.finishLoop
  simp only [Id.run_bind, List.idRun_foldlM]
  rfl

/-- All members of a loop are processed, and it is no longer being resolved. -/
structure Finished (c : Setting) (st : Propagation R) (members : List Nat)
    (st' : Propagation R) : Prop where
  advances : st.Advances st'
  orderly : Orderly c st'.graph st'.done
  mem_done : ∀ m ∈ members, m ∈ st'.done
  resolving : st'.resolving = st.resolving.filter fun n => !members.contains n

theorem finished_finishLoop (h : Orderly c st.graph st.done) (hstart : start ∈ members)
    (hmembers : ∀ m ∈ members, m < st.graph.nodes.length) :
    Finished c st members (finishLoop c start members st) := by
  have hrep := st.representativeOf_mem c hstart
  have hkeeps := keeps_attempt c members (st.representativeOf c members start) st
  rw [finishLoop_eq]
  dsimp only
  generalize attempt c members (st.representativeOf c members start) st = r at hkeeps ⊢
  have horderly : Orderly c r.1.graph r.1.done := hkeeps.done ▸ h.extend hkeeps.graph
  have hlt : ∀ m ∈ rotateBehind (st.representativeOf c members start) members,
      m < r.1.graph.nodes.length := by
    intro m hm
    rw [hkeeps.graph.length_nodes]
    exact hmembers m ((mem_rotateBehind hrep).mp hm)
  obtain ⟨hadvances, horderly', hresolving, hdone⟩ := processed_foldl horderly hlt
  have hconsume := FlowGraph.extends_consumeInside
    ((rotateBehind (st.representativeOf c members start) members).foldl
      (processNew c) r.1).graph members
  refine ⟨?_, horderly'.extend hconsume, fun m hm =>
    hdone m ((mem_rotateBehind hrep).mpr hm), ?_⟩
  · obtain ⟨hgraph, hprefix, hactive⟩ := hkeeps.advances.trans hadvances
    exact ⟨hgraph.trans hconsume, hprefix, hactive⟩
  · exact congrArg (List.filter _) (hresolving.trans hkeeps.resolving)

end Loop

section Settled

/-- What is done has been processed, in the same order. -/
def Settled (st : Propagation R) : Prop :=
  st.processed = st.done

theorem settled_process (h : st.Settled) (c : Setting) (n : NodeId) :
    (st.process c n).Settled := by
  unfold Settled process at *
  split
  · exact congrArg (· ++ [n]) h
  · next b _ =>
      have hwarn := st.keeps_warnUnknown c b
      exact congrArg (· ++ [n]) ((hwarn.processed.trans h).trans hwarn.done.symm)

theorem settled_processNew (h : st.Settled) (c : Setting) (n : NodeId) :
    (processNew c st n).Settled := by
  rw [processNew_eq]
  split
  · exact h
  · exact settled_process h c n

theorem settled_finishLoop (h : st.Settled) (c : Setting) (start : NodeId)
    (members : List NodeId) : (finishLoop c start members st).Settled := by
  rw [finishLoop_eq]
  dsimp only
  have hkeeps := keeps_attempt c members (st.representativeOf c members start) st
  have hattempt : (attempt c members (st.representativeOf c members start) st).1.Settled :=
    (hkeeps.processed.trans h).trans hkeeps.done.symm
  have hfold := List.foldlRecOn (motive := Settled)
    (rotateBehind (st.representativeOf c members start) members) (processNew c) hattempt
    fun _ hst n _ => settled_processNew hst c n
  exact hfold

end Settled

end Propagation
end SignalFlow
