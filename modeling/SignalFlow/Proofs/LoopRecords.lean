import SignalFlow.Proofs.Visiting

/-!
# The loops that are recorded

A node is *marked* if a record has it for a member, or if a loop that it belongs to is
being resolved.  Marks are never lost: a loop is recorded when it is no longer being
resolved.

Nodes are processed behind the nodes that feed them, unless one of the two is marked.  So,
once no loop is left to be resolved, the order in which nodes have been processed goes up
along every edge between nodes that no record has, and a circle of such nodes cannot exist.

**Results.**
* `Visits.tracked`: what the records say and how the processed nodes are ordered, over any
  number of visits.
* `Tracked.exists_recorded`: every circle of nodes meets a record.
-/

open Relation (TransGen)

namespace SignalFlow
namespace Propagation

variable {R : Type}

/-- A record has the block of the node for a member. -/
def Recorded (st : Propagation R) (n : Nat) : Prop :=
  ∃ r ∈ st.loops, ∃ b ∈ r.members, st.graph.blockOf? n = some b

/-- The node is recorded, or a loop that it belongs to is being resolved. -/
def Marked (st : Propagation R) (n : Nat) : Prop :=
  st.Recorded n ∨ n ∈ st.resolving

/-- Records are loops, and a node is processed behind the nodes that feed it, marked ones
apart. -/
structure Tracked (st : Propagation R) : Prop where
  loopAt : ∀ r ∈ st.loops, ∃ n members, st.graph.LoopAt n members ∧
    r.members = members.filterMap st.graph.blockOf?
  behind : ∀ before n after, st.done = before ++ n :: after →
    st.Marked n ∨ ∀ m, st.graph.Feeds m n → m ∈ before ∨ st.Marked m

variable {c : Setting} {st st' : Propagation R} {n : Nat} {ns : List Nat}

/-- The records and the layout stay, and no mark is lost. -/
structure KeepsMarks (st st' : Propagation R) : Prop where
  layout : st'.graph.layout = st.graph.layout
  loops : st.loops <+: st'.loops
  marked : ∀ n, st.Marked n → st'.Marked n

theorem feeds_of_layout {g g' : FlowGraph R} (h : g'.layout = g.layout) :
    g'.Feeds = g.Feeds := by
  rw [← FlowGraph.feeds_layout, h, FlowGraph.feeds_layout]

theorem blockOf?_of_layout {g g' : FlowGraph R} (h : g'.layout = g.layout) (n : Nat) :
    g'.blockOf? n = g.blockOf? n := by
  rw [← FlowGraph.blockOf?_layout, h, FlowGraph.blockOf?_layout]

theorem loopAt_of_layout {g g' : FlowGraph R} (h : g'.layout = g.layout)
    {members : List Nat} (hloop : g.LoopAt n members) : g'.LoopAt n members := by
  have hlength : g'.nodes.length = g.nodes.length := by
    rw [← FlowGraph.length_nodes_layout, h, FlowGraph.length_nodes_layout]
  obtain ⟨last, ⟨hnodup, hchain, hhead, hlast, hlt⟩, hfeeds⟩ := hloop
  rw [← feeds_of_layout h] at hchain hfeeds
  exact ⟨last, ⟨hnodup, hchain, hhead, hlast, fun m hm => hlength ▸ hlt m hm⟩, hfeeds⟩

theorem Recorded.mono (hlayout : st'.graph.layout = st.graph.layout)
    (hloops : st.loops <+: st'.loops) (h : st.Recorded n) : st'.Recorded n := by
  obtain ⟨r, hr, b, hb, hn⟩ := h
  exact ⟨r, hloops.subset hr, b, hb, (blockOf?_of_layout hlayout n).trans hn⟩

/-- What is processed in addition is marked, or stands behind what feeds it. -/
theorem Tracked.extend (h : st.Tracked) (hkeeps : KeepsMarks st st') {new : List Nat}
    (hdone : st'.done = st.done ++ new)
    (hloops : ∀ r ∈ st'.loops, r ∈ st.loops ∨ ∃ n members, st'.graph.LoopAt n members ∧
      r.members = members.filterMap st'.graph.blockOf?)
    (hnew : ∀ n ∈ new, st'.Marked n ∨ ∀ m, st'.graph.Feeds m n → m ∈ st.done ∨
      st'.Marked m) :
    st'.Tracked := by
  refine ⟨fun r hr => ?_, fun before n after hsplit => ?_⟩
  · rcases hloops r hr with hr | hr
    · obtain ⟨n, members, hloop, hmembers⟩ := h.loopAt r hr
      refine ⟨n, members, loopAt_of_layout hkeeps.layout hloop, ?_⟩
      rw [hmembers]
      exact List.filterMap_congr fun m _ => (blockOf?_of_layout hkeeps.layout m).symm
    · exact hr
  · rw [hdone, List.append_eq_append_iff] at hsplit
    rcases hsplit with ⟨between, hbefore, htail⟩ | ⟨between, hold, htail⟩
    · -- The node is one of the new ones.
      have hmem : n ∈ new := by
        rw [htail]
        simp
      refine (hnew n hmem).imp_right fun hfeeds m hm =>
        (hfeeds m hm).imp_left fun hmdone => ?_
      rw [hbefore]
      exact List.mem_append_left _ hmdone
    · cases between with
      | nil =>
          rw [List.nil_append] at htail
          have hmem : n ∈ new := by
            rw [← htail]
            simp
          refine (hnew n hmem).imp_right fun hfeeds m hm =>
            (hfeeds m hm).imp_left fun hmdone => ?_
          rw [hold] at hmdone
          simpa using hmdone
      | cons n' between =>
          obtain ⟨rfl, -⟩ := List.cons_eq_cons.mp htail
          refine (h.behind before n between hold).imp (hkeeps.marked n) fun hfeeds m hm =>
            ?_
          rw [feeds_of_layout hkeeps.layout] at hm
          exact (hfeeds m hm).imp_right (hkeeps.marked m)

/-- A step that changes neither the processed nodes nor the records keeps what they say. -/
theorem Tracked.of_marks (h : st.Tracked) (hgraph : st'.graph = st.graph)
    (hdone : st'.done = st.done) (hloops : st'.loops = st.loops)
    (hresolving : st.resolving ⊆ st'.resolving) : st'.Tracked := by
  have hlayout : st'.graph.layout = st.graph.layout := by rw [hgraph]
  have hprefix : st.loops <+: st'.loops := hloops ▸ List.prefix_refl _
  have hkeeps : KeepsMarks st st' :=
    ⟨hlayout, hprefix, fun m hm => hm.imp (Recorded.mono hlayout hprefix) fun hm =>
      hresolving hm⟩
  have hdone' : st'.done = st.done ++ [] := by simp [hdone]
  refine h.extend hkeeps hdone' (fun r hr => ?_) (by simp)
  exact Or.inl (hloops ▸ hr)

section Steps

variable [Scalar R]

theorem done_process (c : Setting) (st : Propagation R) (n : NodeId) :
    (st.process c n).done = st.done ++ [n] := by
  unfold process
  split
  · rfl
  · simp [(st.keeps_warnUnknown c _).done]

theorem loops_process (c : Setting) (st : Propagation R) (n : NodeId) :
    (st.process c n).loops = st.loops := by
  unfold process
  split
  · rfl
  · unfold warnUnknown
    dsimp only
    split <;> rfl

theorem loops_processNew (c : Setting) (st : Propagation R) (n : NodeId) :
    (processNew c st n).loops = st.loops := by
  rw [processNew_eq]
  split
  · rfl
  · exact loops_process c st n

/-- Processing the nodes of a list adds some of them behind those processed before. -/
theorem done_foldl_processNew (c : Setting) (ns : List NodeId) (st : Propagation R) :
    ∃ new, (ns.foldl (processNew c) st).done = st.done ++ new ∧ new ⊆ ns := by
  induction ns generalizing st with
  | nil => exact ⟨[], by simp, by simp⟩
  | cons n ns ih =>
      obtain ⟨new, hdone, hnew⟩ := ih (processNew c st n)
      rw [List.foldl_cons, hdone, processNew_eq]
      split
      · exact ⟨new, rfl, fun m hm => List.mem_cons_of_mem _ (hnew hm)⟩
      · refine ⟨n :: new, by simp [done_process], ?_⟩
        rw [List.cons_subset]
        exact ⟨by simp, fun m hm => List.mem_cons_of_mem _ (hnew hm)⟩

theorem loops_foldl_processNew (c : Setting) (ns : List NodeId) (st : Propagation R) :
    (ns.foldl (processNew c) st).loops = st.loops :=
  List.foldlRecOn (motive := fun st' : Propagation R => st'.loops = st.loops) ns _ rfl
    fun st' hst' n _ => (loops_processNew c st' n).trans hst'

theorem loops_simulate (st : Propagation R) (c : Setting) (members : List NodeId)
    (representative : NodeId) :
    (st.simulate c members representative).1.loops = st.loops := by
  have hpublish : ∀ (st : Propagation R) (p : Option (Fact R)),
      (st.publish representative p).loops = st.loops := by
    intro st p
    cases p <;> rfl
  unfold simulate
  split
  · rfl
  · dsimp only
    split
    · rfl
    · unfold conclude
      split
      · exact hpublish _ _
      · split
        · exact hpublish _ _
        · rfl
      · exact hpublish _ _

theorem loops_attempt (c : Setting) (members : List NodeId) (representative : NodeId)
    (st : Propagation R) : (attempt c members representative st).1.loops = st.loops := by
  rcases attempt_cases c members representative st with h | h
  · rw [h]
    exact loops_simulate st c members representative
  · rw [h]
    rfl

/-- A loop is recorded behind those recorded before, and some of its members are
processed. -/
theorem finishLoop_adds (c : Setting) (start : NodeId) (members : List NodeId)
    (st : Propagation R) (hstart : start ∈ members) :
    ∃ new outcome, (finishLoop c start members st).done = st.done ++ new ∧ new ⊆ members ∧
      (finishLoop c start members st).loops = st.loops ++
        [{ members := members.filterMap (finishLoop c start members st).graph.blockOf?
           representative :=
            (finishLoop c start members st).graph.blockOf?
              (st.representativeOf c members start)
           outcome := outcome }] := by
  have hrep := st.representativeOf_mem c hstart
  rw [finishLoop_eq]
  dsimp only
  have hkept := (keeps_attempt c members (st.representativeOf c members start) st).done
  have hrecords := loops_attempt c members (st.representativeOf c members start) st
  generalize attempt c members (st.representativeOf c members start) st = r
    at hkept hrecords ⊢
  obtain ⟨new, hdone, hnew⟩ :=
    done_foldl_processNew c
      (rotateBehind (st.representativeOf c members start) members) r.1
  have hloops := loops_foldl_processNew c
    (rotateBehind (st.representativeOf c members start) members) r.1
  have hlayout := (FlowGraph.extends_consumeInside
    ((rotateBehind (st.representativeOf c members start) members).foldl
      (processNew c) r.1).graph members).layout
  refine ⟨new, r.2, ?_, fun m hm => (mem_rotateBehind hrep).mp (hnew hm), ?_⟩
  · rw [← hkept]
    exact hdone
  · rw [hrecords] at hloops
    refine congrArg₂ (· ++ ·) hloops (congrArg (fun r => [r]) ?_)
    congr 1
    · exact List.filterMap_congr fun m _ => (blockOf?_of_layout hlayout m).symm
    · exact (blockOf?_of_layout hlayout _).symm

/-- A loop that has been resolved is recorded, so that its members stay marked. -/
theorem tracked_finishLoop (h : st.Tracked) (ho : Orderly c st.graph st.done)
    {members : List Nat} (hloop : st.graph.LoopAt n members) :
    (finishLoop c n members st).Tracked := by
  have hfinished := finished_finishLoop ho hloop.mem fun m hm => hloop.lt hm
  have hlayout := hfinished.advances.graph.layout
  obtain ⟨new, outcome, hdone, hnew, hloops⟩ := finishLoop_adds c n members st hloop.mem
  have hprefix : st.loops <+: (finishLoop c n members st).loops :=
    hloops ▸ List.prefix_append _ _
  have hrecorded : ∀ m ∈ members, (finishLoop c n members st).Recorded m := by
    intro m hm
    obtain ⟨b, hb⟩ : ∃ b, (finishLoop c n members st).graph.blockOf? m = some b := by
      rw [blockOf?_of_layout hlayout]
      simp [FlowGraph.blockOf?, hloop.lt hm]
    have hlast := List.mem_append_right st.loops (List.mem_singleton_self
      { members := members.filterMap (finishLoop c n members st).graph.blockOf?
        representative :=
        (finishLoop c n members st).graph.blockOf? (st.representativeOf c members n)
        outcome := outcome : LoopRecord R })
    rw [← hloops] at hlast
    exact ⟨_, hlast, b, List.mem_filterMap.mpr ⟨m, hm, hb⟩, hb⟩
  have hkeeps : KeepsMarks st (finishLoop c n members st) := by
    refine ⟨hlayout, hprefix, fun m hm => ?_⟩
    by_cases hmember : m ∈ members
    · exact Or.inl (hrecorded m hmember)
    · refine hm.imp (Recorded.mono hlayout hprefix) fun hres => ?_
      rw [hfinished.resolving]
      exact List.mem_filter.mpr ⟨hres, by simpa using hmember⟩
  refine h.extend hkeeps hdone (fun r hr => ?_) fun m hm =>
    Or.inl (Or.inl (hrecorded m (hnew hm)))
  rw [hloops, List.mem_append, List.mem_singleton] at hr
  refine hr.imp_right fun hr => ⟨n, members, loopAt_of_layout hlayout hloop, ?_⟩
  rw [hr]

/-- A node that is left is processed behind the nodes that feed it. -/
theorem tracked_leave (h : st.Tracked) (ho : Orderly c st.graph st.done)
    (hn : n < st.graph.nodes.length) (hpassed : ∀ m, st.graph.Feeds m n → st.Passed m) :
    (leave c st n).Tracked := by
  have hactive : st.pop.Tracked := h.of_marks rfl rfl rfl fun _ hm => hm
  have horderly : Orderly c st.pop.graph st.pop.done := ho
  have hprocessed : Processed c st.pop n (leave c st n) :=
    processed_processNew horderly hn
  have hlayout := hprocessed.advances.graph.layout
  have hloops : (leave c st n).loops = st.loops := loops_processNew c _ n
  have hprefix : st.loops <+: (leave c st n).loops := hloops ▸ List.prefix_refl _
  have hkeeps : KeepsMarks st.pop (leave c st n) := by
    refine ⟨hlayout, hprefix, fun m hm => ?_⟩
    refine hm.imp (Recorded.mono hlayout hprefix) fun hres => ?_
    rw [hprocessed.resolving]
    exact hres
  obtain ⟨new, hdone, hnew⟩ := done_foldl_processNew c [n] st.pop
  refine hactive.extend hkeeps hdone (fun r hr => Or.inl (hloops ▸ hr)) fun m hm =>
    Or.inr fun k hk => ?_
  obtain rfl : m = n := by simpa using hnew hm
  rw [feeds_of_layout hlayout] at hk
  exact (hpassed k hk).imp_right fun hres => hkeeps.marked k (Or.inr hres)

/-- What records say and how processed nodes are ordered holds over any number of
visits. -/
theorem Visits.tracked (hvisits : Visits c st ns st') (h : st.Tracked)
    (ho : Orderly c st.graph st.done) (hns : ∀ n ∈ ns, st.Leads n) : st'.Tracked := by
  induction hvisits with
  | nil st => exact h
  | skip hn _ ih =>
      rw [List.forall_mem_cons] at hns
      exact ih h ho hns.2
  | stray _ hactive hnone _ _ =>
      rw [List.forall_mem_cons] at hns
      exact absurd hnone (hns.1.cycleThrough_ne_nil ho.wired hactive)
  | @loop st st₁ st' n ns hn hactive _ hsources _ ihsources ihrest =>
      rw [List.forall_mem_cons] at hns
      have hleads := fun m hm => hns.1.outerSources (m := m) ho.wired hactive hm
      have hvisited := hsources.visited ho hleads
      have hfirst := visited_loop ho hns.1 hactive hvisited
      have henter : (st.enterLoop (st.graph.cycleThrough n)).Tracked :=
        h.of_marks rfl rfl rfl fun _ hm => List.mem_append_left _ hm
      have hloop := loopAt_of_layout hvisited.advances.graph.layout
        (hns.1.loopAt ho.wired hactive)
      have hfinished :=
        tracked_finishLoop (ihsources henter ho hleads) hvisited.orderly hloop
      rw [markDone_finishLoop ho hns.1 hactive hvisited] at ihrest
      exact ihrest hfinished hfirst.orderly fun m hm =>
        (hns.2 m hm).advance hfirst.advances
  | @path st st₁ st' n ns hn hactive hsources _ ihsources ihrest =>
      rw [List.forall_mem_cons] at hns
      have hleads := fun m hm => hns.1.predecessors (m := m) ho.wired hm
      have hvisited := hsources.visited ho hleads
      have hfirst := visited_path hns.1 hvisited
      have henter : (st.enter n).Tracked := h.of_marks rfl rfl rfl fun _ hm => hm
      have hpassed : ∀ m, st₁.graph.Feeds m n → st₁.Passed m := by
        intro m hm
        rw [hvisited.advances.graph.feeds] at hm
        exact hvisited.visited m (ho.wired.mem_predecessors.mpr hm)
      have hlt : n < st₁.graph.nodes.length := by
        rw [hvisited.advances.graph.length_nodes]
        exact hns.1.1
      have hleft := tracked_leave (ihsources henter ho hleads) hvisited.orderly hlt hpassed
      exact ihrest hleft hfirst.orderly fun m hm => (hns.2 m hm).advance hfirst.advances

end Steps

/-- Once no loop is being resolved, processing goes up along every edge between nodes
without a record. -/
theorem Tracked.idxOf_lt (h : st.Tracked) (hresolving : st.resolving = []) {m : Nat}
    (hn : n ∈ st.done) (hfeeds : st.graph.Feeds m n) (hm : ¬ st.Recorded m)
    (hnr : ¬ st.Recorded n) : st.done.idxOf m < st.done.idxOf n := by
  have hmarked : ∀ k, ¬ st.Recorded k → ¬ st.Marked k := by
    intro k hk hmark
    rcases hmark with hrec | hres
    · exact hk hrec
    · rw [hresolving] at hres
      cases hres
  obtain ⟨before, after, hsplit, hbefore⟩ := List.eq_append_cons_of_mem hn
  have hmbefore :=
    ((h.behind before n after hsplit).resolve_left (hmarked n hnr) m hfeeds).resolve_right
    (hmarked m hm)
  rw [hsplit, List.idxOf_append_of_mem hmbefore, List.idxOf_append_of_notMem hbefore,
    List.idxOf_cons_self]
  have hlt := List.idxOf_lt_length_of_mem hmbefore
  omega

/-- Every circle of nodes meets a record. -/
theorem Tracked.exists_recorded (h : st.Tracked) (hresolving : st.resolving = [])
    {circle : List Nat} {first last : Nat} (hhead : circle.head? = some first)
    (hlast : circle.getLast? = some last) (hdone : ∀ n ∈ circle, n ∈ st.done)
    (hchain : circle.IsChain st.graph.Feeds) (hclosing : st.graph.Feeds last first) :
    ∃ n ∈ circle, st.Recorded n := by
  by_contra hnone
  push Not at hnone
  have hfirst : first ∈ circle := List.mem_of_mem_head? hhead
  have hlastmem : last ∈ circle := List.mem_of_mem_getLast? hlast
  have hup : circle.IsChain fun m n => st.done.idxOf m < st.done.idxOf n :=
    hchain.imp_of_mem_imp fun m n hm hn hfeeds =>
      h.idxOf_lt hresolving (hdone n hn) hfeeds (hnone m hm) (hnone n hn)
  have hback := h.idxOf_lt hresolving (hdone first hfirst) hclosing (hnone last hlastmem)
    (hnone first hfirst)
  -- The first node comes before the last one, or is the last one.
  cases circle with
  | nil => cases hhead
  | cons a rest =>
      obtain rfl : a = first := by simpa using hhead
      have : IsTrans Nat fun m n => st.done.idxOf m < st.done.idxOf n :=
        ⟨fun _ _ _ => Nat.lt_trans⟩
      rcases List.mem_cons.mp hlastmem with rfl | hrest
      · omega
      · have hlt := hup.rel_cons hrest
        omega

end Propagation
end SignalFlow
