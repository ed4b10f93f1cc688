import SignalFlow.Proofs.Visiting

/-!
# Counting the inputs of a block

A propagation fails when a block is processed, or simulated in a loop, whose inputs cannot
be counted.  Until then it does what the propagation does that counts without bound.  Both
go through the same nodes, so that the failing one is followed step by step: it succeeds if
all inputs can be counted, and where it succeeds, those of every processed node can.

**Results.**
* `follows_visit`: one visit, with and without failure.
* `follows_run`: a whole propagation.
-/

namespace SignalFlow

variable {R : Type}

namespace FlowGraph

variable {g g' : FlowGraph R}

theorem countable_layout (n : NodeId) : g.layout.countable n = g.countable n := by
  have hincoming : g.layout.incoming n = (g.incoming n).map Edge.bare := by
    unfold incoming
    cases hnode : g.nodes[n]? with
    | none => simp [layout, hnode]
    | some node => simp [layout, hnode, Node.bare, List.map_filterMap]
  rw [countable, hincoming, List.all_map]
  rfl

theorem countable_of_layout (h : g'.layout = g.layout) (n : NodeId) :
    g'.countable n = g.countable n := by
  rw [← countable_layout, h, countable_layout]

/-- The pins at which edges end are part of the layout. -/
theorem pins_of_layout (h : g'.layout = g.layout) :
    g'.edges.map (fun e => e.target.pin) = g.edges.map fun e => e.target.pin := by
  have hlayout : ∀ g : FlowGraph R,
      g.edges.map (fun e => e.target.pin) = g.layout.edges.map fun e => e.target.pin := by
    simp [layout, Function.comp_def, Edge.bare]
  rw [hlayout g', h, ← hlayout]

theorem Wired.countable_eq_true_iff (h : g.Wired) {n : NodeId} :
    g.countable n = true ↔ ∀ e ∈ g.edges, e.target.node = n →
      e.target.pin + 1 < Text.idLimit := by
  simp only [countable, List.all_eq_true, decide_eq_true_eq, h.mem_incoming, and_imp]

end FlowGraph

namespace Propagation

/-- The inputs of the processed blocks can be counted. -/
def Counted (c : Setting) (st : Propagation R) : Prop :=
  ∀ n ∈ st.processed, (c.block? st.graph n).isSome = true → st.graph.countable n = true

/-- A step from `st` that can fail, with the result `r?`, follows one to `r` that
cannot. -/
structure Follows (c : Setting) (st : Propagation R) (r? : Option (Propagation R))
    (r : Propagation R) : Prop where
  layout : r.graph.layout = st.graph.layout
  total : (∀ n, st.graph.countable n = true) → r? = some r
  eq : ∀ st', r? = some st' → st' = r
  counted : r? = some r → st.Counted c → r.Counted c

variable {c : Setting} {st r : Propagation R} {r? : Option (Propagation R)}

theorem Counted.of_layout (h : st.Counted c) (hlayout : r.graph.layout = st.graph.layout)
    {n : NodeId} (hn : n ∈ st.processed) (hblock : (c.block? r.graph n).isSome = true) :
    r.graph.countable n = true := by
  rw [FlowGraph.countable_of_layout hlayout]
  refine h n hn ?_
  rwa [Setting.block?, ← FlowGraph.blockOf?_layout, hlayout, FlowGraph.blockOf?_layout]
    at hblock

namespace Follows

/-- A step that leaves the nodes and what has been processed alone does not fail. -/
theorem keep (hlayout : r.graph.layout = st.graph.layout)
    (hprocessed : r.processed = st.processed) : Follows c st (some r) r where
  layout := hlayout
  total _ := rfl
  eq _ h := (Option.some.inj h).symm
  counted _ h _ hn := h.of_layout hlayout (hprocessed ▸ hn)

/-- Processing a node does not fail if its inputs can be counted. -/
theorem process (hlayout : r.graph.layout = st.graph.layout) {n : NodeId}
    (hprocessed : r.processed = st.processed ++ [n])
    (hn : (c.block? r.graph n).isSome = true → r.graph.countable n = true) :
    Follows c st (some r) r where
  layout := hlayout
  total _ := rfl
  eq _ h := (Option.some.inj h).symm
  counted _ h m hm := by
    rw [hprocessed, List.mem_append, List.mem_singleton] at hm
    rcases hm with hm | rfl
    · exact h.of_layout hlayout hm
    · exact hn

/-- A step fails only if there are inputs that cannot be counted. -/
theorem fail (hlayout : r.graph.layout = st.graph.layout) {n : NodeId}
    (hn : st.graph.countable n = false) : Follows c st none r where
  layout := hlayout
  total h := by
    rw [h n] at hn
    cases hn
  eq _ h := by cases h
  counted h := by cases h

theorem bind (h : Follows c st r? r) (f? : Propagation R → Option (Propagation R))
    {r' : Propagation R} (h' : Follows c r (f? r) r') : Follows c st (r? >>= f?) r' where
  layout := h'.layout.trans h.layout
  total hst := by
    rw [h.total hst]
    exact h'.total fun n => FlowGraph.countable_of_layout h.layout n ▸ hst n
  eq st' hst' := by
    obtain ⟨r₁, hr₁, hf⟩ := Option.bind_eq_some_iff.mp hst'
    obtain rfl := h.eq r₁ hr₁
    exact h'.eq st' hf
  counted hr' hst := by
    obtain ⟨r₁, hr₁, hf⟩ := Option.bind_eq_some_iff.mp hr'
    obtain rfl := h.eq r₁ hr₁
    exact h'.counted hf (h.counted hr₁ hst)

theorem after {r' : Propagation R} (hlayout : r.graph.layout = st.graph.layout)
    (hprocessed : r.processed = st.processed) (h : Follows c r r? r') :
    Follows c st r? r' :=
  (keep hlayout hprocessed).bind (fun _ => r?) h

/-- What holds of one step holds of steps in a row. -/
theorem foldlM {α : Type} {f? : Propagation R → α → Option (Propagation R)}
    {f : Propagation R → α → Propagation R} (hf : ∀ st a, Follows c st (f? st a) (f st a))
    (as : List α) (st : Propagation R) :
    Follows c st (as.foldlM f? st) (as.foldl f st) := by
  induction as generalizing st with
  | nil => exact keep rfl rfl
  | cons a as ih => exact (hf st a).bind _ (ih (f st a))

end Follows

variable [Scalar R]

theorem follows_process (c : Setting) (st : Propagation R) (n : NodeId) :
    Follows c st (st.process? c n) (st.process c n) := by
  have hlayout : (st.process c n).graph.layout = st.graph.layout := by
    unfold Propagation.process
    split
    · rfl
    · next b _ =>
        have hwarn := st.keeps_warnUnknown c b
        exact (hwarn.graph.trans (FlowGraph.extends_cross _ _ b n)).layout
  unfold process?
  split
  · next hfails =>
      simp only [Bool.and_eq_true, Bool.not_eq_true'] at hfails
      exact .fail hlayout hfails.2
  · next hcounts =>
      refine .process hlayout (n := n) ?_ fun hblock => ?_
      · unfold Propagation.process
        split
        · rfl
        · next b _ => exact congrArg (· ++ [n]) (st.keeps_warnUnknown c b).processed
      · rw [FlowGraph.countable_of_layout hlayout]
        rw [Setting.block?, ← FlowGraph.blockOf?_layout, hlayout,
          FlowGraph.blockOf?_layout, ← Setting.block?]
          at hblock
        simpa [hblock] using hcounts

theorem follows_processNew (c : Setting) (st : Propagation R) (n : NodeId) :
    Follows c st ((Steps.checked c).processNew st n) (processNew c st n) := by
  rw [processNew_eq]
  unfold Steps.processNew
  split
  · exact .keep rfl rfl
  · exact follows_process c st n

/-- A simulation fails only if there are inputs that cannot be counted. -/
theorem attempt_checked_cases (c : Setting) (members : List NodeId)
    (representative : NodeId) (st : Propagation R) :
    (Steps.checked c).attempt c members representative st = some
      (attempt c members representative st) ∨
      (Steps.checked c).attempt c members representative st = none ∧
        ∃ n, st.graph.countable n = false := by
  unfold attempt Steps.attempt
  split
  · simp only [Steps.checked, simulate?]
    split
    · next hfails =>
        simp only [roundCounts, Bool.and_eq_true, Bool.not_eq_true', List.all_eq_false]
          at hfails
        obtain ⟨_, n, _, hn⟩ := hfails
        exact Or.inr ⟨rfl, n, by simpa using hn⟩
    · exact Or.inl rfl
  · exact Or.inl rfl

theorem follows_finishLoop (c : Setting) (start : NodeId) (members : List NodeId)
    (st : Propagation R) :
    Follows c st ((Steps.checked c).finishLoop c start members st)
      (finishLoop c start members st) := by
  rw [finishLoop_eq]
  unfold Steps.finishLoop
  dsimp only
  have hkeeps := keeps_attempt c members (st.representativeOf c members start) st
  have hfold := Follows.foldlM (follows_processNew c)
    (rotateBehind (st.representativeOf c members start) members)
    (attempt c members (st.representativeOf c members start) st).1
  have hclosed :=
    hfold.bind (fun r => pure (r.closeLoop members (st.representativeOf c members start)
    (attempt c members (st.representativeOf c members start) st).2))
    (.keep (FlowGraph.extends_consumeInside _ members).layout rfl)
  have hall := hclosed.after hkeeps.graph.layout hkeeps.processed
  rcases attempt_checked_cases c members (st.representativeOf c members start) st with
    h | ⟨h, n, hn⟩
  · rw [h]
    exact hall
  · rw [h]
    exact .fail hall.layout hn

/-- One visit, with and without failure. -/
theorem follows_visit (c : Setting) (depth : Nat) (st : Propagation R) (n : NodeId) :
    Follows c st ((Steps.checked c).visit c depth st n) (visit c depth st n) := by
  induction depth generalizing st n with
  | zero => exact .keep rfl rfl
  | succ depth ih =>
      rw [visit_succ, Steps.visit]
      split
      · exact .keep rfl rfl
      · split
        · dsimp only
          split
          · exact .keep rfl rfl
          · have hsources :=
              Follows.foldlM ih (outerSources st.graph (st.graph.cycleThrough n))
              (st.enterLoop (st.graph.cycleThrough n))
            have hfinished := fun st' : Propagation R =>
              (follows_finishLoop c n (st.graph.cycleThrough n) st').bind
                (fun r => pure (r.markDone n))
                (.keep rfl rfl)
            refine .after (r := st.enterLoop (st.graph.cycleThrough n)) rfl rfl ?_
            exact hsources.bind _ (hfinished _)
        · have hsources := Follows.foldlM ih (st.graph.predecessors n) (st.enter n)
          have hleft : ∀ st' : Propagation R,
              Follows c st' ((Steps.checked c).processNew st'.pop n) (leave c st' n) :=
            fun st' => .after (r := st'.pop) rfl rfl (follows_processNew c st'.pop n)
          refine .after (r := st.enter n) rfl rfl ?_
          exact hsources.bind _ (hleft _)

/-- A whole propagation, with and without failure. -/
theorem follows_run (c : Setting) (order : RunOrder) (g : FlowGraph R) :
    Follows c { graph := seeded c g } (run? c order g) (run c order g) := by
  rw [run_eq]
  exact .foldlM (follows_visit c _) _ _

end Propagation
end SignalFlow
