import SignalFlow.Proofs.Visiting

/-!
# What propagation writes

Whatever propagation does to a graph, it does by *writes* of five kinds: a fact is added to
an edge as a statement about the variable of the edge, an edge is given the facts that say
nothing, a fact is attached to a node, and facts are consumed, one at a time or all those
of an edge.  What holds of a graph and is kept by each of these writes holds in the end.

**Results.**
* `Writes.invariant`: what each write keeps, any number of them keeps.
* `writes_run`: propagation is made of writes.
-/

open Relation (ReflTransGen)

namespace SignalFlow
namespace FlowGraph

variable {R : Type} [Scalar R]

/-- One write.  A fact is added to an edge, if there is one, with the variable of the edge
as its subject. -/
inductive Write (g : FlowGraph R) : FlowGraph R → Prop
  | fact (i : EdgeId) (t : Term R) (p : Fact R)
      (ht : ∀ e, g.edges[i]? = some e → t = e.term) :
      Write g (g.addEdgeFact i (p.retarget t))
  | baseline (i : EdgeId) : Write g (g.modifyEdge i fun e => e.addFacts (defaults e))
  | attach (n : NodeId) (p : Fact R) : Write g (g.addNodeFact n p)
  | consume (i : EdgeId) (position : Nat) :
      Write g (g.modifyEdge i fun e => e.consume position)
  | consumeAll (i : EdgeId) : Write g (g.modifyEdge i Edge.consumeAll)

/-- Any number of writes. -/
def Writes : FlowGraph R → FlowGraph R → Prop :=
  ReflTransGen Write

variable {g g' g'' : FlowGraph R}

theorem Writes.refl (g : FlowGraph R) : Writes g g :=
  ReflTransGen.refl

theorem Writes.trans (h : Writes g g') (h' : Writes g' g'') : Writes g g'' :=
  ReflTransGen.trans h h'

theorem Write.writes (h : Write g g') : Writes g g' :=
  ReflTransGen.single h

/-- What each write keeps, any number of them keeps. -/
theorem Writes.invariant {P : FlowGraph R → Prop}
    (hwrite : ∀ g g', Write g g' → P g → P g') (h : Writes g g') (hg : P g) : P g' := by
  induction h with
  | refl => exact hg
  | tail _ hlast ih => exact hwrite _ _ hlast ih

theorem Write.extends (h : Write g g') : g.Extends g' := by
  cases h with
  | fact i t p _ => exact g.extends_addEdgeFact i (p.retarget t)
  | baseline i =>
      exact extends_modifyEdge (fun e => e.bare_addFacts _)
        (fun e => e.prefix_addFacts _) g i
  | attach n p =>
      exact extends_modifyNode (f := fun node => node.addFact p) (fun _ => rfl) g n
  | consume i position => exact g.extends_consume i position
  | consumeAll i =>
      exact extends_modifyEdge (f := Edge.consumeAll) (fun _ => rfl)
        (fun _ => List.prefix_refl _) g i

theorem Writes.extends (h : Writes g g') : g.Extends g' :=
  h.invariant (P := fun g' => g.Extends g') (fun _ _ hwrite hg => hg.trans hwrite.extends)
    (Extends.refl g)

/-- Obligations and equalities are no matter of propagation. -/
theorem Writes.obligations_eq (h : Writes g g') : g'.obligations = g.obligations :=
  h.invariant (P := fun g' => g'.obligations = g.obligations)
    (fun _ _ hwrite hg => by cases hwrite <;> exact hg) rfl

theorem Writes.foldl {α : Type} {step : FlowGraph R → α → FlowGraph R} {xs : List α}
    (h : ∀ g : FlowGraph R, g.Wired → ∀ a ∈ xs, Writes g (step g a)) (hg : g.Wired) :
    Writes g (xs.foldl step g) :=
  List.foldlRecOn (motive := fun g' : FlowGraph R => Writes g g') xs step (.refl g)
    fun _ hg' a ha => hg'.trans (h _ (hg'.extends.wired hg) a ha)

theorem writes_writeOutgoing (hg : g.Wired) (n : NodeId) (p : Fact R) :
    Writes g (g.writeOutgoing n p) := by
  unfold writeOutgoing
  refine List.foldlRecOn (motive := fun g' : FlowGraph R => Writes g g') _ _ (.refl g)
    fun g' hg' e he => ?_
  refine hg'.trans (Write.fact e.id e.term p fun e' he' => ?_).writes
  -- The edge has got facts since it was listed, but its variable is the same.
  obtain ⟨e₀, he₀, hbare, _⟩ := hg'.extends.exists_edge he'
  obtain rfl : e = e₀ := by simpa [hg.getElem?_id (hg.mem_outgoing.mp he).1] using he₀
  have hvar : e'.bare.term = e.bare.term := congrArg Edge.term hbare
  exact hvar.symm

theorem writes_applyEffect (hg : g.Wired) (n : NodeId) (effect : Effect R) :
    Writes g (g.applyEffect n effect) := by
  cases effect with
  | propagate p =>
      simp only [applyEffect]
      split
      · exact .refl g
      · exact writes_writeOutgoing hg n p
  | attach p => exact (Write.attach n p).writes
  | stop => exact .refl g

theorem writes_advance {x : Crossing R} (hx : x.graph.Wired) (effect : Fact R → Effect R)
    (n : NodeId) (e : EdgeId) (i : Nat) :
    Writes x.graph (Crossing.advance effect n e x i).graph := by
  unfold Crossing.advance
  split
  · exact .refl x.graph
  · dsimp only
    split
    · exact (Write.consume e i).writes
    · exact (writes_applyEffect hx n _).trans (Write.consume e i).writes

theorem writes_advanceEdge {x : Crossing R} (hx : x.graph.Wired)
    (effect : Nat → Fact R → Effect R) (n : NodeId) (e : Edge R) :
    Writes x.graph (Crossing.advanceEdge effect n x e).graph :=
  List.foldlRecOn (motive := fun y : Crossing R => Writes x.graph y.graph) _ _
    (.refl x.graph)
    fun _ hy i _ => hy.trans (writes_advance (hy.extends.wired hx) _ n e.id i)

theorem writes_fillDefaults (hg : g.Wired) (n : NodeId) : Writes g (g.fillDefaults n) :=
  Writes.foldl (fun _ _ e _ => (Write.baseline e.id).writes) hg

theorem writes_cross (hg : g.Wired) (rule : TransferRule R) (b : Block) (n : NodeId) :
    Writes g (g.cross rule b n) := by
  have hadvance : Writes g
      ((g.incomingByPin n).foldl (Crossing.advanceEdge (rule.advance (g.site b n)) n)
      ⟨g, []⟩).graph :=
    List.foldlRecOn (motive := fun y : Crossing R => Writes g y.graph) _ _ (.refl g)
      fun y hy e _ => hy.trans (writes_advanceEdge (hy.extends.wired hg) _ n e)
  exact hadvance.trans (writes_fillDefaults (hadvance.extends.wired hg) n)

theorem writes_seedNode (hg : g.Wired) (c : Setting) (n : NodeId) :
    Writes g (Propagation.seedNode c g n) := by
  unfold Propagation.seedNode
  split
  · exact .refl g
  · exact Writes.foldl (fun g hg p _ => writes_writeOutgoing hg n p) hg

theorem writes_consumeInside (hg : g.Wired) (members : List NodeId) :
    Writes g (Propagation.consumeInside g members) := by
  unfold Propagation.consumeInside
  refine Writes.foldl (fun g hg n _ => ?_) hg
  exact Writes.foldl (fun _ _ e _ => (Write.consumeAll e.id).writes) hg

end FlowGraph

namespace Propagation

open FlowGraph (Writes)

variable {R : Type} [Scalar R]

/-- Steps of the state that are made of writes, taken one after the other. -/
theorem writes_foldl {α : Type} {step : Propagation R → α → Propagation R}
    (h : ∀ (st : Propagation R) a, st.graph.Wired → Writes st.graph (step st a).graph)
    (st : Propagation R) (hst : st.graph.Wired) (xs : List α) :
    Writes st.graph (xs.foldl step st).graph :=
  List.foldlRecOn (motive := fun st' : Propagation R =>
    Writes st.graph st'.graph) xs step (.refl _)
    fun _ hst' a _ => hst'.trans (h _ a (hst'.extends.wired hst))

theorem writes_process (st : Propagation R) (hst : st.graph.Wired) (c : Setting)
    (n : NodeId) : Writes st.graph (st.process c n).graph := by
  unfold process
  split
  · exact .refl _
  · next b _ =>
      simp only [graph_warnUnknown]
      exact FlowGraph.writes_cross hst _ b n

theorem writes_processNew (st : Propagation R) (hst : st.graph.Wired) (c : Setting)
    (n : NodeId) : Writes st.graph (processNew c st n).graph := by
  rw [processNew_eq]
  split
  · exact .refl _
  · exact writes_process st hst c n

theorem writes_leave (st : Propagation R) (hst : st.graph.Wired) (c : Setting)
    (n : NodeId) : Writes st.graph (leave c st n).graph :=
  writes_processNew st.pop hst c n

theorem writes_publish (st : Propagation R) (hst : st.graph.Wired) (n : NodeId)
    (p : Option (Fact R)) : Writes st.graph (st.publish n p).graph := by
  cases p with
  | none => exact .refl _
  | some p => exact FlowGraph.writes_writeOutgoing hst n p

theorem writes_conclude (st : Propagation R) (hst : st.graph.Wired)
    (representative : NodeId) (id : BlockId) (output : Term R) (budget : Nat) (r : Run R) :
    Writes st.graph (st.conclude representative id output budget r).1.graph := by
  cases r with
  | failed cause trace => exact writes_publish (st.report _) hst representative _
  | closed rounds trace =>
      simp only [conclude]
      split
      · exact writes_publish st hst representative _
      · exact .refl _
  | exhausted rounds trace => exact writes_publish (st.report _) hst representative _

theorem writes_simulate (st : Propagation R) (hst : st.graph.Wired) (c : Setting)
    (members : List NodeId) (representative : NodeId) :
    Writes st.graph (st.simulate c members representative).1.graph := by
  unfold simulate
  split
  · exact .refl _
  · dsimp only
    split
    · exact .refl _
    · exact writes_conclude st hst representative _ _ _ _

theorem writes_finishLoop (st : Propagation R) (hst : st.graph.Wired) (c : Setting)
    (start : NodeId) (members : List NodeId) :
    Writes st.graph (finishLoop c start members st).graph := by
  have hsimulated : Writes st.graph
      (attempt c members (st.representativeOf c members start) st).1.graph := by
    rcases attempt_cases c members (st.representativeOf c members start) st with h | h
    · rw [h]
      exact writes_simulate st hst c members _
    · rw [h]
      exact .refl _
  rw [finishLoop_eq]
  dsimp only
  generalize attempt c members (st.representativeOf c members start) st = r at hsimulated ⊢
  have hwired := hsimulated.extends.wired hst
  have hprocessed :
      Writes r.1.graph ((rotateBehind (st.representativeOf c members start) members).foldl
      (processNew c) r.1).graph :=
    writes_foldl (fun st n hst => writes_processNew st hst c n) r.1 hwired _
  refine hsimulated.trans (hprocessed.trans ?_)
  exact FlowGraph.writes_consumeInside (hprocessed.extends.wired hwired) members

theorem writes_visit (c : Setting) (depth : Nat) (st : Propagation R) (n : NodeId)
    (hst : st.graph.Wired) : Writes st.graph (visit c depth st n).graph := by
  induction depth generalizing st n with
  | zero => exact .refl _
  | succ depth ih =>
      rw [visit_succ]
      split
      · exact .refl _
      · split
        · split
          · exact .refl _
          have hsources := writes_foldl ih (st.enterLoop (st.graph.cycleThrough n)) hst
            (outerSources st.graph (st.graph.cycleThrough n))
          exact hsources.trans (writes_finishLoop _ (hsources.extends.wired hst) c n _)
        · have hsources := writes_foldl ih (st.enter n) hst (st.graph.predecessors n)
          exact hsources.trans (writes_leave _ (hsources.extends.wired hst) c n)

/-- Propagation is made of writes. -/
theorem writes_run (c : Setting) (order : RunOrder) {g : FlowGraph R} (hg : g.Wired) :
    Writes g (run c order g).graph := by
  rw [run_eq]
  have hseeded : Writes g (seeded c g) :=
    Writes.foldl (fun g hg n _ => FlowGraph.writes_seedNode hg c n) hg
  exact hseeded.trans (writes_foldl (fun st n => writes_visit c _ st n) { graph := _ }
    (hseeded.extends.wired hg) _)

end Propagation
end SignalFlow
