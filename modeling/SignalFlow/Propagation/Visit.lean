import SignalFlow.Diagram.Order
import SignalFlow.Propagation.Loop

/-!
# Visiting a flow graph

Nodes are visited against the edges, so that the nodes that feed a node are processed
before it.  Reaching a node that is still active closes a loop, which is resolved at once.
-/

namespace SignalFlow
namespace Propagation

variable {R : Type} [Scalar R]

/-- A node is done, whether or not it has been processed. -/
def markDone (st : Propagation R) (n : NodeId) : Propagation R :=
  { st with done := insertLast st.done n }

/-- A node becomes active. -/
def enter (st : Propagation R) (n : NodeId) : Propagation R :=
  { st with active := st.active ++ [n] }

/-- The last active node is no longer active. -/
def pop (st : Propagation R) : Propagation R :=
  { st with active := st.active.dropLast }

/-- A loop begins to be resolved. -/
def enterLoop (st : Propagation R) (members : List NodeId) : Propagation R :=
  { st with resolving := st.resolving ++ members }

/-- Visit a node down to the given depth.  Each level of a visit makes another node active
or resolves a loop at another node, so that twice the number of nodes is deep enough.
Where no loop is found through an active node, there is nothing to resolve, and the node is
done as it is. -/
def Steps.visit {m : Type → Type} [Monad m] (s : Steps m R) (c : Setting) :
    Nat → Propagation R → NodeId → m (Propagation R)
  | 0, st, _ => pure st
  | depth + 1, st, n =>
      if st.done.contains n || st.resolving.contains n then pure st
      else if st.active.contains n then do
        let members := st.graph.cycleThrough n
        if members.isEmpty then pure (st.markDone n)
        else
          let st ← (outerSources st.graph members).foldlM (s.visit c depth)
            (st.enterLoop members)
          let st ← s.finishLoop c n members st
          pure (st.markDone n)
      else do
        let st ← (st.graph.predecessors n).foldlM (s.visit c depth) (st.enter n)
        s.processNew st.pop n

/-- Write the facts that a block establishes by itself. -/
def seedNode (c : Setting) (g : FlowGraph R) (n : NodeId) : FlowGraph R :=
  match c.block? g n with
  | none => g
  | some b =>
      ((c.rule b : TransferRule R).generate b).foldl (fun g p => g.writeOutgoing n p) g

/-- The nodes that visits start from: sinks first, then all others in run order. -/
def starts (g : FlowGraph R) (order : RunOrder) : List NodeId :=
  (order.all.filterMap g.nodeOf?).foldl insertLast g.sinks

/-- The graph with the facts that blocks establish by themselves. -/
def seeded (c : Setting) (g : FlowGraph R) : FlowGraph R :=
  (g.nodes.map Node.id).foldl (seedNode c) g

/-- Visit all nodes of a flow graph, after its blocks have established their own facts. -/
def Steps.run {m : Type → Type} [Monad m] (s : Steps m R) (c : Setting) (order : RunOrder)
    (g : FlowGraph R) : m (Propagation R) :=
  let g := seeded c g
  (starts g order).foldlM (s.visit c (2 * g.nodes.length + 2)) { graph := g }

/-- Propagate the facts of a flow graph, as if inputs could always be counted. -/
def run (c : Setting) (order : RunOrder) (g : FlowGraph R) : Propagation R :=
  Id.run ((Steps.unchecked c).run c order g)

/-- Propagate the facts of a flow graph; there is no result if the inputs of a block cannot
be counted. -/
def run? (c : Setting) (order : RunOrder) (g : FlowGraph R) : Option (Propagation R) :=
  (Steps.checked c).run c order g

end Propagation
end SignalFlow
