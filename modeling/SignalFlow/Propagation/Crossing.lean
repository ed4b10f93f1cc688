import SignalFlow.Propagation.Basic

/-!
# Processing a node

Every fact on an edge into a node that is not consumed yet is advanced across the block.
Inputs are taken in the order of their pins; a fact that has been seen at an earlier input
is not advanced again.
-/

namespace SignalFlow

/-- State while the facts at a node are advanced. -/
structure Crossing (R : Type) where
  graph : FlowGraph R
  seen : List (Fact R)

variable {R : Type} [Scalar R]

/-- Carry out the effect of a fact that arrived at a node. -/
def FlowGraph.applyEffect (g : FlowGraph R) (n : NodeId) : Effect R → FlowGraph R
  | .propagate p => if p.isNoInformation then g else g.writeOutgoing n p
  | .attach p => g.addNodeFact n p
  | .stop => g

namespace Crossing

/-- Advance the fact at position `i` of the edge `e`, and mark it as consumed. -/
def advance (effect : Fact R → Effect R) (n : NodeId) (e : EdgeId)
    (x : Crossing R) (i : Nat) : Crossing R :=
  match x.graph.edges[e]?.bind fun edge => edge.facts[i]? with
  | none => x
  | some p =>
      let consume (g : FlowGraph R) : FlowGraph R := g.modifyEdge e fun edge =>
        edge.consume i
      if x.seen.contains p then { x with graph := consume x.graph }
      else { graph := consume (x.graph.applyEffect n (effect p)), seen := x.seen ++ [p] }

/-- Advance the facts of an edge. -/
def advanceEdge (effect : Nat → Fact R → Effect R) (n : NodeId) (x : Crossing R)
    (e : Edge R) : Crossing R :=
  ((x.graph.edges[e.id]?.map Edge.unconsumed).getD []).foldl
    (advance (effect e.target.pin) n e.id) x

end Crossing

/-- Advance all facts at a node across its block, and give every edge out of it a fact of
each category. -/
def FlowGraph.cross (g : FlowGraph R) (rule : TransferRule R) (b : Block) (n : NodeId) :
    FlowGraph R :=
  let effect := rule.advance (g.site b n)
  ((g.incomingByPin n).foldl (Crossing.advanceEdge effect n) ⟨g, []⟩).graph.fillDefaults n

namespace Propagation

/-- Report a block of unknown type, once for every type. -/
def warnUnknown (st : Propagation R) (c : Setting) (b : Block) : Propagation R :=
  if (c.catalogue b.type).isSome || st.warned.contains b.type then st
  else
    { st with
      warned := st.warned ++ [b.type]
      diagnostics := st.diagnostics ++
        [((Diagnostic.warning .noTransferRule
          ("no analyzer for block type '" ++ b.type ++ "'")).atBlock
          b.id).withHint "facts stop at blocks of this type"] }

/-- Process a node, which is done then. -/
def process (st : Propagation R) (c : Setting) (n : NodeId) : Propagation R :=
  match c.block? st.graph n with
  | none => { st with done := st.done ++ [n], processed := st.processed ++ [n] }
  | some b =>
      let st := st.warnUnknown c b
      { st with
        graph := st.graph.cross (c.rule b) b n
        done := st.done ++ [n]
        processed := st.processed ++ [n] }

/-- Process a node, unless it has a block whose inputs cannot be counted. -/
def process? (st : Propagation R) (c : Setting) (n : NodeId) : Option (Propagation R) :=
  if (c.block? st.graph n).isSome && !st.graph.countable n then none
    else some (st.process c n)

end Propagation
end SignalFlow
