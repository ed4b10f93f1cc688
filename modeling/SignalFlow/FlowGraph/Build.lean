import SignalFlow.Diagnostic
import SignalFlow.Diagram.Order
import SignalFlow.FlowGraph.Basic

/-!
# The flow graph of a diagram

Blocks are laid out in run order, and each block brings the signals that end at it, in the
order of its pins.  The numbers of nodes and edges are compared with those of the diagram.
-/

namespace SignalFlow
namespace FlowGraph

variable {R : Type}

/-- Insert a signal that ends at the node `target`; its source comes along if it exists. -/
def layOutSignal (d : Diagram) (target : NodeId) (g : FlowGraph R) (s : Signal) :
    FlowGraph R :=
  match d.block? s.source.block with
  | none => g
  | some b =>
      let (source, g) := g.insertNode b.id
      (g.insertEdge s.id ⟨source, s.source.index⟩ ⟨target, s.target.index⟩
        (b.outputVar s.source.index)).2

/-- The signals that end at a block, in the order of its pins. -/
def feeding (d : Diagram) (id : BlockId) : List Signal :=
  (d.signals.filter fun s => s.target.block == id).mergeSort fun a b =>
    a.target.index ≤ b.target.index

/-- Insert a block and the signals that end at it. -/
def layOutBlock (d : Diagram) (g : FlowGraph R) (id : BlockId) : FlowGraph R :=
  match d.block? id with
  | none => g
  | some _ =>
      let (target, g) := g.insertNode id
      (feeding d id).foldl (layOutSignal d target) g

/-- The flow graph of a diagram, laid out in the given order. -/
def ofDiagram (d : Diagram) (order : RunOrder) : FlowGraph R :=
  order.all.foldl (layOutBlock d) .empty

/-- Differences between the numbers of nodes and blocks, and of edges and signals. -/
def checkCounts (d : Diagram) (g : FlowGraph R) : List Diagnostic :=
  (if g.nodes.length == d.blocks.length then []
    else
      [(Diagnostic.error .nodeCount
        ("invariant graph has " ++ toString g.nodes.length ++ " nodes but the model has "
          ++ toString d.blocks.length ++ " blocks")).withHint
        "duplicate block ids collapse into one node"])
  ++ (if g.edges.length == d.signals.length then []
    else
      [(Diagnostic.error .edgeCount
        ("invariant graph has " ++ toString g.edges.length ++ " edges but the model has "
          ++ toString d.signals.length ++ " signal lines")).withHint
        "check for signals with dangling endpoints"])

end FlowGraph
end SignalFlow
