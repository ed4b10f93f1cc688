import SignalFlow.FlowGraph.Basic

/-!
# Text of flow graphs

One line for every edge, followed by its facts.
-/

namespace SignalFlow
namespace FlowGraph

variable {R : Type} [Scalar R]

/-- A block by its identifier. -/
def blockLabel (id : BlockId) : String :=
  "b" ++ toString id

/-- A signal by its identifier. -/
def signalLabel (id : SignalId) : String :=
  "s" ++ toString id

/-- A node and a pin. -/
def socketLabel (g : FlowGraph R) (s : Socket) : String :=
  ((g.blockOf? s.node).map blockLabel).getD "" ++ ":" ++ toString s.pin

/-- An edge with its facts. -/
def renderEdge (g : FlowGraph R) (e : Edge R) : String :=
  "  " ++ signalLabel e.signal ++ " " ++ g.socketLabel e.source ++ " -> " ++
    g.socketLabel e.target
    ++ " [" ++ e.var ++ "]\n" ++ String.join (e.facts.map fun p =>
      "    " ++ p.render ++ "\n")

/-- Text of a graph. -/
def render (g : FlowGraph R) : String :=
  "InvariantGraph (" ++ toString g.nodes.length ++ " nodes, " ++
    toString g.edges.length ++ " edges)\n"
    ++ String.join (g.edges.map g.renderEdge)
    ++ (if g.obligations.isEmpty then ""
      else "  obligations: " ++ toString g.obligations.length ++ "\n")

end FlowGraph
end SignalFlow
