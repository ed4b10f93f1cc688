import SignalFlow.Diagram.Basic
import SignalFlow.Propagation.Basic

/-!
# Drawings of flow graphs

A flow graph in the DOT language: a node for every block, an edge with its facts for every
signal, and the loops in red.
-/

namespace SignalFlow
namespace Drawing

variable {R : Type} [Scalar R]

/-- The name of a diagram as an identifier. -/
def identifier (name : String) : String :=
  if name == "" then "model"
  else String.ofList (name.toList.map fun c => if Block.isWordChar c then c else '_')

/-- A character inside quotes. -/
def escapeChar (c : Char) : List Char :=
  if c = '\\' then ['\\', '\\'] else if c = '\x22' then ['\\', '\x22'] else [c]

/-- A text inside quotes. -/
def escape (text : String) : String :=
  String.ofList (text.toList.flatMap escapeChar)

/-- Whether a block is the representative of a loop. -/
def isRepresentative (loops : List (LoopRecord R)) (b : Block) : Bool :=
  loops.any fun l => l.representative == some b.id

/-- The line of a node. -/
def nodeLine (d : Diagram) (loops : List (LoopRecord R)) (n : Node R) : String :=
  match d.block? n.block with
  | none => ""
  | some b =>
      let shape := if b.type == "Inport" || b.type == "Outport" then "ellipse" else "box"
      let style := if isRepresentative loops b then ", style=bold" else ""
      "    n" ++ toString n.id ++ " [label=\"" ++ escape b.name ++ "\\n" ++ b.type ++
        "\", shape=" ++ shape
        ++ style ++ "];\n"

/-- Whether both ends of an edge belong to one loop. -/
def isOnLoop (g : FlowGraph R) (loops : List (LoopRecord R)) (e : Edge R) : Bool :=
  match g.blockOf? e.source.node, g.blockOf? e.target.node with
  | some a, some b => loops.any fun l => l.members.contains a && l.members.contains b
  | _, _ => false

/-- The line of an edge. -/
def edgeLine (g : FlowGraph R) (loops : List (LoopRecord R)) (e : Edge R) : String :=
  let facts := (e.facts.filter fun p => !p.isNoInformation).map fun p =>
    "\\n" ++ escape p.render
  let style := if isOnLoop g loops e then ", color=red, penwidth=2" else ""
  "    n" ++ toString e.source.node ++ " -> n" ++ toString e.target.node ++ " [label=\"" ++
    escape e.var
    ++ String.join facts ++ "\"" ++ style ++ "];\n"

/-- A short text of an outcome. -/
def outcomeLabel : LoopOutcome R → String
  | .fixpoint rounds _ => "fixpoint after " ++ toString rounds ++ " rounds"
  | .sign rounds (some _) => "sign fact after " ++ toString rounds ++ " rounds"
  | .sign rounds none => "no fact after " ++ toString rounds ++ " rounds"
  | .failed _ => "simulation failed"
  | .unsimulated => "not simulable"

/-- The lines about loops. -/
def loopLines (loops : List (LoopRecord R)) : String :=
  if loops.isEmpty then ""
  else "\n" ++ String.join (loops.zipIdx.map fun (l, i) =>
    "    // loop " ++ toString i ++ ": " ++ outcomeLabel l.outcome ++ "\n")

/-- The drawing of a flow graph. -/
def ofGraph (d : Diagram) (g : FlowGraph R) (loops : List (LoopRecord R)) : String :=
  "digraph " ++ identifier d.name ++ " \x7b\n    rankdir=LR;\n"
    ++ "    node [fontname=\"Helvetica\", fontsize=10];\n"
    ++ "    edge [fontname=\"Helvetica\", fontsize=9];\n\n"
    ++ String.join (g.nodes.map (nodeLine d loops)) ++ "\n"
    ++ String.join (g.edges.map (edgeLine g loops)) ++ loopLines loops ++ "\x7d\n"

end Drawing
end SignalFlow
