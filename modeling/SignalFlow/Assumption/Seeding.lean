import SignalFlow.Assumption.Basic
import SignalFlow.FlowGraph.Basic

/-!
# Seeding a flow graph

Assumptions are written to the edges out of the blocks they select.  Assumptions that
select nothing are passed over.
-/

namespace SignalFlow

variable {R : Type} [Scalar R]

/-- The edges out of an output pin, counted from one. -/
def FlowGraph.edgesFrom (g : FlowGraph R) (n : NodeId) (index : Nat) : List EdgeId :=
  ((g.outgoing n).filter fun e => e.source.pin + 1 == index).map Edge.id

/-- Add the facts that statements stand for at the signal of an edge. -/
def Edge.assume (statements : List (Statement R)) (e : Edge R) : Edge R :=
  e.addFacts (statements.map fun s => s.fact e.term)

namespace Assumptions

/-- Write the statements about a pin. -/
def seedPin (n : NodeId) (g : FlowGraph R) (p : PinAssumption R) : FlowGraph R :=
  (g.edgesFrom n p.index).foldl (fun g e => g.modifyEdge e (Edge.assume p.statements)) g

/-- The node of the first block that is selected. -/
def selectedNode? (d : Diagram) (g : FlowGraph R) (s : Selector) : Option NodeId :=
  (d.blocks.find? s.matches).bind fun b => g.nodeOf? b.id

/-- Write the assumptions about a block. -/
def seedBlock (d : Diagram) (g : FlowGraph R) (a : BlockAssumption R) : FlowGraph R :=
  match selectedNode? d g a.selector with
  | none => g
  | some n => a.pins.foldl (seedPin n) g

/-- Write all assumptions. -/
def seed (as : Assumptions R) (d : Diagram) (g : FlowGraph R) : FlowGraph R :=
  as.foldl (seedBlock d) g

end Assumptions

/-! ### Counting what is new -/

/-- How many of the facts are new when they are added one after the other. -/
def Edge.countNew (e : Edge R) : List (Fact R) → Nat
  | [] => 0
  | p :: ps => if e.carries p then e.countNew ps else (e.addFact p).countNew ps + 1

/-- How many of the facts are new that statements stand for at the signal of an edge. -/
def FlowGraph.countNew (g : FlowGraph R) (e : EdgeId)
    (statements : List (Statement R)) : Nat :=
  match g.edges[e]? with
  | none => 0
  | some edge => edge.countNew (statements.map fun s => s.fact edge.term)

namespace Assumptions

/-- Write the statements about a pin, and add the number of new facts. -/
def seedPinCounted (n : NodeId) (s : Nat × FlowGraph R) (p : PinAssumption R) :
    Nat × FlowGraph R :=
  (s.2.edgesFrom n p.index).foldl
    (fun s e =>
      (s.1 + s.2.countNew e p.statements, s.2.modifyEdge e (Edge.assume p.statements))) s

/-- Write the assumptions about a block, and add the number of new facts. -/
def seedBlockCounted (d : Diagram) (s : Nat × FlowGraph R) (a : BlockAssumption R) :
    Nat × FlowGraph R :=
  match selectedNode? d s.2 a.selector with
  | none => s
  | some n => a.pins.foldl (seedPinCounted n) s

/-- The number of facts that were new, and the graph with all assumptions written. -/
def seedCounted (as : Assumptions R) (d : Diagram) (g : FlowGraph R) : Nat × FlowGraph R :=
  as.foldl (seedBlockCounted d) (0, g)

end Assumptions
end SignalFlow
