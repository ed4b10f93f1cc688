import SignalFlow.Diagram.Basic
import SignalFlow.Fact.Basic

/-!
# Flow graphs

Nodes stand for blocks and edges for signals.  An edge carries the facts known about its
signal, and beside them a flag for each that says whether it has been pushed across the
block the edge leads to; a node carries facts that stay with its block.

Nodes and edges are kept in the order of their insertion, with the numbers that an
allocator hands out.  Two maps lead from blocks and signals to these numbers.  No block,
signal, fact, obligation or equality is inserted twice.
-/

namespace SignalFlow

/-- Position of a node. -/
abbrev NodeId := Nat

/-- Position of an edge. -/
abbrev EdgeId := Nat

/-- A block of the diagram. -/
structure Node (R : Type) where
  id : NodeId
  block : BlockId
  incoming : List EdgeId := []
  outgoing : List EdgeId := []
  facts : List (Fact R) := []

/-- A node and one of its pins. -/
structure Socket where
  node : NodeId
  pin : Nat
  deriving Repr, DecidableEq

/-- A signal of the diagram; `var` stands for its value.  A fact is consumed once it has
been pushed across the block the edge leads to. -/
structure Edge (R : Type) where
  id : EdgeId
  signal : SignalId
  source : Socket
  target : Socket
  var : String
  facts : List (Fact R) := []
  consumed : List Bool := []

/-- The numbers that are handed out next. -/
structure Allocator where
  nextNode : NodeId := 0
  nextEdge : EdgeId := 0
  deriving Repr, DecidableEq

/-- Nodes, edges, the maps from blocks and signals to them, the numbers to come, the
obligations that were found, and equalities between signals.  In the maps a later entry for
a key stands before an earlier one. -/
structure FlowGraph (R : Type) where
  nodes : List (Node R) := []
  edges : List (Edge R) := []
  nodeIndex : List (BlockId × NodeId) := []
  edgeIndex : List (SignalId × EdgeId) := []
  allocator : Allocator := {}
  obligations : List (Formula R) := []
  equalities : List (Relation R) := []

variable {R : Type}

namespace Node

/-- Attach a fact, unless it is there already. -/
def addFact [Scalar R] (n : Node R) (p : Fact R) : Node R :=
  { n with facts := insertLast n.facts p }

end Node

namespace Edge

/-- The variable of the edge as a term. -/
def term (e : Edge R) : Term R :=
  .var e.var

/-- Whether the edge carries a fact. -/
def carries [Scalar R] (e : Edge R) (p : Fact R) : Bool :=
  e.facts.contains p

/-- Add a fact that is not consumed, unless it is there already. -/
def addFact [Scalar R] (e : Edge R) (p : Fact R) : Edge R :=
  if e.carries p then e
    else { e with facts := e.facts ++ [p], consumed := e.consumed ++ [false] }

/-- Add several facts. -/
def addFacts [Scalar R] (e : Edge R) (ps : List (Fact R)) : Edge R :=
  ps.foldl addFact e

/-- Positions of the facts that are not consumed. -/
def unconsumed (e : Edge R) : List Nat :=
  (List.range e.facts.length).filter fun i => e.consumed[i]?.any fun flag => !flag

/-- Mark the fact at a position as consumed. -/
def consume (e : Edge R) (i : Nat) : Edge R :=
  { e with consumed := e.consumed.set i true }

/-- Mark all facts as consumed. -/
def consumeAll (e : Edge R) : Edge R :=
  { e with consumed := e.consumed.map fun _ => true }

/-- Whether a fact of the category is carried. -/
def hasCategory (e : Edge R) (c : Category) : Bool :=
  e.facts.any fun p => p.category == c

/-- The signal facts as boundaries. -/
def boundaries [Scalar R] (e : Edge R) : List (Boundary R) :=
  e.facts.filterMap Fact.asBoundary?

end Edge

namespace Allocator

/-- Hand out the number of a node. -/
def allocNode (a : Allocator) : NodeId × Allocator :=
  (a.nextNode, { a with nextNode := a.nextNode + 1 })

/-- Hand out the number of an edge. -/
def allocEdge (a : Allocator) : EdgeId × Allocator :=
  (a.nextEdge, { a with nextEdge := a.nextEdge + 1 })

end Allocator

namespace FlowGraph

/-- A graph without nodes. -/
def empty : FlowGraph R :=
  {}

/-- The node of a block. -/
def nodeOf? (g : FlowGraph R) (block : BlockId) : Option NodeId :=
  g.nodeIndex.lookup block

/-- The edge of a signal. -/
def edgeOf? (g : FlowGraph R) (signal : SignalId) : Option EdgeId :=
  g.edgeIndex.lookup signal

/-- The block of a node. -/
def blockOf? (g : FlowGraph R) (n : NodeId) : Option BlockId :=
  g.nodes[n]?.map Node.block

/-- Change a node. -/
def modifyNode (g : FlowGraph R) (n : NodeId) (f : Node R → Node R) : FlowGraph R :=
  { g with nodes := g.nodes.modify n f }

/-- Change an edge. -/
def modifyEdge (g : FlowGraph R) (e : EdgeId) (f : Edge R → Edge R) : FlowGraph R :=
  { g with edges := g.edges.modify e f }

/-- The node of a block, which is appended if there is none. -/
def insertNode (g : FlowGraph R) (block : BlockId) : NodeId × FlowGraph R :=
  match g.nodeOf? block with
  | some n => (n, g)
  | none =>
      let (n, allocator) := g.allocator.allocNode
      (n, { g with
        nodes := g.nodes ++ [{ id := n, block := block }]
        nodeIndex := (block, n) :: g.nodeIndex
        allocator := allocator })

/-- The edge of a signal, which is appended if there is none. -/
def insertEdge (g : FlowGraph R) (signal : SignalId) (source target : Socket)
    (var : String) : EdgeId × FlowGraph R :=
  match g.edgeOf? signal with
  | some e => (e, g)
  | none =>
      let (e, allocator) := g.allocator.allocEdge
      let edge : Edge R := { id := e, signal, source, target, var }
      let g := { g with
        edges := g.edges ++ [edge]
        edgeIndex := (signal, e) :: g.edgeIndex
        allocator := allocator }
      let g := g.modifyNode source.node fun n => { n with outgoing := n.outgoing ++ [e] }
      (e, g.modifyNode target.node fun n => { n with incoming := n.incoming ++ [e] })

/-- Edges into a node, in the order of their insertion. -/
def incoming (g : FlowGraph R) (n : NodeId) : List (Edge R) :=
  match g.nodes[n]? with
  | some node => node.incoming.filterMap fun e => g.edges[e]?
  | none => []

/-- Edges out of a node, in the order of their insertion. -/
def outgoing (g : FlowGraph R) (n : NodeId) : List (Edge R) :=
  match g.nodes[n]? with
  | some node => node.outgoing.filterMap fun e => g.edges[e]?
  | none => []

/-- Edges into a node, in the order of their pins. -/
def incomingByPin (g : FlowGraph R) (n : NodeId) : List (Edge R) :=
  (g.incoming n).mergeSort fun a b => a.target.pin ≤ b.target.pin

/-- The nodes that feed a node, in the order of their pins. -/
def predecessors (g : FlowGraph R) (n : NodeId) : List NodeId :=
  distinct ((g.incomingByPin n).map fun e => e.source.node)

/-- The nodes that a node feeds. -/
def successors (g : FlowGraph R) (n : NodeId) : List NodeId :=
  distinct ((g.outgoing n).map fun e => e.target.node)

/-- The edge into an input pin. -/
def inputEdge? (g : FlowGraph R) (n : NodeId) (pin : Nat) : Option (Edge R) :=
  (g.incoming n).find? fun e => e.target.pin == pin

/-- The nodes that feed no other. -/
def sinks (g : FlowGraph R) : List NodeId :=
  (g.nodes.filter fun n => n.outgoing.isEmpty).map Node.id

variable [Scalar R]

/-- Add a fact to an edge. -/
def addEdgeFact (g : FlowGraph R) (e : EdgeId) (p : Fact R) : FlowGraph R :=
  g.modifyEdge e fun edge => edge.addFact p

/-- Attach a fact to a node. -/
def addNodeFact (g : FlowGraph R) (n : NodeId) (p : Fact R) : FlowGraph R :=
  g.modifyNode n fun node => node.addFact p

/-- Add an obligation. -/
def addObligation (g : FlowGraph R) (p : Formula R) : FlowGraph R :=
  { g with obligations := insertLast g.obligations p }

/-- Add an equality between signals. -/
def addEquality (g : FlowGraph R) (r : Relation R) : FlowGraph R :=
  { g with equalities := insertLast g.equalities r }

end FlowGraph
end SignalFlow
