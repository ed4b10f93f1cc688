import SignalFlow.Diagnostic
import SignalFlow.FlowGraph.Basic
import SignalFlow.Limits
import SignalFlow.Text.Natural
import SignalFlow.Transfer.Rule

/-!
# Propagation of facts

Facts are pushed forward along the edges of a flow graph: each fact on an edge into a node
is advanced across the block of the node and written to the edges out of it.  This module
has the setting and the state of a propagation, and how a node reads its inputs and writes
its outputs.
-/

namespace SignalFlow

/-- What a propagation works with. -/
structure Setting where
  diagram : Diagram
  catalogue : Catalogue := .builtin
  limits : Limits := {}

/-- Why a loop could not be simulated to an end. -/
inductive LoopFailure where
  /-- A node of the loop stands for no block. -/
  | missingBlock (node : NodeId)
  | emptyLoop
  /-- Nothing is known to start from. -/
  | noSeed
  deriving Repr, DecidableEq

/-- Wording of a failure. -/
def LoopFailure.message : LoopFailure → String
  | .missingBlock n => "loop node " ++ toString n ++ " has no block"
  | .emptyLoop => "loop has no members"
  | .noSeed => "no seed"

/-- How a loop was resolved. -/
inductive LoopOutcome (R : Type) where
  /-- The simulation closed after some rounds; the summary holds in all of them. -/
  | fixpoint (rounds : Nat) (summary : Fact R)
  /-- The simulation gave at most the sign of the values. -/
  | sign (rounds : Nat) (fact : Option (Fact R))
  | failed (cause : LoopFailure)
  /-- One of the blocks cannot be simulated. -/
  | unsimulated

/-- A resolved loop: its blocks along the signals, and the block whose output was
simulated. -/
structure LoopRecord (R : Type) where
  members : List BlockId
  representative : Option BlockId
  outcome : LoopOutcome R

/-- State of a propagation. -/
structure Propagation (R : Type) where
  graph : FlowGraph R
  /-- Nodes that are not to be processed any more, in the order in which this was
  settled. -/
  done : List NodeId := []
  /-- Nodes that have been processed, in this order. -/
  processed : List NodeId := []
  /-- Nodes on the current path against the edges, innermost last. -/
  active : List NodeId := []
  /-- Members of loops that are being resolved. -/
  resolving : List NodeId := []
  /-- Type tags that a diagnostic has been given for. -/
  warned : List String := []
  loops : List (LoopRecord R) := []
  diagnostics : List Diagnostic := []

namespace Setting

variable {R : Type}

/-- The block of a node. -/
def block? (c : Setting) (g : FlowGraph R) (n : NodeId) : Option Block :=
  (g.blockOf? n).bind c.diagram.block?

/-- The rule for a block. -/
def rule [Scalar R] (c : Setting) (b : Block) : TransferRule R :=
  c.catalogue.rule b.type

/-- How the block of a node acts. -/
def behaviour [Scalar R] (c : Setting) (g : FlowGraph R) (n : NodeId) : Behaviour :=
  match c.block? g n with
  | some b => (c.rule b : TransferRule R).behaviour
  | none => .blackBox

end Setting

namespace FlowGraph

variable {R : Type}

/-- Number of inputs of a node, whether declared or connected. -/
def inletCount (g : FlowGraph R) (b : Block) (n : NodeId) : Nat :=
  (g.incoming n).foldl (fun count e => max count (e.target.pin + 1)) b.inputs

/-- Whether the inputs of a node can be counted: numbers have 32 bits, and the last of them
has no successor. -/
def countable (g : FlowGraph R) (n : NodeId) : Bool :=
  (g.incoming n).all fun e => e.target.pin + 1 < Text.idLimit

/-- What is known at an input pin. -/
def inlet (g : FlowGraph R) (n : NodeId) (pin : Nat) : Inlet R :=
  let edges := (g.incoming n).filter fun e => e.target.pin == pin
  ⟨edges.getLast?.map Edge.var, edges.flatMap Edge.facts⟩

/-- A block with what is known at its inputs. -/
def site (g : FlowGraph R) (b : Block) (n : NodeId) : Site R :=
  ⟨b, (List.range (g.inletCount b n)).map (g.inlet n)⟩

variable [Scalar R]

/-- Write a fact to every edge out of a node, as a statement about the variable of the
edge. -/
def writeOutgoing (g : FlowGraph R) (n : NodeId) (p : Fact R) : FlowGraph R :=
  (g.outgoing n).foldl (fun g e => g.addEdgeFact e.id (p.retarget e.term)) g

/-- The facts that say nothing, for every category the edge lacks. -/
def defaults (e : Edge R) : List (Fact R) :=
  (Category.all.filter fun c => !e.hasCategory c).map (Fact.noInformation e.var)

/-- Give every edge out of a node a fact of each category. -/
def fillDefaults (g : FlowGraph R) (n : NodeId) : FlowGraph R :=
  (g.outgoing n).foldl (fun g e => g.modifyEdge e.id fun e => e.addFacts (defaults e)) g

end FlowGraph
end SignalFlow
