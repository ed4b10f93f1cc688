import SignalFlow.Diagram.Parameter
import SignalFlow.FlowGraph.Cycles
import SignalFlow.Limits
import SignalFlow.Satisfiability.Interval

/-!
# Proof obligations

What has to be proved about a diagram once the facts are known: divisors are not zero, and
integrators, signals and loops stay within the integer limits.  An obligation is left out
where the facts settle it.
-/

namespace SignalFlow
namespace Obligation

variable {R : Type} [Scalar R]

/-- A variable does not exceed the upper limit. -/
def atMost (l : Limits) (x : String) : Formula R :=
  .compare (.var x) .le (.num l.upper)

/-- A variable does not fall below the lower limit. -/
def atLeast (l : Limits) (x : String) : Formula R :=
  .compare (.var x) .ge (.num l.lower)

/-- A variable is not zero. -/
def nonzero (x : String) : Formula R :=
  .compare (.var x) .ne (.num 0)

/-- The signal facts of an edge that say something. -/
def informative (e : Edge R) : List (Fact R) :=
  e.facts.filter Fact.isInformativeSignal

/-- The kind of a block, whatever the catalogue. -/
def kind? (b : Block) : Option BlockKind :=
  BlockKind.ofTag? b.type

/-- The edges that carry a divisor of a block. -/
def divisorEdges (g : FlowGraph R) (b : Block) (n : NodeId) : List (Edge R) :=
  b.divisors.zipIdx.filterMap fun (divisor, pin) =>
    if divisor then g.inputEdge? n pin else none

/-- Divisors that may be zero. -/
def ofDivision (g : FlowGraph R) (b : Block) (n : NodeId) : List (Formula R) :=
  match kind? b with
  | some .product | some .divide =>
      ((divisorEdges g b n).filter fun e => (informative e).all Fact.crossesZero).map
          fun e =>
        nonzero e.var
  | _ => []

/-- Whether the facts of an edge leave room for a value that stands in a comparison to
zero. -/
def mayBe (oracle : Oracle R) (e : Edge R) (c : Comparison) : Bool :=
  match (informative e).map Fact.toFormula with
  | [] => true
  | known => (oracle (.conj [.conj known, .compare e.term c (.num 0)])).isPossible

/-- Integrators that are not limited and whose input may be negative or positive. -/
def ofIntegrator (oracle : Oracle R) (l : Limits) (g : FlowGraph R) (b : Block)
    (n : NodeId) : List (Formula R) :=
  match kind? b with
  | some .integrator | some .discreteIntegrator =>
      if b.isOn "LimitOutput" || b.isOn "WrapState" then []
      else
        let may (c : Comparison) : Bool :=
          match g.inputEdge? n 0 with
          | some e => mayBe oracle e c
          | none => true
        (if may .lt then [atLeast l (b.outputVar 0)] else [])
          ++ (if may .gt then [atMost l (b.outputVar 0)] else [])
  | _ => []

/-- Signals with a finite range beyond the limits. -/
def ofRange (l : Limits) (x : String) (r : Range R) : List (Formula R) :=
  (if Scalar.isFinite r.hi && l.upper < r.hi then [atMost l x] else [])
    ++ (if Scalar.isFinite r.lo && r.lo < l.lower then [atLeast l x] else [])

/-- Signals whose facts reach beyond the limits. -/
def ofEdge (l : Limits) (e : Edge R) : List (Formula R) :=
  (e.boundaries.filterMap Boundary.hull?).flatMap (ofRange l e.var)

/-- Blocks that compute without a limit. -/
def isArithmetic (b : Block) : Bool :=
  match kind? b with
  | some .gain | some .product | some .sum | some .add | some .subtract | some .divide =>
      true
  | _ => false

/-- Arithmetic on a cycle. -/
def ofCycle (l : Limits) (b : Block) : List (Formula R) :=
  if isArithmetic b then [atMost l (b.outputVar 0), atLeast l (b.outputVar 0)] else []

/-- Obligations that arise node by node. -/
def forNodes (d : Diagram) (g : FlowGraph R) (nodes : List NodeId)
    (rule : Block → NodeId → List (Formula R)) : List (Formula R) :=
  nodes.flatMap fun n =>
    match (g.blockOf? n).bind d.block? with
    | some b => rule b n
    | none => []

/-- All obligations of a diagram, in the order in which they are derived. -/
def derive (oracle : Oracle R) (l : Limits) (d : Diagram) (g : FlowGraph R) :
    List (Formula R) :=
  let nodes := g.nodes.map Node.id
  forNodes d g nodes (ofDivision g)
    ++ forNodes d g nodes (ofIntegrator oracle l g)
    ++ g.edges.flatMap (ofEdge l)
    ++ forNodes d g g.nodesOnCycles (fun b _ => ofCycle l b)

end Obligation

namespace FlowGraph

variable {R : Type} [Scalar R]

/-- The graph with the obligations of the diagram. -/
def withObligations (g : FlowGraph R) (oracle : Oracle R) (l : Limits) (d : Diagram) :
    FlowGraph R :=
  (Obligation.derive oracle l d g).foldl addObligation g

/-- The obligations of the graph that `earlier` does not have. -/
def newObligations (g earlier : FlowGraph R) : List (Formula R) :=
  g.obligations.drop earlier.obligations.length

end FlowGraph
end SignalFlow
