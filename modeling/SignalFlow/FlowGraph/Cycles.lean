import SignalFlow.FlowGraph.Basic

/-!
# Cycles

Two depth-first searches along the edges: one for a cycle through a given node, and one
that collects every cycle closed by an edge back onto the current path.  Both go no deeper
than there are nodes.
-/

namespace SignalFlow
namespace FlowGraph

variable {R : Type}

/-- Try the successors of the last node of `path` in turn.  The first component is a path
whose last node leads back to `start`; the second collects the nodes that have been
tried. -/
def tryEach
    (descend : NodeId → List NodeId → List NodeId → Option (List NodeId) × List NodeId)
    (start : NodeId) (path : List NodeId) :
    List NodeId → List NodeId → Option (List NodeId) × List NodeId
  | [], tried => (none, tried)
  | next :: rest, tried =>
      if next == start then (some path, tried)
      else if path.contains next || tried.contains next then
        tryEach descend start path rest tried
      else
        match descend next (path ++ [next]) (next :: tried) with
        | (some found, tried) => (some found, tried)
        | (none, tried) => tryEach descend start path rest tried

/-- Extend a path that ends in `current` to one that leads back to `start`. -/
def extend (g : FlowGraph R) (start : NodeId) :
    Nat → NodeId → List NodeId → List NodeId → Option (List NodeId) × List NodeId
  | 0, _, _, tried => (none, tried)
  | depth + 1, current, path, tried =>
      tryEach (g.extend start depth) start path (g.successors current) tried

/-- A cycle through a node, starting with it; empty if there is none. -/
def cycleThrough (g : FlowGraph R) (start : NodeId) : List NodeId :=
  (g.extend start g.nodes.length start [start] []).1.getD []

/-- Nodes that have been left for good, and the cycles found so far. -/
structure Exploration where
  done : List NodeId
  cycles : List (List NodeId)
  deriving Repr, DecidableEq

/-- Look at the successors of the last node of `path` in turn. -/
def exploreEach (descend : NodeId → List NodeId → Exploration → Exploration)
    (path : List NodeId) :
    List NodeId → Exploration → Exploration
  | [], x => x
  | next :: rest, x =>
      if x.done.contains next then exploreEach descend path rest x
      else if path.contains next then
        exploreEach descend path rest
          { x with cycles := x.cycles ++ [path.dropWhile fun n => n != next] }
      else exploreEach descend path rest (descend next path x)

/-- Visit a node that is reached along `path`. -/
def explore (g : FlowGraph R) : Nat → NodeId → List NodeId → Exploration → Exploration
  | 0, _, _, x => x
  | depth + 1, n, path, x =>
      let x := exploreEach (g.explore depth) (path ++ [n]) (g.successors n) x
      { x with done := x.done ++ [n] }

/-- Visit a node, unless it has been left for good. -/
def exploreNode (g : FlowGraph R) (x : Exploration) (n : Node R) : Exploration :=
  if x.done.contains n.id then x else g.explore g.nodes.length n.id [] x

/-- The cycles closed by an edge back onto the path of a depth-first traversal. -/
def cycles (g : FlowGraph R) : List (List NodeId) :=
  (g.nodes.foldl g.exploreNode ⟨[], []⟩).cycles

/-- The nodes that lie on a cycle. -/
def nodesOnCycles (g : FlowGraph R) : List NodeId :=
  (g.nodes.map Node.id).filter fun n => !(g.cycleThrough n).isEmpty

end FlowGraph
end SignalFlow
