import SignalFlow.FlowGraph.Cycles
import SignalFlow.Propagation.Crossing
import SignalFlow.Propagation.Simulation

/-!
# Resolving a loop

A loop is simulated if all of its blocks allow it, then its members are processed in turn,
the representative last.

Counting the inputs of a block can fail, and this ends the whole propagation.  So there are
two ways to process nodes and to simulate loops, with and without that failure; what is
made of them is the same for both.
-/

namespace SignalFlow
namespace Propagation

variable {R : Type} [Scalar R]

/-- The members after the representative followed by those up to it. -/
def rotateBehind (representative : NodeId) (members : List NodeId) : List NodeId :=
  (members.dropWhile fun n => n != representative).drop 1
    ++ members.takeWhile (fun n => n != representative) ++ [representative]

/-- The first member with a state, or else `start`. -/
def representativeOf (st : Propagation R) (c : Setting) (members : List NodeId)
    (start : NodeId) : NodeId :=
  (members.find? fun n => c.behaviour st.graph n == .stateful).getD start

/-- Add a diagnostic. -/
def report (st : Propagation R) (d : Diagnostic) : Propagation R :=
  { st with diagnostics := st.diagnostics ++ [d] }

/-- Write a fact, if there is one, to the edges out of a node. -/
def publish (st : Propagation R) (n : NodeId) : Option (Fact R) → Propagation R
  | some p => { st with graph := st.graph.writeOutgoing n p }
  | none => st

/-- The message for a loop whose rounds ran out. -/
def outOfRounds (budget : Nat) (fact : Option (Fact R)) : String :=
  "feedback loop reached no fixpoint in " ++ toString budget ++ " rounds; "
    ++ match fact with
      | some p => "inferred " ++ p.render
      | none => "no invariant inferred"

/-- Take over the result of a simulation. -/
def conclude (st : Propagation R) (representative : NodeId) (id : BlockId)
    (output : Term R) (budget : Nat) : Run R → Propagation R × LoopOutcome R
  | .failed cause trace =>
      let st := st.report ((Diagnostic.warning .loopFailed
        ("feedback loop simulation failed: " ++ cause.message)).atBlock id)
      (st.publish representative (signOf? output trace), .failed cause)
  | .closed rounds trace =>
      match summary? trace with
      | some p => (st.publish representative (some p), .fixpoint rounds p)
      | none => (st, .sign rounds none)
  | .exhausted rounds trace =>
      let fact := signOf? output trace
      let st := st.report
        ((Diagnostic.warning .loopOutOfRounds (outOfRounds budget fact)).atBlock id)
      (st.publish representative fact, .sign rounds fact)

/-- Simulate a loop. -/
def simulate (st : Propagation R) (c : Setting) (members : List NodeId)
    (representative : NodeId) : Propagation R × LoopOutcome R :=
  match c.block? st.graph representative with
  | none => (st, .failed (.missingBlock representative))
  | some b =>
      let output : Term R := .var (b.outputVar 0)
      match loopSeed? c st.graph b representative output with
      | none =>
          (st.report
            ((Diagnostic.warning .loopFailed "feedback loop has no starting fact").atBlock
            b.id),
            .failed .noSeed)
      | some seed =>
          let round := loopRound c st.graph (rotateBehind representative members)
            representative output
          let budget := c.limits.maxRounds
          st.conclude representative b.id output budget
            (Run.iterate round budget 0 [seed] seed)

/-- Whether a simulation gets to its first round. -/
def hasRound (st : Propagation R) (c : Setting) (representative : NodeId) : Bool :=
  match c.block? st.graph representative with
  | none => false
  | some b =>
      (loopSeed? c st.graph b representative (.var (b.outputVar 0))).isSome &&
        0 < c.limits.maxRounds

/-- Simulate a loop, unless the inputs of one of its members cannot be counted.  The first
round tells, since all rounds count the same inputs. -/
def simulate? (st : Propagation R) (c : Setting) (members : List NodeId)
    (representative : NodeId) : Option (Propagation R × LoopOutcome R) :=
  if st.hasRound c representative &&
    !roundCounts c st.graph (rotateBehind representative members) then none
  else some (st.simulate c members representative)

/-- Report a loop with a block that cannot be simulated. -/
def leaveUnsimulated (st : Propagation R) (c : Setting) (members : List NodeId) :
    Propagation R × LoopOutcome R :=
  let d := Diagnostic.warning .loopNotSimulable
    ("feedback loop through " ++ toString members.length
      ++ " blocks contains a block that cannot be simulated")
  let culprit :=
    (members.find? fun n => !(c.behaviour st.graph n).simulable).bind st.graph.blockOf?
  (st.report { d with block := culprit }, .unsimulated)

/-- Mark all facts on the edges between members as consumed. -/
def consumeInside (g : FlowGraph R) (members : List NodeId) : FlowGraph R :=
  members.foldl
    (fun g n =>
      ((g.incoming n).filter fun e => members.contains e.source.node).foldl
        (fun g e => g.modifyEdge e.id Edge.consumeAll) g) g

/-- A loop has been resolved. -/
def closeLoop (st : Propagation R) (members : List NodeId) (representative : NodeId)
    (outcome : LoopOutcome R) : Propagation R :=
  { st with
    graph := consumeInside st.graph members
    resolving := st.resolving.filter fun n => !members.contains n
    loops := st.loops ++
      [{ members := members.filterMap st.graph.blockOf?
         representative := st.graph.blockOf? representative
         outcome := outcome }] }

/-- How nodes are processed and loops simulated; `m` says in which way this can fail. -/
structure Steps (m : Type → Type) (R : Type) where
  process : Propagation R → NodeId → m (Propagation R)
  simulate : Propagation R → List NodeId → NodeId → m (Propagation R × LoopOutcome R)

namespace Steps

/-- The steps without failure. -/
def unchecked (c : Setting) : Steps Id R where
  process st n := st.process c n
  simulate st members representative := st.simulate c members representative

/-- The steps that fail where inputs cannot be counted. -/
def checked (c : Setting) : Steps Option R where
  process st n := st.process? c n
  simulate st members representative := st.simulate? c members representative

variable {m : Type → Type} [Monad m]

/-- Process a node, unless it is done. -/
def processNew (s : Steps m R) (st : Propagation R) (n : NodeId) : m (Propagation R) :=
  if st.done.contains n then pure st else s.process st n

/-- Simulate a loop if all of its blocks allow it, and report it otherwise. -/
def attempt (s : Steps m R) (c : Setting) (members : List NodeId) (representative : NodeId)
    (st : Propagation R) : m (Propagation R × LoopOutcome R) :=
  if members.all fun n =>
    (c.behaviour st.graph n).simulable then s.simulate st members representative
  else pure (st.leaveUnsimulated c members)

/-- Resolve a loop whose inputs from outside have been processed. -/
def finishLoop (s : Steps m R) (c : Setting) (start : NodeId) (members : List NodeId)
    (st : Propagation R) : m (Propagation R) := do
  let representative := st.representativeOf c members start
  let (st, outcome) ← s.attempt c members representative st
  let st ← (rotateBehind representative members).foldlM s.processNew st
  pure (st.closeLoop members representative outcome)

end Steps

/-- The nodes outside a loop that feed its members. -/
def outerSources (g : FlowGraph R) (members : List NodeId) : List NodeId :=
  members.flatMap fun n => (g.predecessors n).filter fun m => !members.contains m

end Propagation
end SignalFlow
