import SignalFlow.Propagation.Basic

/-!
# Simulation of loops

A loop is simulated on facts.  The output of one member, the representative, starts from a
seed; each round pushes what is known about it once around the loop.  If a round gives an
earlier result again, the results so far cover every later round; their disjunction is the
summary of the loop.  If the rounds run out, at most the sign of the values is kept.
-/

namespace SignalFlow

variable {R : Type}

/-- How a simulation ended. -/
inductive Run (R : Type) where
  /-- The last round gave an entry of the trace again. -/
  | closed (rounds : Nat) (trace : List (Boundary R))
  /-- No round was left. -/
  | exhausted (rounds : Nat) (trace : List (Boundary R))
  | failed (cause : LoopFailure) (trace : List (Boundary R))

variable [Scalar R]

/-- Iterate rounds from `current` for at most `budget` more rounds. -/
def Run.iterate (round : Boundary R → Except LoopFailure (Boundary R)) :
    Nat → Nat → List (Boundary R) → Boundary R → Run R
  | 0, rounds, trace, _ => .exhausted rounds trace
  | budget + 1, rounds, trace, current =>
      match round current with
      | .error cause => .failed cause trace
      | .ok next =>
          if trace.contains next then .closed (rounds + 1) trace
          else Run.iterate round budget (rounds + 1) (trace ++ [next]) next

/-- The entries of a trace as one fact; none if an entry allows every value. -/
def summary? (trace : List (Boundary R)) : Option (Fact R) :=
  if trace.any Boundary.isUnbounded then none
  else match trace with
    | [] => none
    | [b] => some (.boundary b)
    | bs => some (.discrete bs)

/-- The signs that can be inferred, the stronger first. -/
def signCandidates : List Comparison :=
  [.gt, .ge, .lt, .le]

/-- The first sign that every entry of a trace has. -/
def inferSign? (trace : List (Boundary R)) : Option Comparison :=
  match trace.mapM Boundary.hull? with
  | none => none
  | some [] => none
  | some hulls => signCandidates.find? fun c => hulls.all fun r => r.allSatisfySign c

/-- The fact that `t` stands in a comparison to zero. -/
def signFact (t : Term R) (c : Comparison) : Fact R :=
  let zero : Term R := .num 0
  .single (.interval
    (match c with
      | .gt => ⟨t, some (.exclusive zero), none⟩
      | .ge => ⟨t, some (.inclusive zero), none⟩
      | .lt => ⟨t, none, some (.exclusive zero)⟩
      | _ => ⟨t, none, some (.inclusive zero)⟩))

/-- The sign of a trace, as a fact. -/
def signOf? (t : Term R) (trace : List (Boundary R)) : Option (Fact R) :=
  (inferSign? trace).map (signFact t)

/-- Facts about the outputs of the members that a round has reached. -/
abbrev RoundValues (R : Type) := List (NodeId × List (Fact R))

/-- What is known at an input of a member: facts from inside the loop replace all
others. -/
def loopInlet (g : FlowGraph R) (members : List NodeId) (values : RoundValues R)
    (n : NodeId) (pin : Nat) : Inlet R :=
  let outer := g.inlet n pin
  let inner := (g.incoming n).filter fun e =>
    e.target.pin == pin && members.contains e.source.node
  match inner.getLast? with
  | none => outer
  | some e =>
      { outer with
        facts := ((values.lookup e.source.node).getD []).map (·.retarget e.term) }

/-- A member with what is known at its inputs. -/
def loopSite (g : FlowGraph R) (members : List NodeId) (values : RoundValues R) (b : Block)
    (n : NodeId) : Site R :=
  ⟨b, (List.range (g.inletCount b n)).map (loopInlet g members values n)⟩

/-- The informative facts about the output of a block that follow from the signal facts at
its inputs, collected behind `acc`. -/
def advanceAll (rule : TransferRule R) (s : Site R) (acc : List (Fact R)) :
    List (Fact R) :=
  s.inlets.zipIdx.foldl
    (fun acc (i, pin) =>
      (i.facts.filter fun p => p.category == .signal).foldl
        (fun acc p =>
          match rule.advance s pin p with
          | .propagate q => if q.isNoInformation then acc else insertLast acc q
          | _ => acc) acc) acc

/-- Facts about the output of a member. -/
def memberOutput (rule : TransferRule R) (s : Site R) : List (Fact R) :=
  let own := rule.generate s.block
  if rule.behaviour == .control then own ++ (rule.select? s).toList
  else advanceAll rule s own

/-- Push the facts through the members in order. -/
def pushThrough (c : Setting) (g : FlowGraph R) (members : List NodeId) :
    List NodeId → RoundValues R → Except LoopFailure (RoundValues R)
  | [], values => .ok values
  | n :: rest, values =>
      match c.block? g n with
      | none => .error (.missingBlock n)
      | some b =>
          pushThrough c g members rest
            ((n, memberOutput (c.rule b) (loopSite g members values b n)) :: values)

/-- One round: push what is known about the output of the representative once around the
loop.  The representative comes last in `order`. -/
def loopRound (c : Setting) (g : FlowGraph R) (order : List NodeId)
    (representative : NodeId) (output : Term R) (current : Boundary R) :
    Except LoopFailure (Boundary R) :=
  if order.isEmpty then .error .emptyLoop
  else
    match pushThrough c g order order [(representative, [.boundary current])] with
    | .error cause => .error cause
    | .ok values =>
        let produced := (values.lookup representative).getD []
        .ok ((Fact.conjoin? output produced).getD (.unbounded output))

/-- Whether a round comes through: it counts the inputs of the members in turn, and ends at
one without a block. -/
def roundCounts (c : Setting) (g : FlowGraph R) (order : List NodeId) : Bool :=
  (order.takeWhile fun n => (c.block? g n).isSome).all g.countable

/-- The facts a loop starts from: what is known about the output of the representative, or
else its own seed. -/
def loopSeed? (c : Setting) (g : FlowGraph R) (b : Block) (representative : NodeId)
    (output : Term R) : Option (Boundary R) :=
  let known :=
    ((g.outgoing representative).flatMap Edge.facts).filter Fact.isInformativeSignal
  match Fact.conjoin? output known with
  | some seed => some seed
  | none => ((c.rule b).seed? b).bind Fact.asBoundary?

end SignalFlow
