import SignalFlow.Diagram.Parameter
import SignalFlow.Fact.Basic

/-!
# Facts at a block

A *site* is a block together with what is known at each of its inputs.  A fact that arrives
at an input has an *effect*: a fact about the output, a fact that stays with the block, or
nothing.
-/

namespace SignalFlow

/-- How a block acts; decides which loops can be simulated. -/
inductive Behaviour where
  | source
  | feedthrough
  /-- Delays, holds and integrators. -/
  | stateful
  /-- Selects between inputs by a guard. -/
  | control
  | sink
  /-- Nothing is known about the output. -/
  | blackBox
  deriving Repr, DecidableEq

/-- Whether blocks with this behaviour can be simulated inside a loop. -/
def Behaviour.simulable : Behaviour → Bool
  | .feedthrough => true
  | .stateful => true
  | .control => true
  | _ => false

/-- What becomes of a fact that arrives at a block. -/
inductive Effect (R : Type) where
  /-- A fact about the output. -/
  | propagate (fact : Fact R)
  /-- A fact that stays with the block. -/
  | attach (fact : Fact R)
  /-- Nothing follows. -/
  | stop
  deriving BEq

/-- The effect of a fact that can be transferred, or nothing. -/
def Effect.ofOption {R : Type} : Option (Fact R) → Effect R
  | some p => .propagate p
  | none => .stop

/-- An input of a block: the variable it carries, if it is connected, and what is known
about it. -/
structure Inlet (R : Type) where
  var : Option String
  facts : List (Fact R)

/-- A block with its inputs. -/
structure Site (R : Type) where
  block : Block
  inlets : List (Inlet R)

variable {R : Type}

namespace Site

/-- The first output of the block. -/
def output (s : Site R) : Term R :=
  .var (s.block.outputVar 0)

/-- The variable carried to an input. -/
def inputVar? (s : Site R) (pin : Nat) : Option String :=
  s.inlets[pin]?.bind Inlet.var

/-- Number of inputs, whether declared or connected. -/
def inputCount (s : Site R) : Nat :=
  max s.inlets.length s.block.inputs

end Site

variable [Scalar R]

/-- Meet the hull of a fact with what is known; a hull that excludes it all is passed
over. -/
def Range.meetHull (known : Option (Range R)) (p : Fact R) : Option (Range R) :=
  match p.asBoundary?.bind Boundary.hull? with
  | none => known
  | some hull =>
      match known with
      | none => some hull
      | some r => some ((r.intersect? hull).getD r)

/-- Range of the values that several facts allow, if one of them has a range. -/
def Fact.hullOf? (facts : List (Fact R)) : Option (Range R) :=
  facts.foldl Range.meetHull none

/-- Range of the values at an input. -/
def Site.hull? (s : Site R) (pin : Nat) : Option (Range R) :=
  s.inlets[pin]?.bind fun i => Fact.hullOf? i.facts

namespace Fact

/-- The fact about `out` after `f` has been applied to every range of a signal fact. -/
def mapRanges? (p : Fact R) (out : Term R) (f : Range R → Range R) : Option (Fact R) :=
  match p with
  | .discrete bs => (bs.mapM fun (b : Boundary R) => b.mapRanges? out f).map fun bs =>
      .discrete (distinct bs)
  | p => (p.asBoundary?.bind fun b => b.mapRanges? out f).map .boundary

/-- The effect of a block whose output is the image of its input under `f`. -/
def mapEffect (p : Fact R) (out : Term R) (f : Range R → Range R) : Effect R :=
  .ofOption (p.mapRanges? out f)

/-- The effect of a block whose output equals its input. -/
def passThrough (p : Fact R) (out : Term R) : Effect R :=
  match p.category with
  | .data => .stop
  | _ => .propagate (p.retarget out)

/-- The fact that `out` has a value. -/
def atPoint (out : Term R) (v : R) : Fact R :=
  .ofRange out (.point v)

/-- The interval between two optional closed bounds, unless both are missing. -/
def between (out : Term R) (lower upper : Option (Term R)) : List (Fact R) :=
  if lower.isNone && upper.isNone then []
  else [.single (.interval ⟨out, lower.map .inclusive, upper.map .inclusive⟩)]

end Fact
end SignalFlow
