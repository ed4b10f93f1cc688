import SignalFlow.Transfer.Basic

/-!
# Transfer through blocks with memory

The output of a delay is its initial state or an earlier input.
-/

namespace SignalFlow
namespace Transfer

variable {R : Type} [Scalar R]

/-- A sample of the input is held. -/
def hold (s : Site R) (p : Fact R) : Effect R :=
  if p.category == .signal then p.passThrough s.output else .stop

/-- The input comes out one step later, the initial state first. -/
def delay (s : Site R) (p : Fact R) : Effect R :=
  if p.category == .signal then
    match (s.block.initialValue? : Option R) with
    | none => p.passThrough s.output
    | some v =>
        match p.mapRanges? s.output fun r => r.hull (.point v) with
        | some q => .propagate q
        | none => p.passThrough s.output
  else .stop

/-- The fact about the output before the first step. -/
def initial? (b : Block) : Option (Fact R) :=
  b.initialValue?.map (.atPoint (.var (b.outputVar 0)))

/-- The limits of an integrator whose output is limited. -/
def outputLimits (b : Block) : List (Fact R) :=
  if b.isOn "LimitOutput" then
    Fact.between (.var (b.outputVar 0)) (b.paramTerm? "LowerSaturationLimit")
      (b.paramTerm? "UpperSaturationLimit")
  else []

end Transfer
end SignalFlow
