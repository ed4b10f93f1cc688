import SignalFlow.Transfer.Basic

/-!
# Transfer through arithmetic

A fact about one input of a sum, product, minimum or maximum is combined with the ranges of
the other inputs.
-/

namespace SignalFlow
namespace Transfer

variable {R : Type} [Scalar R]

/-- Multiplication by a constant factor. -/
def gain (s : Site R) (p : Fact R) : Effect R :=
  match s.block.scalarOr? "Gain" (1 : R) with
  | none => .stop
  | some k => if k == 1 then p.passThrough s.output else p.mapEffect s.output (.scale k)

/-- A range, negated if it is subtracted. -/
def signed (subtracted : Bool) (r : Range R) : Range R :=
  if subtracted then r.neg else r

/-- Add the ranges of all inputs from `pin` on, except that of `own`, to `acc`. -/
def sumOthers (s : Site R) (own pin : Nat) (acc : Range R) : List Bool → Range R
  | [] => acc
  | subtracted :: rest =>
      if pin == own then sumOthers s own (pin + 1) acc rest
      else match s.hull? pin with
        | none => .full
        | some h => sumOthers s own (pin + 1) (acc.add (signed subtracted h)) rest

/-- Sum of all inputs, some of them subtracted. -/
def sum (s : Site R) (pin : Nat) (p : Fact R) : Effect R :=
  let signs := s.block.subtracted
  if signs.length ≤ 1 && s.inputCount ≤ 1 then
    if signs.headD false then p.mapEffect s.output .neg else p.passThrough s.output
  else
    let others := sumOthers s pin 0 (.point 0) signs
    p.mapEffect s.output fun r => (signed (signs.getD pin false) r).add others

/-- A range, inverted if it is a divisor. -/
def factor? (divisor : Bool) (r : Range R) : Option (Range R) :=
  if divisor then r.recip? else some r

/-- Multiply the ranges of all inputs from `pin` on, except that of `own`, onto `acc`. -/
def productOthers (s : Site R) (own pin : Nat) (acc : Range R) : List Bool → Range R
  | [] => acc
  | divisor :: rest =>
      if pin == own then productOthers s own (pin + 1) acc rest
      else match (s.hull? pin).bind (factor? divisor) with
        | none => .full
        | some r => productOthers s own (pin + 1) (acc.mul r) rest

/-- Product of all inputs, some of them divisors. -/
def product (s : Site R) (pin : Nat) (p : Fact R) : Effect R :=
  let ops := s.block.divisors
  if ops.length ≤ 1 && s.inputCount ≤ 1 then
    if ops.headD false then p.mapEffect s.output fun r => r.recip?.getD .full
    else p.passThrough s.output
  else
    let others := productOthers s pin 0 (.point 1) ops
    if ops.getD pin false then
      if p.crossesZero then .stop
      else p.mapEffect s.output fun r => (r.recip?.map (·.mul others)).getD .full
    else p.mapEffect s.output fun r => r.mul others

/-- Values cut off at limits; limits that are no constants, or out of order, leave nothing
to say. -/
def saturation (s : Site R) (p : Fact R) : Effect R :=
  match s.block.scalarOr? "LowerLimit" (-Scalar.infinity : R),
      s.block.scalarOr? "UpperLimit" (Scalar.infinity : R) with
  | some lo, some hi => if lo ≤ hi then p.mapEffect s.output (.clamp lo hi) else .stop
  | _, _ => .stop

/-- End by end the greater or the lesser of two ranges. -/
def extremum (maximum : Bool) (r t : Range R) : Range R :=
  if maximum then .closed (Scalar.greater r.lo t.lo) (Scalar.greater r.hi t.hi)
  else .closed (Scalar.lesser r.lo t.lo) (Scalar.lesser r.hi t.hi)

/-- The ranges of all inputs except `own`, any range for one that nothing is known
about. -/
def otherRanges (s : Site R) (own : Nat) : List (Range R) :=
  ((List.range s.inputCount).filter fun pin => pin != own).map fun pin =>
    (s.hull? pin).getD .full

/-- Extremum of several ranges; any range if there is none. -/
def extremumOf (maximum : Bool) : List (Range R) → Range R
  | [] => .full
  | r :: rs => rs.foldl (extremum maximum) r

/-- Least or greatest of all inputs. -/
def minMax (s : Site R) (pin : Nat) (p : Fact R) : Effect R :=
  if s.inputCount ≤ 1 then p.passThrough s.output
  else
    let maximum := s.block.takesMaximum
    let others := extremumOf maximum (otherRanges s pin)
    p.mapEffect s.output fun r => extremum maximum r others

end Transfer
end SignalFlow
