import SignalFlow.Diagram.Basic
import SignalFlow.Diagram.Parameter
import SignalFlow.Encoding.Basic

/-!
# Encodings of blocks

Blocks without state define their output.  Delays and discrete integrators update it after
all other steps, integrators give its derivative, and both have an initial state.
-/

namespace SignalFlow
namespace Encoding

variable {R : Type} [Scalar R]

/-- The term at an input; a free variable if it is not connected. -/
def input (d : Diagram) (b : Block) (pin : Nat) : Term R :=
  match d.inputVar? b.id pin with
  | some x => .var x
  | none => .var (b.varBase ++ "_in" ++ toString (pin + 1))

/-- The terms at all inputs, at least one. -/
def inputs (d : Diagram) (b : Block) : List (Term R) :=
  (List.range (max b.inputs 1)).map (input d b)

/-- The output equals a term. -/
def value (b : Block) (t : Term R) : Encoding R :=
  define (.simple (b.outputVar 0) t)

/-- The output is given by cases. -/
def byCases (b : Block) (cs : List (Formula R × Term R)) : Encoding R :=
  define (.cases (b.outputVar 0) cs)

/-- The negated guard. -/
def opposite : Formula R → Formula R
  | .rel r => .rel r.negate
  | p => p.negate

/-- A value if the guard holds, and another one if not. -/
def byGuard (b : Block) (guard : Formula R) (t u : Term R) : Encoding R :=
  byCases b [(guard, t), (opposite guard, u)]

/-- The initial state as a term, zero if no parameter gives one. -/
def initialTerm (b : Block) : Term R :=
  (Block.initialKeys.findSome? b.paramTerm?).getD (.num 0)

/-- The output starts in the initial state. -/
def initialState (b : Block) : Formula R :=
  .compare (.var (b.outputVar 0)) .eq (initialTerm b)

/-- A constant factor times the input. -/
def gain (d : Diagram) (b : Block) : Encoding R :=
  value b (((b.paramTerm? "Gain").getD (.num 1)).times (input d b 0))

/-- The sum of the inputs, some of them negated. -/
def sum (d : Diagram) (b : Block) : Encoding R :=
  value b (.sum (List.zipWith (fun subtracted t => if subtracted then t.negate else t)
    b.subtracted (inputs d b)))

/-- The product of the plain inputs, divided by the others one after the other. -/
def product (d : Diagram) (b : Block) : Encoding R :=
  let operands := List.zip b.divisors (inputs d b)
  let numerator : Term R := .product ((operands.filter fun o => !o.1).map Prod.snd)
  value b (((operands.filter fun o => o.1).map Prod.snd).foldl Term.div numerator)

/-- The input or its negation, whichever is not negative. -/
def abs (d : Diagram) (b : Block) : Encoding R :=
  let u := input d b 0
  byCases b [(.compare u .ge (.num 0), u), (.compare u .lt (.num 0), u.negate)]

/-- The input cut off at the limits that are given. -/
def saturation (d : Diagram) (b : Block) : Encoding R :=
  let u := input d b 0
  let upper := (b.paramTerm? "UpperLimit").toList
  let lower := (b.paramTerm? "LowerLimit").toList
  let outside := upper.map (fun hi => (Formula.compare u .gt hi, hi))
    ++ lower.map (fun lo => (Formula.compare u .lt lo, lo))
  let inside := upper.map (fun hi => Formula.compare u .le hi)
    ++ lower.map (fun lo => Formula.compare u .ge lo)
  if outside.isEmpty then value b u else byCases b (outside ++ [(.conj inside, u)])

/-- The guard under which the input at position `k` is selected: it beats all others, and
of equal inputs the first is selected. -/
def extremeGuard (maximum : Bool) (us : List (Term R)) (k : Nat) (winner : Term R) :
    Formula R :=
  let strict : Comparison := if maximum then .gt else .lt
  let weak : Comparison := if maximum then .ge else .le
  .conj ((us.zipIdx.filter fun (_, j) => j != k).map fun (u, j) =>
    .compare winner (if j < k then strict else weak) u)

/-- The least or the greatest input. -/
def minMax (d : Diagram) (b : Block) : Encoding R :=
  match (inputs d b : List (Term R)) with
  | [u] => value b u
  | us => byCases b (us.zipIdx.map fun (u, k) => (extremeGuard b.takesMaximum us k u, u))

/-- The first or the third input, selected by the second. -/
def switch (d : Diagram) (b : Block) : Encoding R :=
  byGuard b (b.switchGuard (input d b 1)) (input d b 0) (input d b 2)

/-- One if the comparison of the inputs holds, and zero if not. -/
def relational (d : Diagram) (b : Block) : Encoding R :=
  let op := ((b.param? "Operator").bind Comparison.ofSymbol?).getD .ge
  byGuard b (.compare (input d b 0) op (input d b 1)) (.num 1) (.num 0)

/-- The state becomes the input. -/
def delay (d : Diagram) (b : Block) : Encoding R :=
  { updates := [.assign (b.outputVar 0) (input d b 0)]
    initial := [initialState b] }

/-- The sample time; one if it is missing or not positive. -/
def sampleTime (b : Block) : Term R :=
  match b.paramTerm? "SampleTime" with
  | none => .num 1
  | some t =>
      match t.value? with
      | some v => if (0 : R) < v then t else .num 1
      | none => t

/-- The state grows by the input times the sample time. -/
def discreteIntegrator (d : Diagram) (b : Block) : Encoding R :=
  let out := b.outputVar 0
  { updates := [.assign out ((Term.var out).plus ((sampleTime b).times (input d b 0)))]
    initial := [initialState b] }

/-- The derivative of the state is the input. -/
def integrator (d : Diagram) (b : Block) : Encoding R :=
  { odes := [(b.outputVar 0, input d b 0)]
    initial := [initialState b] }

/-- The inputs form a vector. -/
def mux (d : Diagram) (b : Block) : Encoding R :=
  let us := inputs d b
  { definitions := [.vector (b.outputVar 0) us, .width (b.outputVar 0) us.length] }

/-- Each output is an element of the input. -/
def demux (d : Diagram) (b : Block) : Encoding R :=
  match (input d b 0 : Term R) with
  | .var x =>
      { definitions := (List.range (max b.outputs 1)).map fun k =>
          .simple (b.outputVar k) (.element x k) }
  | _ => {}

/-- The encoding of a block of a known kind. -/
def ofBlock (d : Diagram) (b : Block) : BlockKind → Encoding R
  | .inport => { steps := [.havoc (b.outputVar 0)] }
  | .constant => value b ((b.paramTerm? "Value").getD (.num 0))
  | .gain => gain d b
  | .sum => sum d b
  | .add => sum d b
  | .subtract => sum d b
  | .product => product d b
  | .divide => product d b
  | .abs => abs d b
  | .saturation => saturation d b
  | .minMax => minMax d b
  | .unitDelay => delay d b
  | .memory => delay d b
  | .zeroOrderHold => value b (input d b 0)
  | .integrator => integrator d b
  | .discreteIntegrator => discreteIntegrator d b
  | .switch => switch d b
  | .relationalOperator => relational d b
  | .outport => { steps := [.assign b.varBase (input d b 0)] }
  | .terminator => {}
  | .mux => mux d b
  | .demux => demux d b

end Encoding
end SignalFlow
