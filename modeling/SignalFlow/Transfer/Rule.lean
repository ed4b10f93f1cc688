import SignalFlow.Transfer.Arithmetic
import SignalFlow.Transfer.Memory
import SignalFlow.Transfer.Selection

/-!
# Transfer rules

Every kind of block has a rule: what it establishes by itself, what becomes of a fact that
arrives at an input, and the facts a simulation of a loop starts from and steps by.
-/

namespace SignalFlow

/-- How facts are transferred through a block. -/
structure TransferRule (R : Type) where
  behaviour : Behaviour
  /-- Facts about the output whatever the inputs are. -/
  generate : Block → List (Fact R)
  /-- Effect of a fact that arrives at an input. -/
  advance : Site R → Nat → Fact R → Effect R
  /-- Fact about the output before a loop starts. -/
  seed? : Block → Option (Fact R)
  /-- Fact about the output by direct evaluation of a guard. -/
  select? : Site R → Option (Fact R)

namespace TransferRule

variable {R : Type} [Scalar R]

/-- Nothing passes. -/
def blocking (behaviour : Behaviour) : TransferRule R where
  behaviour := behaviour
  generate := fun _ => []
  advance := fun _ _ _ => .stop
  seed? := fun _ => none
  select? := fun _ => none

/-- The rule for blocks of unknown type. -/
def blackBox : TransferRule R :=
  blocking .blackBox

/-- A limited input of the diagram. -/
def inport : TransferRule R :=
  { (blocking .source : TransferRule R) with
    generate := fun b => Fact.between (.var (b.outputVar 0)) (b.paramTerm? "OutMin")
      (b.paramTerm? "OutMax") }

/-- A constant. -/
def constant : TransferRule R :=
  { (blocking .source : TransferRule R) with
    generate := fun b =>
      match b.scalar? "Value" with
      | some v => [.single (.equals (.var (b.outputVar 0)) v)]
      | none => [] }

/-- A function of the inputs. -/
def pure (advance : Site R → Nat → Fact R → Effect R) : TransferRule R :=
  { (blocking .feedthrough : TransferRule R) with advance := advance }

/-- The absolute value is not negative. -/
def abs : TransferRule R :=
  { (pure fun s _ p => p.mapEffect s.output .abs : TransferRule R) with
    generate := fun b => Fact.between (.var (b.outputVar 0)) (some (.num 0)) none }

/-- The output stays within the limits. -/
def saturation : TransferRule R :=
  { (pure fun s _ p => Transfer.saturation s p : TransferRule R) with
    generate := fun b =>
      Fact.between (.var (b.outputVar 0)) (b.paramTerm? "LowerLimit")
        (b.paramTerm? "UpperLimit") }

/-- A delay by one step. -/
def delay : TransferRule R :=
  { (blocking .stateful : TransferRule R) with
    advance := fun s _ p => Transfer.delay s p
    seed? := Transfer.initial? }

/-- A hold without initial state. -/
def hold : TransferRule R :=
  { (blocking .stateful : TransferRule R) with advance := fun s _ p => Transfer.hold s p }

/-- An integrator. -/
def integrator : TransferRule R :=
  { (blocking .stateful : TransferRule R) with
    generate := Transfer.outputLimits
    seed? := Transfer.initial? }

/-- A switch. -/
def switch : TransferRule R :=
  { (blocking .control : TransferRule R) with
    advance := Transfer.switch
    select? := Transfer.selected? }

/-- A comparison gives zero or one. -/
def relational : TransferRule R :=
  { (blocking .feedthrough : TransferRule R) with
    generate := fun b =>
      [.boundary ⟨[.equals (.var (b.outputVar 0)) 0, .equals (.var (b.outputVar 0)) 1]⟩] }

/-- Facts about an output of the diagram stay with it. -/
def outport : TransferRule R :=
  { (blocking .sink : TransferRule R) with
    advance := fun s _ p =>
      if p.category == .data || p.isNoInformation then .stop
      else .attach (p.retarget (.var s.block.varBase)) }

/-- The rule of a kind of block. -/
def ofKind : BlockKind → TransferRule R
  | .inport => inport
  | .constant => constant
  | .gain => pure fun s _ p => Transfer.gain s p
  | .sum => pure Transfer.sum
  | .add => pure Transfer.sum
  | .subtract => pure Transfer.sum
  | .product => pure Transfer.product
  | .divide => pure Transfer.product
  | .abs => abs
  | .saturation => saturation
  | .minMax => pure Transfer.minMax
  | .unitDelay => delay
  | .memory => delay
  | .zeroOrderHold => hold
  | .integrator => integrator
  | .discreteIntegrator => integrator
  | .switch => switch
  | .relationalOperator => relational
  | .outport => outport
  | .terminator => blocking .sink
  | .mux => blackBox
  | .demux => blackBox

end TransferRule

/-- The rule a catalogue has for a type tag. -/
def Catalogue.rule {R : Type} [Scalar R] (c : Catalogue) (type : String) :
    TransferRule R :=
  match c type with
  | some k => .ofKind k
  | none => .blackBox

end SignalFlow
