/-!
# Kinds of blocks

The kinds of blocks that have rules, and catalogues that assign a kind to the type tag of a
block.
-/

namespace SignalFlow

/-- Kinds of blocks that have rules. -/
inductive BlockKind where
  | inport
  | constant
  | gain
  | sum
  | add
  | subtract
  | product
  | divide
  | abs
  | saturation
  | minMax
  | unitDelay
  | memory
  | zeroOrderHold
  | integrator
  | discreteIntegrator
  | switch
  | relationalOperator
  | outport
  | terminator
  | mux
  | demux
  deriving Repr, DecidableEq

namespace BlockKind

/-- The type tag of a kind. -/
def tag : BlockKind → String
  | .inport => "Inport"
  | .constant => "Constant"
  | .gain => "Gain"
  | .sum => "Sum"
  | .add => "Add"
  | .subtract => "Subtract"
  | .product => "Product"
  | .divide => "Divide"
  | .abs => "Abs"
  | .saturation => "Saturation"
  | .minMax => "MinMax"
  | .unitDelay => "UnitDelay"
  | .memory => "Memory"
  | .zeroOrderHold => "ZeroOrderHold"
  | .integrator => "Integrator"
  | .discreteIntegrator => "DiscreteIntegrator"
  | .switch => "Switch"
  | .relationalOperator => "RelationalOperator"
  | .outport => "Outport"
  | .terminator => "Terminator"
  | .mux => "Mux"
  | .demux => "Demux"

/-- All kinds. -/
def all : List BlockKind :=
  [.inport, .constant, .gain, .sum, .add, .subtract, .product, .divide, .abs,
    .saturation, .minMax, .unitDelay, .memory, .zeroOrderHold, .integrator,
    .discreteIntegrator, .switch,
    .relationalOperator, .outport, .terminator, .mux, .demux]

/-- The kind with a type tag. -/
def ofTag? (text : String) : Option BlockKind :=
  all.find? fun k => k.tag == text

end BlockKind

/-- Assigns a kind to a type tag. -/
abbrev Catalogue := String → Option BlockKind

namespace Catalogue

/-- Every kind under its own tag. -/
def builtin : Catalogue :=
  BlockKind.ofTag?

/-- No tag is known. -/
def empty : Catalogue :=
  fun _ => none

end Catalogue
end SignalFlow
