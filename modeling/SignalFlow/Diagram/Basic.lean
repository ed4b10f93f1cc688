import SignalFlow.Diagram.Block

/-!
# Diagrams

Blocks and the signals between their pins.  Identifiers may occur twice and signals may
lead nowhere; the first block with an identifier is the one that counts.
-/

namespace SignalFlow

/-- Identifies a signal of a diagram. -/
abbrev SignalId := Nat

/-- An input or output pin of a block, counted from zero. -/
structure Pin where
  block : BlockId
  index : Nat
  deriving Repr, DecidableEq, Inhabited

/-- A line from an output pin to an input pin. -/
structure Signal where
  id : SignalId
  source : Pin
  target : Pin
  deriving Repr, DecidableEq, Inhabited

/-- A block diagram. -/
structure Diagram where
  name : String
  blocks : List Block
  signals : List Signal
  deriving Repr, DecidableEq, Inhabited

namespace Diagram

/-- The block with an identifier. -/
def block? (d : Diagram) (id : BlockId) : Option Block :=
  d.blocks.find? fun b => b.id == id

/-- The signal that ends at an input pin. -/
def incoming? (d : Diagram) (id : BlockId) (pin : Nat) : Option Signal :=
  d.signals.find? fun s => s.target.block == id && s.target.index == pin

/-- The signals that start at a block. -/
def outgoing (d : Diagram) (id : BlockId) : List Signal :=
  d.signals.filter fun s => s.source.block == id

/-- The variable carried to an input pin. -/
def inputVar? (d : Diagram) (id : BlockId) (pin : Nat) : Option String :=
  match d.incoming? id pin with
  | none => none
  | some s => (d.block? s.source.block).map fun b => b.outputVar s.source.index

end Diagram
end SignalFlow
