import SignalFlow.Diagram.Basic
import SignalFlow.Fact.Basic

/-!
# Assumptions

Facts about the outputs of blocks that hold by assumption.  An assumption selects a block
and one of its output pins, counted from one, and says something about every signal that
starts there.
-/

namespace SignalFlow

/-- Selects a block. -/
inductive Selector where
  | id (id : BlockId)
  /-- The name in the form in which names are compared. -/
  | name (name : String)
  deriving Repr, DecidableEq

/-- Whether a block is selected. -/
def Selector.matches (s : Selector) (b : Block) : Bool :=
  match s with
  | .id i => b.id == i
  | .name x => b.normalizedName == x

/-- What is said about a term. -/
inductive Condition (R : Type) where
  | interval (lower upper : Option (Bound R))
  | compare (op : Comparison) (value : Term R)

/-- A condition on a named variable, or on the signal of the pin. -/
structure Atom (R : Type) where
  subject : Option String
  condition : Condition R

/-- A statement about the signals of a pin. -/
inductive Statement (R : Type) where
  /-- One of the atoms holds. -/
  | signal (atoms : List (Atom R))
  /-- One of the consequences holds whenever all conditions do. -/
  | control (conditions consequences : List (Atom R))

/-- Statements about the signals of an output pin, counted from one. -/
structure PinAssumption (R : Type) where
  index : Nat
  statements : List (Statement R)

/-- Assumptions about a block. -/
structure BlockAssumption (R : Type) where
  selector : Selector
  pins : List (PinAssumption R)

/-- A list of assumptions. -/
abbrev Assumptions (R : Type) := List (BlockAssumption R)

variable {R : Type}

/-- The constraint an atom stands for at a signal. -/
def Atom.constraint (a : Atom R) (signal : Term R) : Constraint R :=
  let t := match a.subject with
    | some x => .var x
    | none => signal
  match a.condition with
  | .interval lower upper => .interval ⟨t, lower, upper⟩
  | .compare op value => .relation ⟨t, op, value⟩

variable [Scalar R]

/-- The fact a statement stands for at a signal. -/
def Statement.fact (s : Statement R) (signal : Term R) : Fact R :=
  match s with
  | .signal atoms => .boundary ⟨atoms.map (·.constraint signal)⟩
  | .control conditions consequences =>
      .control
        [⟨.conj (conditions.map fun a => (a.constraint signal).toFormula),
          ⟨consequences.map (·.constraint signal)⟩⟩]

end SignalFlow
