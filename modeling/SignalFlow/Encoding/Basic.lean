import SignalFlow.Definition.Basic
import SignalFlow.Hybrid.Model

/-!
# Encodings

What blocks contribute to a model: definitions, steps of the controller, updates of states
that come after all steps, differential equations and initial states.
-/

namespace SignalFlow

/-- Contributions to a model. -/
structure Encoding (R : Type) where
  definitions : List (Definition R) := []
  /-- Reads of inputs and assignments of outputs. -/
  steps : List (Program R) := []
  /-- Updates of states, after all steps. -/
  updates : List (Program R) := []
  odes : List (String × Term R) := []
  initial : List (Formula R) := []

namespace Encoding

variable {R : Type}

/-- Contributions of both. -/
def append (a b : Encoding R) : Encoding R :=
  { definitions := a.definitions ++ b.definitions
    steps := a.steps ++ b.steps
    updates := a.updates ++ b.updates
    odes := a.odes ++ b.odes
    initial := a.initial ++ b.initial }

/-- One definition. -/
def define (d : Definition R) : Encoding R :=
  { definitions := [d] }

/-- The model without contract and properties. -/
def toModel [BEq R] (e : Encoding R) (name : String) : HybridModel R :=
  { name := name
    initial := .conj e.initial
    control := .sequence (e.steps ++ e.updates)
    plant := if e.odes.isEmpty then [] else [⟨e.odes, .top⟩] }

end Encoding
end SignalFlow
