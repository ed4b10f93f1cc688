import SignalFlow.Hybrid.Program

/-!
# Hybrid models

What a diagram is turned into: initial states, a controller, a plant, a contract with
everything that is known, and the properties that remain to be shown.
-/

namespace SignalFlow

/-- A hybrid model. -/
structure HybridModel (R : Type) where
  name : String
  initial : Formula R := .top
  control : Program R := .skip
  plant : List (Evolution R) := []
  contract : Program R := .skip
  properties : List (Formula R) := []

namespace HybridModel

variable {R : Type}

/-- Whether the variable `x` occurs anywhere. -/
def mentions (x : String) (m : HybridModel R) : Bool :=
  m.initial.mentions x || m.control.mentions x || m.plant.any (Evolution.mentions x)
    || m.contract.mentions x || m.properties.any (Formula.mentions x)

/-- Text of a model. -/
def render [Scalar R] (m : HybridModel R) : String :=
  "model " ++ m.name ++ "\ninit: " ++ m.initial.render ++ "\nctrl:\n" ++
    m.control.renderAt 1
    ++ "plant:\n" ++ String.join (m.plant.map fun e => "  " ++ e.render ++ "\n")
    ++ "contract:\n" ++ m.contract.renderAt 1
    ++ (if m.properties.isEmpty then ""
      else "security:\n" ++ String.join (m.properties.map fun p =>
        "  " ++ p.render ++ "\n"))

end HybridModel
end SignalFlow
