import SignalFlow.Definition.Vector
import SignalFlow.Definition.WellFormed

/-!
# Closed definitions

A well-formed list of definitions is closed by inlining, one definition into another at a
time, until no definition uses a name that another one defines.
-/

namespace SignalFlow
namespace Definition

variable {R : Type} [Scalar R]

/-- Inline `d`, at position `i`, into the first definition from position `j` on that
changes. -/
def inlineInto? (d : Definition R) (i : Nat) : Nat → List (Definition R) →
      Option (List (Definition R))
  | _, [] => none
  | j, e :: es =>
      let results := if i == j then [] else (e.inline d).filter fun r => !(r == e)
      if results.isEmpty then (inlineInto? d i (j + 1) es).map (e :: ·)
      else some (results ++ es)

/-- One step of closing: the first inlining that changes anything. -/
def closeStep? (ds : List (Definition R)) : Option (List (Definition R)) :=
  ds.zipIdx.findSome? fun (d, i) => inlineInto? d i 0 ds

/-- Close a list of definitions without circles. -/
def closeAll (ds : List (Definition R)) : List (Definition R) :=
  exhaust closeStep? ds

/-- The closed form of a list of definitions, or why it has none. -/
def close (ds : List (Definition R)) : Except Fault (List (Definition R)) :=
  let ds := distinct ds
  match conflict? ds with
  | some name => .error (.conflict name)
  | none =>
      match cycle? ds with
      | some names => .error (.cycle names)
      | none => .ok (distinct (closeAll (liftAll ds)))

end Definition
end SignalFlow
