import SignalFlow.Diagram.Basic
import SignalFlow.Relation

/-!
# Twins

Two blocks of the same type and parameters that are fed by the same pins have equal
outputs.
-/

namespace SignalFlow
namespace Diagram

/-- The pins that feed the inputs from `pin` on, if all are connected. -/
def sourcesFrom? (d : Diagram) (id : BlockId) : Nat → Nat → Option (List Pin)
  | _, 0 => some []
  | pin, count + 1 =>
      match d.incoming? id pin with
      | none => none
      | some s => (d.sourcesFrom? id (pin + 1) count).map (s.source :: ·)

/-- The pins that feed the inputs of a block, if all are connected. -/
def sources? (d : Diagram) (b : Block) : Option (List Pin) :=
  d.sourcesFrom? b.id 0 b.inputs

/-- Two blocks have the same type, parameters and numbers of pins. -/
def sameShape (a b : Block) : Bool :=
  a.type == b.type && a.params == b.params && a.inputs == b.inputs &&
    a.outputs == b.outputs

/-- Two blocks compute the same outputs from the same pins. -/
def areTwins (d : Diagram) (a b : Block) : Bool :=
  a.inputs != 0 && a.outputs != 0 && sameShape a b
    && match d.sources? a with
      | some pins => d.sources? b == some pins
      | none => false

/-- The equalities between the outputs of two blocks. -/
def outputEqualities {R : Type} (a b : Block) : List (Relation R) :=
  (List.range a.outputs).map fun k => ⟨.var (a.outputVar k), .eq, .var (b.outputVar k)⟩

/-- The equalities between the blocks of a list that are twins. -/
def twinEqualities {R : Type} (d : Diagram) : List Block → List (Relation R)
  | [] => []
  | a :: rest =>
      (rest.filter (d.areTwins a)).flatMap (outputEqualities a) ++ d.twinEqualities rest

/-- The equalities between outputs of twins. -/
def equalities {R : Type} (d : Diagram) : List (Relation R) :=
  d.twinEqualities d.blocks

end Diagram
end SignalFlow
