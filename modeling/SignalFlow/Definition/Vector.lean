import SignalFlow.Definition.Basic
import SignalFlow.Iteration
import SignalFlow.Text.Natural

/-!
# Uses of whole vectors

A definition that uses the name of a whole vector is meant element by element.  It is
lifted: the name is replaced by its elements, and the definition becomes a vector itself.
-/

namespace SignalFlow
namespace Definition

/-- The vector and the index in the name of an element. -/
def elementOf? (name : String) : Option (String × Nat) :=
  let base := name.toList.takeWhile fun c => c != '['
  match name.toList.dropWhile fun c => c != '[' with
  | [] => none
  | _ :: rest =>
      match rest.reverse with
      | ']' :: digits =>
          (Text.readNat? Text.countLimit (String.ofList digits.reverse)).map fun i =>
            (String.ofList base, i)
      | _ => none

/-- Numbers of elements by vector, in the order of their first occurrence. -/
abbrev Widths := List (String × Nat)

/-- Record that a vector has at least `n` elements. -/
def Widths.note (x : String) (n : Nat) : Widths → Widths
  | [] => [(x, n)]
  | (y, m) :: rest =>
      if y == x then (y, max m n) :: rest else (y, m) :: Widths.note x n rest

variable {R : Type}

/-- What a definition says about the width of a vector: as a vector, as a width, or as an
element. -/
def widthNote? : Definition R → Option (String × Nat)
  | .vector x ts => some (x, ts.length)
  | .width x n => some (x, n)
  | .simple x _ => (elementOf? x).map fun e => (e.1, e.2 + 1)
  | .cases x _ => (elementOf? x).map fun e => (e.1, e.2 + 1)

/-- The vectors that a list of definitions speaks of. -/
def widths (ds : List (Definition R)) : Widths :=
  (ds.filterMap widthNote?).foldl (fun ws e => ws.note e.1 e.2) []

variable [Scalar R]

/-- The term with a whole vector replaced by its element. -/
def atElement (v : String) (i : Nat) (t : Term R) : Term R :=
  t.subst v (.element v i)

/-- The formula with a whole vector replaced by its element. -/
def formulaAt (v : String) (i : Nat) (p : Formula R) : Formula R :=
  p.subst v (.element v i)

/-- Use the elements of a vector in place of the whole. -/
def lift (v : String) (width : Nat) : Definition R → List (Definition R)
  | .simple x t => [.vector x ((List.range width).map fun i => atElement v i t)]
  | .vector x ts => [.vector x (ts.zipIdx.map fun (t, i) => atElement v i t)]
  | .cases x cs =>
      (List.range width).map fun i =>
        .cases (Term.elementName x i) (cs.map fun c =>
          (formulaAt v i c.1, atElement v i c.2))
  | .width x n => [.width x n]

/-- The first vector that a definition uses as a whole. -/
def wholeUse? (ws : Widths) (d : Definition R) : Option (String × Nat) :=
  ws.find? fun e => d.name != e.1 && d.mentions e.1

/-- Lift the first definition that uses a whole vector. -/
def liftFirst? (ws : Widths) : List (Definition R) → Option (List (Definition R))
  | [] => none
  | d :: ds =>
      match wholeUse? ws d with
      | some (v, n) => some (d.lift v n ++ ds)
      | none => (liftFirst? ws ds).map (d :: ·)

/-- One step of lifting. -/
def liftStep? (ds : List (Definition R)) : Option (List (Definition R)) :=
  liftFirst? (widths ds) ds

/-- Replace all uses of whole vectors by their elements. -/
def liftAll (ds : List (Definition R)) : List (Definition R) :=
  exhaust liftStep? ds

end Definition
end SignalFlow
