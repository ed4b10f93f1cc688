import SignalFlow.Definition.Basic
import SignalFlow.Diagnostic

/-!
# Well-formed definitions

A list of definitions is well-formed if no name is defined in two ways and no definition
depends on itself, directly or through others.
-/

namespace SignalFlow
namespace Definition

variable {R : Type}

/-- Why a list of definitions is not well-formed. -/
inductive Fault where
  /-- Names that depend on each other; the first is repeated at the end. -/
  | cycle (names : List String)
  | conflict (name : String)
  deriving Repr, DecidableEq

namespace Fault

/-- Wording of a fault. -/
def message : Fault → String
  | .cycle names => "macro dependency cycle: " ++ String.intercalate " -> " names
  | .conflict name => "conflicting definitions for placeholder '" ++ name ++ "'"

/-- The diagnostic for a fault. -/
def diagnostic (e : Fault) : Diagnostic :=
  match e with
  | .cycle _ =>
      (Diagnostic.error .definitionCycle e.message).withHint
        "macros were applied without closure; placeholders may remain"
  | .conflict _ => Diagnostic.error .definitionConflict e.message

end Fault

section Conflicts

variable [BEq R]

/-- Two definitions give the same name different meanings; a width stands beside another
definition. -/
def conflicts (a b : Definition R) : Bool :=
  a.isWidth == b.isWidth && a.name == b.name && !(a == b)

/-- The first name with two meanings. -/
def conflict? : List (Definition R) → Option String
  | [] => none
  | d :: ds => if ds.any (conflicts d) then some d.name else conflict? ds

end Conflicts

/-- Positions of the definitions that the one at position `j` depends on. -/
def dependencies (ds : List (Definition R)) (j : Nat) : List Nat :=
  match ds[j]? with
  | none => []
  | some d =>
      (List.range ds.length).filter fun i => ds[i]?.any fun other => d.dependsOn other

/-- Look at the dependencies of the last position of `path` in turn.  The result is a cycle
of positions, or all positions that are known to lead into none. -/
def checkEach (descend : Nat → List Nat → List Nat → Except (List Nat) (List Nat))
    (path : List Nat) :
    List Nat → List Nat → Except (List Nat) (List Nat)
  | [], clear => .ok clear
  | i :: rest, clear =>
      if clear.contains i then checkEach descend path rest clear
      else if path.contains i then .error (path.dropWhile (fun k => k != i) ++ [i])
      else
        match descend i path clear with
        | .error cycle => .error cycle
        | .ok clear => checkEach descend path rest clear

/-- Follow the dependencies from a position that is reached along `path`. -/
def checkFrom (ds : List (Definition R)) : Nat → Nat → List Nat → List Nat →
      Except (List Nat) (List Nat)
  | 0, _, _, clear => .ok clear
  | depth + 1, j, path, clear =>
      match checkEach (checkFrom ds depth) (path ++ [j]) (dependencies ds j) clear with
      | .error cycle => .error cycle
      | .ok clear => .ok (clear ++ [j])

/-- Follow the dependencies from every position. -/
def checkAll (ds : List (Definition R)) : List Nat → List Nat → Option (List Nat)
  | [], _ => none
  | j :: rest, clear =>
      if clear.contains j then checkAll ds rest clear
      else
        match checkFrom ds ds.length j [] clear with
        | .error cycle => some cycle
        | .ok clear => checkAll ds rest clear

/-- Names of a cycle of dependencies. -/
def cycle? (ds : List (Definition R)) : Option (List String) :=
  (checkAll ds (List.range ds.length) []).map fun positions =>
    positions.filterMap fun i => ds[i]?.map name

end Definition
end SignalFlow
