import SignalFlow.Formula.Basic

/-!
# Normal forms

Negations are driven into the relations (`Formula.nnf`), and the result is spread into a
bounded list of clauses, each a conjunction of relations (`Formula.clauses?`).
-/

namespace SignalFlow

/-- A conjunction of relations. -/
abbrev Clause (R : Type) := List (Relation R)

namespace Formula

variable {R : Type} [BEq R]

mutual

/-- The formula, or its negation if `negated`, with negation inside the relations only. -/
def nnf (negated : Bool) : Formula R → Formula R
  | .top => if negated then .bottom else .top
  | .bottom => if negated then .top else .bottom
  | .rel r => .rel (if negated then r.negate else r)
  | .all ps => if negated then disj (nnfList negated ps) else conj (nnfList negated ps)
  | .any ps => if negated then conj (nnfList negated ps) else disj (nnfList negated ps)
  | .not p => nnf (!negated) p
  | .implies a b =>
      if negated then conj [nnf false a, nnf true b] else disj [nnf true a, nnf false b]

/-- Part by part `nnf`. -/
def nnfList (negated : Bool) : List (Formula R) → List (Formula R)
  | [] => []
  | p :: ps => nnf negated p :: nnfList negated ps

end

mutual

/-- The clauses of a formula without negation and implication; `none` beyond `limit`
clauses. -/
def clauses? (limit : Nat) : Formula R → Option (List (Clause R))
  | .top => some [[]]
  | .bottom => some []
  | .rel r => some [[r]]
  | .any ps => anyClauses? limit [] ps
  | .all ps => allClauses? limit [[]] ps
  | .not _ => none
  | .implies _ _ => none

/-- Clauses of a disjunction, collected behind `acc`. -/
def anyClauses? (limit : Nat) (acc : List (Clause R)) :
    List (Formula R) → Option (List (Clause R))
  | [] => some acc
  | p :: ps =>
      match clauses? limit p with
      | none => none
      | some cs =>
          if limit < (acc ++ cs).length then none else anyClauses? limit (acc ++ cs) ps

/-- Clauses of a conjunction, each joined to a clause of `acc`. -/
def allClauses? (limit : Nat) (acc : List (Clause R)) :
    List (Formula R) → Option (List (Clause R))
  | [] => some acc
  | p :: ps =>
      match clauses? limit p with
      | none => none
      | some cs =>
          if limit < acc.length * cs.length then none
          else allClauses? limit (acc.flatMap fun left => cs.map (left ++ ·)) ps

end

end Formula
end SignalFlow
