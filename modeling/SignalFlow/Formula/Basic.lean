import SignalFlow.Distinct
import SignalFlow.Relation

/-!
# Formulas

Formulas combine relations by the usual connectives.

* `Formula.conj` and `Formula.disj` build conjunctions and disjunctions with nested ones
  spliced in, without neutral and repeated parts.
* `Formula.subst` replaces a variable in every relation.
-/

namespace SignalFlow

/-- A formula over relations between terms. -/
inductive Formula (R : Type) where
  | top
  | bottom
  | rel (relation : Relation R)
  | all (parts : List (Formula R))
  | any (parts : List (Formula R))
  | not (part : Formula R)
  | implies (antecedent consequent : Formula R)

namespace Formula

variable {R : Type}

instance : Inhabited (Formula R) := ⟨.top⟩

section Equality

variable [BEq R]

mutual

/-- Two formulas are built alike from equal relations. -/
def beq : Formula R → Formula R → Bool
  | .top, .top => true
  | .bottom, .bottom => true
  | .rel r, .rel s => r == s
  | .all ps, .all qs => beqList ps qs
  | .any ps, .any qs => beqList ps qs
  | .not p, .not q => beq p q
  | .implies a b, .implies c d => beq a c && beq b d
  | _, _ => false

/-- Part by part `beq`. -/
def beqList : List (Formula R) → List (Formula R) → Bool
  | [], [] => true
  | p :: ps, q :: qs => beq p q && beqList ps qs
  | _, _ => false

end

instance : BEq (Formula R) := ⟨beq⟩

/-- Collect the parts of a conjunction behind `acc`; `none` if one of them is false. -/
def conjParts? (acc : List (Formula R)) : List (Formula R) → Option (List (Formula R))
  | [] => some acc
  | .top :: ps => conjParts? acc ps
  | .bottom :: _ => none
  | .all qs :: ps => conjParts? (acc ++ qs) ps
  | p :: ps => conjParts? (insertLast acc p) ps

/-- Collect the parts of a disjunction behind `acc`; `none` if one of them is true. -/
def disjParts? (acc : List (Formula R)) : List (Formula R) → Option (List (Formula R))
  | [] => some acc
  | .bottom :: ps => disjParts? acc ps
  | .top :: _ => none
  | .any qs :: ps => disjParts? (acc ++ qs) ps
  | p :: ps => disjParts? (insertLast acc p) ps

/-- Conjunction of `ps`. -/
def conj (ps : List (Formula R)) : Formula R :=
  match conjParts? [] ps with
  | none => .bottom
  | some [] => .top
  | some [p] => p
  | some qs => .all qs

/-- Disjunction of `ps`. -/
def disj (ps : List (Formula R)) : Formula R :=
  match disjParts? [] ps with
  | none => .top
  | some [] => .bottom
  | some [p] => p
  | some qs => .any qs

end Equality

/-- The relation between two terms, as a formula. -/
def compare (t : Term R) (c : Comparison) (u : Term R) : Formula R :=
  .rel ⟨t, c, u⟩

/-- The negated formula; a double negation goes away. -/
def negate : Formula R → Formula R
  | .top => .bottom
  | .bottom => .top
  | .not p => p
  | p => .not p

mutual

/-- Whether the variable `x` occurs. -/
def mentions (x : String) : Formula R → Bool
  | .top => false
  | .bottom => false
  | .rel r => r.mentions x
  | .all ps => mentionsAny x ps
  | .any ps => mentionsAny x ps
  | .not p => mentions x p
  | .implies a b => mentions x a || mentions x b

/-- Whether the variable `x` occurs in one of the parts. -/
def mentionsAny (x : String) : List (Formula R) → Bool
  | [] => false
  | p :: ps => mentions x p || mentionsAny x ps

end

mutual

/-- The variables of a formula, from left to right. -/
def vars : Formula R → List String
  | .top => []
  | .bottom => []
  | .rel r => r.vars
  | .all ps => varsList ps
  | .any ps => varsList ps
  | .not p => vars p
  | .implies a b => vars a ++ vars b

/-- The variables of all parts. -/
def varsList : List (Formula R) → List String
  | [] => []
  | p :: ps => vars p ++ varsList ps

end

variable [Scalar R]

mutual

/-- The formula with every occurrence of the variable `x` replaced by `t`. -/
def subst (p : Formula R) (x : String) (t : Term R) : Formula R :=
  match p with
  | .top => .top
  | .bottom => .bottom
  | .rel r => .rel (r.subst x t)
  | .all ps => .all (substList ps x t)
  | .any ps => .any (substList ps x t)
  | .not p => .not (subst p x t)
  | .implies a b => .implies (subst a x t) (subst b x t)

/-- The parts with the variable `x` replaced in each. -/
def substList (ps : List (Formula R)) (x : String) (t : Term R) : List (Formula R) :=
  match ps with
  | [] => []
  | p :: ps => subst p x t :: substList ps x t

end

mutual

/-- Text of a formula. -/
def render : Formula R → String
  | .top => "true"
  | .bottom => "false"
  | .rel r => r.render
  | .all ps => "(" ++ String.intercalate " & " (renderList ps) ++ ")"
  | .any ps => "(" ++ String.intercalate " | " (renderList ps) ++ ")"
  | .not p => "!(" ++ render p ++ ")"
  | .implies a b => "(" ++ render a ++ " -> " ++ render b ++ ")"

/-- Texts of the parts. -/
def renderList : List (Formula R) → List String
  | [] => []
  | p :: ps => render p :: renderList ps

end

end Formula
end SignalFlow
