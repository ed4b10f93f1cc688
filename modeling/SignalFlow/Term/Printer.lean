import SignalFlow.Term.Basic

/-!
# Text of terms

Sums bind weakest, then products and quotients, then negation and negative literals, then
powers, and literals and variables strongest.  An operand that binds weaker than its place
asks for is put in parentheses.  A negated summand and a negative literal after the first
summand are written as subtraction.
-/

namespace SignalFlow
namespace Term

variable {R : Type} [Scalar R]

/-- Binding strength of a literal. -/
def literalStrength (v : R) : Nat :=
  if v < 0 then 3 else 5

/-- Parentheses around `text` if its strength `own` is below what its place asks for. -/
def enclose (own place : Nat) (text : String) : String :=
  if own < place then "(" ++ text ++ ")" else text

mutual

/-- Text of a term at a place that asks for the strength `place`. -/
def renderAt (place : Nat) : Term R → String
  | .num v => enclose (literalStrength v) place (Scalar.write v)
  | .var x => x
  | .add ts => enclose 1 place (renderSum ts)
  | .mul ts => enclose 2 place (renderProduct ts)
  | .neg t => enclose 3 place ("-" ++ renderAt 4 t)
  | .div a b => enclose 2 place (renderAt 2 a ++ " / " ++ renderAt 3 b)
  | .pow a b => enclose 4 place (renderAt 5 a ++ "^" ++ renderAt 5 b)

/-- Text of the summands of a sum. -/
def renderSum : List (Term R) → String
  | [] => ""
  | t :: ts => renderAt 1 t ++ renderSummands ts

/-- Text of the summands after the first. -/
def renderSummands : List (Term R) → String
  | [] => ""
  | .neg t :: ts => " - " ++ renderAt 2 t ++ renderSummands ts
  | .num v :: ts =>
      (if v < 0 then " - " ++ Scalar.write (-v) else " + " ++ Scalar.write v) ++
        renderSummands ts
  | t :: ts => " + " ++ renderAt 1 t ++ renderSummands ts

/-- Text of the factors of a product. -/
def renderProduct : List (Term R) → String
  | [] => ""
  | t :: ts => renderAt 2 t ++ renderFactors ts

/-- Text of the factors after the first. -/
def renderFactors : List (Term R) → String
  | [] => ""
  | t :: ts => " * " ++ renderAt 2 t ++ renderFactors ts

end

/-- Text of a term. -/
def render (t : Term R) : String :=
  renderAt 0 t

end Term
end SignalFlow
