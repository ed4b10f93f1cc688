/-!
# Scalars

Terms, ranges and facts are generic in the type of their numbers.  A scalar type can be
added, multiplied, divided, negated and compared, has an infinite value, and is read from
and written as text.

Equality `==` need not be reflexive.  A value that differs from itself is *undefined*;
comparisons with it are false, and `lesser` and `greater` ignore it.
-/

namespace SignalFlow

/-- Numbers that literals, bounds and parameters are made of. -/
class Scalar (R : Type) extends Zero R, One R, Add R, Mul R, Div R, Neg R, BEq R,
      LT R, LE R where
  /-- The strict order is decided. -/
  decLt : (a b : R) → Decidable (a < b)
  /-- The weak order is decided. -/
  decLe : (a b : R) → Decidable (a ≤ b)
  /-- Power with an arbitrary exponent. -/
  pow : R → R → R
  /-- Above every finite value; its negation is below every finite value. -/
  infinity : R
  /-- The scalar nearest to an integer. -/
  ofInt : Int → R
  /-- The scalar that a numeral denotes. -/
  read? : String → Option R
  /-- The numeral of a scalar. -/
  write : R → String

namespace Scalar

variable {R : Type} [Scalar R]

instance : DecidableLT R := Scalar.decLt

instance : DecidableLE R := Scalar.decLe

/-- The value differs from itself. -/
def isUndefined (a : R) : Bool :=
  !(a == a)

/-- Neither undefined nor infinite. -/
def isFinite (a : R) : Bool :=
  a == a && !(a == infinity) && !(a == -infinity)

/-- The lesser of two values; an undefined one is ignored, and of two equal ones the second
is kept. -/
def lesser (a b : R) : R :=
  if isUndefined a || b ≤ a then b else a

/-- The greater of two values; an undefined one is ignored, and of two equal ones the
second is kept. -/
def greater (a b : R) : R :=
  if isUndefined a || a ≤ b then b else a

end Scalar
end SignalFlow
