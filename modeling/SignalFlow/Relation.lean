import SignalFlow.Term.Printer

/-!
# Comparisons and relations

The six comparisons with their negation and their converse, and relations that compare two
terms.
-/

namespace SignalFlow

/-- How two values are compared. -/
inductive Comparison where
  | lt
  | le
  | eq
  | ne
  | ge
  | gt
  deriving Repr, DecidableEq

namespace Comparison

/-- All comparisons. -/
def all : List Comparison :=
  [.lt, .le, .eq, .ne, .ge, .gt]

/-- The comparison that holds exactly when this one does not. -/
def negate : Comparison → Comparison
  | .lt => .ge
  | .le => .gt
  | .eq => .ne
  | .ne => .eq
  | .ge => .lt
  | .gt => .le

/-- The comparison of the two sides in exchanged order. -/
def flip : Comparison → Comparison
  | .lt => .gt
  | .le => .ge
  | .eq => .eq
  | .ne => .ne
  | .ge => .le
  | .gt => .lt

/-- Truth of a comparison between two scalars. -/
def holds {R : Type} [Scalar R] (c : Comparison) (a b : R) : Bool :=
  match c with
  | .lt => a < b
  | .le => a ≤ b
  | .eq => a == b
  | .ne => !(a == b)
  | .ge => b ≤ a
  | .gt => b < a

/-- The sign it is written with. -/
def symbol : Comparison → String
  | .lt => "<"
  | .le => "<="
  | .eq => "="
  | .ne => "!="
  | .ge => ">="
  | .gt => ">"

/-- The comparison a sign stands for; equality and its negation have two signs each. -/
def ofSymbol? (s : String) : Option Comparison :=
  if s = "<" then some .lt
  else if s = "<=" then some .le
  else if s = "=" || s = "==" then some .eq
  else if s = "!=" || s = "~=" then some .ne
  else if s = ">=" then some .ge
  else if s = ">" then some .gt
  else none

end Comparison

/-- A comparison between two terms. -/
structure Relation (R : Type) where
  lhs : Term R
  op : Comparison
  rhs : Term R
  deriving BEq

namespace Relation

variable {R : Type}

/-- The relation that holds exactly when this one does not. -/
def negate (r : Relation R) : Relation R :=
  { r with op := r.op.negate }

/-- Whether the variable `x` occurs. -/
def mentions (x : String) (r : Relation R) : Bool :=
  r.lhs.mentions x || r.rhs.mentions x

/-- The variables of both sides. -/
def vars (r : Relation R) : List String :=
  r.lhs.vars ++ r.rhs.vars

variable [Scalar R]

/-- Truth of a relation without variables. -/
def holds? (r : Relation R) : Option Bool :=
  match r.lhs.value?, r.rhs.value? with
  | some a, some b => some (r.op.holds a b)
  | _, _ => none

/-- Replace the variable `x` on both sides. -/
def subst (r : Relation R) (x : String) (t : Term R) : Relation R :=
  { r with lhs := r.lhs.subst x t, rhs := r.rhs.subst x t }

/-- Text of a relation. -/
def render (r : Relation R) : String :=
  r.lhs.render ++ " " ++ r.op.symbol ++ " " ++ r.rhs.render

end Relation
end SignalFlow
