import SignalFlow.Formula.Basic
import SignalFlow.Range

/-!
# Facts

What is known about signals.  A *constraint* is an interval or a relation about a term; a
*boundary* is a disjunction of constraints; a *fact* is a single constraint, a boundary, a
disjunction of boundaries for a signal that is sampled in time, a list of guarded
boundaries, or a list of relations between signals.

Facts are compared as written.  Constraints with constant bounds have a range; a bound that
is a proper term leaves the constraint without one.
-/

namespace SignalFlow

/-- One side of an interval. -/
structure Bound (R : Type) where
  value : Term R
  strict : Bool
  deriving BEq

/-- `term` lies between the bounds; a missing side is open. -/
structure Interval (R : Type) where
  term : Term R
  lower : Option (Bound R)
  upper : Option (Bound R)
  deriving BEq

/-- A statement about one term. -/
inductive Constraint (R : Type) where
  | interval (interval : Interval R)
  | relation (relation : Relation R)
  deriving BEq

/-- One of the constraints holds. -/
structure Boundary (R : Type) where
  items : List (Constraint R)
  deriving BEq

/-- The boundary holds whenever the antecedent does. -/
structure Guarded (R : Type) where
  antecedent : Formula R
  consequent : Boundary R
  deriving BEq

/-- Every edge carries facts of each category. -/
inductive Category where
  | signal
  | control
  | data
  deriving Repr, DecidableEq

/-- All categories. -/
def Category.all : List Category :=
  [.signal, .control, .data]

/-- A statement about the values of signals. -/
inductive Fact (R : Type) where
  | single (item : Constraint R)
  | boundary (boundary : Boundary R)
  | discrete (signals : List (Boundary R))
  | control (implications : List (Guarded R))
  | data (relations : List (Relation R))
  deriving BEq

variable {R : Type}

instance : Inhabited (Constraint R) := ⟨.interval ⟨default, none, none⟩⟩
instance : Inhabited (Fact R) := ⟨.data []⟩

namespace Bound

/-- The bound belongs to the interval. -/
def inclusive (value : Term R) : Bound R :=
  ⟨value, false⟩

/-- The bound does not belong to the interval. -/
def exclusive (value : Term R) : Bound R :=
  ⟨value, true⟩

end Bound

section Values

variable [Scalar R]

/-- The interval of `t` with the finite ends of the range. -/
def Range.toInterval (r : Range R) (t : Term R) : Interval R :=
  { term := t
    lower := if Scalar.isFinite r.lo then some ⟨.num r.lo, r.loStrict⟩ else none
    upper := if Scalar.isFinite r.hi then some ⟨.num r.hi, r.hiStrict⟩ else none }

namespace Interval

/-- The relation of the lower bound. -/
def lowerRelation? (i : Interval R) : Option (Relation R) :=
  i.lower.map fun b => ⟨i.term, if b.strict then .gt else .ge, b.value⟩

/-- The relation of the upper bound. -/
def upperRelation? (i : Interval R) : Option (Relation R) :=
  i.upper.map fun b => ⟨i.term, if b.strict then .lt else .le, b.value⟩

/-- Both bounds hold. -/
def toFormula (i : Interval R) : Formula R :=
  .conj (i.lowerRelation?.toList.map .rel ++ i.upperRelation?.toList.map .rel)

/-- An end with its strictness; a missing bound gives the open end `missing`. -/
def endOf? (missing : R) : Option (Bound R) → Option (R × Bool)
  | none => some (missing, true)
  | some b => b.value.value?.map (·, b.strict)

/-- Range of an interval with constant bounds. -/
def range? (i : Interval R) : Option (Range R) :=
  match endOf? (-Scalar.infinity) i.lower, endOf? Scalar.infinity i.upper with
  | some (lo, loStrict), some (hi, hiStrict) => some ⟨lo, hi, loStrict, hiStrict⟩
  | _, _ => none

/-- An interval with neither bound. -/
def isUnconstrained (i : Interval R) : Bool :=
  i.lower.isNone && i.upper.isNone

end Interval

namespace Constraint

/-- The interval between two constants. -/
def closed (t : Term R) (lo hi : R) : Constraint R :=
  .interval ((Range.closed lo hi).toInterval t)

/-- The constraint that `t` equals a constant. -/
def equals (t : Term R) (v : R) : Constraint R :=
  .relation ⟨t, .eq, .num v⟩

/-- The term that is constrained. -/
def subject : Constraint R → Term R
  | .interval i => i.term
  | .relation r => r.lhs

/-- The same statement about `t`. -/
def retarget (t : Term R) : Constraint R → Constraint R
  | .interval i => .interval { i with term := t }
  | .relation r => .relation { r with lhs := t }

/-- Range of a constraint with constant bounds. -/
def range? : Constraint R → Option (Range R)
  | .interval i => i.range?
  | .relation r => r.rhs.value?.map (.ofComparison r.op)

/-- An interval with neither bound. -/
def isUnconstrained : Constraint R → Bool
  | .interval i => i.isUnconstrained
  | .relation _ => false

/-- The constraint as a formula. -/
def toFormula : Constraint R → Formula R
  | .interval i => i.toFormula
  | .relation r => .rel r

/-- Whether the constraint rules out the value zero. -/
def excludesZero (c : Constraint R) : Bool :=
  match c with
  | .interval i => i.range?.any fun r => !r.containsZero
  | .relation ⟨_, .ne, rhs⟩ => rhs.value?.any (· == 0)
  | .relation ⟨_, op, rhs⟩ =>
      rhs.value?.any fun v => !(Range.ofComparison op v).containsZero

end Constraint

namespace Boundary

/-- The boundary of a range. -/
def ofRange (t : Term R) (r : Range R) : Boundary R :=
  ⟨[.interval (r.toInterval t)]⟩

/-- Nothing is known about `t`. -/
def unbounded (t : Term R) : Boundary R :=
  ⟨[.interval ⟨t, none, none⟩]⟩

/-- The term that is constrained. -/
def subject? (b : Boundary R) : Option (Term R) :=
  b.items.head?.map Constraint.subject

/-- The same statement about `t`. -/
def retarget (b : Boundary R) (t : Term R) : Boundary R :=
  ⟨b.items.map (Constraint.retarget t)⟩

/-- Hull of the ranges of all constraints, if each has one. -/
def hull? (b : Boundary R) : Option (Range R) :=
  match b.items.mapM Constraint.range? with
  | some (r :: rs) => some (rs.foldl Range.hull r)
  | _ => none

/-- Whether zero is possible. -/
def crossesZero (b : Boundary R) : Bool :=
  b.items.isEmpty || b.items.any fun c => !c.excludesZero

/-- One of the constraints allows every value. -/
def isUnbounded (b : Boundary R) : Bool :=
  b.items.any fun c => c.range?.any Range.isFull

/-- One of the constraints is an interval with neither bound. -/
def isUnconstrained (b : Boundary R) : Bool :=
  b.items.any Constraint.isUnconstrained

/-- The disjunction of the constraints. -/
def toFormula (b : Boundary R) : Formula R :=
  .disj (b.items.map Constraint.toFormula)

/-- The boundary of `t` after `f` has been applied to every range. -/
def mapRanges? (b : Boundary R) (t : Term R) (f : Range R → Range R) :
    Option (Boundary R) :=
  (b.items.mapM Constraint.range?).map fun rs =>
    ⟨distinct (rs.map fun r => .interval ((f r).toInterval t))⟩

/-- All constraints of several boundaries. -/
def flatten (bs : List (Boundary R)) : Boundary R :=
  ⟨distinct (bs.flatMap Boundary.items)⟩

end Boundary

namespace Guarded

/-- The guarded boundary as a formula. -/
def toFormula (g : Guarded R) : Formula R :=
  .implies g.antecedent g.consequent.toFormula

/-- The same statement about `t`, under the same antecedent. -/
def retarget (g : Guarded R) (t : Term R) : Guarded R :=
  { g with consequent := g.consequent.retarget t }

end Guarded

namespace Fact

/-- The fact that says nothing, in each category. -/
def noInformation (name : String) : Category → Fact R
  | .signal => .boundary (.unbounded (.var name))
  | .control => .control []
  | .data => .data []

/-- The boundary of a range, as a fact. -/
def ofRange (t : Term R) (r : Range R) : Fact R :=
  .boundary (.ofRange t r)

/-- The category of a fact. -/
def category : Fact R → Category
  | .control _ => .control
  | .data _ => .data
  | _ => .signal

/-- The term a fact constrains, if it is one. -/
def subject? : Fact R → Option (Term R)
  | .single c => some c.subject
  | .boundary b => b.subject?
  | .discrete bs => bs.head?.bind Boundary.subject?
  | .control gs => gs.head?.bind fun g => g.consequent.subject?
  | .data _ => none

/-- A signal fact as one boundary. -/
def asBoundary? : Fact R → Option (Boundary R)
  | .single c => some ⟨[c]⟩
  | .boundary b => some b
  | .discrete bs => some (.flatten bs)
  | .control _ => none
  | .data _ => none

/-- Whether zero is possible; facts of other categories do not exclude it. -/
def crossesZero (p : Fact R) : Bool :=
  match p.asBoundary? with
  | some b => b.crossesZero
  | none => true

/-- Whether the fact says nothing. -/
def isNoInformation : Fact R → Bool
  | .control gs => gs.isEmpty
  | .data rs => rs.isEmpty
  | p => p.asBoundary?.any Boundary.isUnconstrained

/-- Whether this is a signal fact that says something. -/
def isInformativeSignal (p : Fact R) : Bool :=
  p.category == .signal && !p.isNoInformation

/-- The same statement about `t`. -/
def retarget (p : Fact R) (t : Term R) : Fact R :=
  match p with
  | .single c => .single (c.retarget t)
  | .boundary b => .boundary (b.retarget t)
  | .discrete bs => .discrete (bs.map (·.retarget t))
  | .control gs => .control (gs.map (·.retarget t))
  | .data rs => .data rs

/-- A fact as a formula. -/
def toFormula : Fact R → Formula R
  | .single c => c.toFormula
  | .boundary b => b.toFormula
  | .discrete bs => (Boundary.flatten bs).toFormula
  | .control gs => .conj (gs.map Guarded.toFormula)
  | .data rs => .conj (rs.map .rel)

/-- Text of a fact. -/
def render : Fact R → String
  | .discrete bs =>
      "discrete[" ++ String.intercalate "; " (bs.map fun b => b.toFormula.render) ++ "]"
  | p => p.toFormula.render

/-- Meet the hulls of several boundaries with `acc`; boundaries without a hull are passed
over, and the result is `none` if the hulls exclude each other. -/
def meetHulls? (acc : Range R) : List (Boundary R) → Option (Range R)
  | [] => some acc
  | b :: bs =>
      match b.hull? with
      | none => meetHulls? acc bs
      | some r =>
          match acc.intersect? r with
          | none => none
          | some meet => meetHulls? meet bs

/-- One boundary about `t` for several facts that hold together.  A single fact keeps its
disjuncts, and of facts that exclude each other the first is kept. -/
def conjoin? (t : Term R) (facts : List (Fact R)) : Option (Boundary R) :=
  match facts.filterMap asBoundary? with
  | [] => none
  | [b] => some (b.retarget t)
  | b :: bs =>
      match meetHulls? .full (b :: bs) with
      | none => some (b.retarget t)
      | some r => some (.ofRange t r)

end Fact

end Values

end SignalFlow
