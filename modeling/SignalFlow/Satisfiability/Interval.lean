import SignalFlow.Range
import SignalFlow.Satisfiability.NormalForm

/-!
# Satisfiability by intervals

An oracle says whether a formula can hold.  The interval oracle spreads a formula into
clauses and decides each clause whose relations compare one variable with a constant: it
keeps one range for every variable and the points that are excluded by `!=`.  Relations it
cannot read leave the answer open.
-/

namespace SignalFlow

/-- Answer of an oracle. -/
inductive Verdict where
  | satisfiable
  | unsatisfiable
  | unknown
  | error (message : String)
  deriving Repr, DecidableEq

namespace Verdict

/-- All answers but a definite no leave a formula possible. -/
def isPossible : Verdict → Bool
  | .unsatisfiable => false
  | _ => true

/-- Text of an answer. -/
def render : Verdict → String
  | .satisfiable => "SATISFIABLE"
  | .unsatisfiable => "UNSATISFIABLE"
  | .unknown => "UNKNOWN"
  | .error message => "ERROR(" ++ message ++ ")"

end Verdict

/-- A decision procedure for formulas. -/
abbrev Oracle (R : Type) := Formula R → Verdict

namespace Satisfiability

variable {R : Type} [Scalar R]

/-- What a relation says to the interval oracle. -/
inductive Atom (R : Type) where
  /-- The variable stands in a comparison to a constant. -/
  | bound (name : String) (op : Comparison) (value : R)
  /-- Both sides are constants. -/
  | ground (holds : Bool)
  /-- Anything else. -/
  | unclear

/-- Read a relation; an undefined constant is an error. -/
def classify (r : Relation R) : Except String (Atom R) :=
  let left := r.lhs.value?
  let right := r.rhs.value?
  if left.any Scalar.isUndefined || right.any Scalar.isUndefined then
    .error ("non-numeric constant in `" ++ r.render ++ "`")
  else
    match r.lhs, left, r.rhs, right with
    | _, some a, _, some b => .ok (.ground (r.op.holds a b))
    | .var x, none, _, some c => .ok (.bound x r.op c)
    | _, some c, .var x, none => .ok (.bound x r.op.flip c)
    | _, _, _, _ => .ok .unclear

/-- What is known about the variables of a clause. -/
structure Knowledge (R : Type) where
  ranges : List (String × Range R)
  excluded : List (String × R)
  unclear : Bool

namespace Knowledge

/-- Nothing is known. -/
def empty : Knowledge R :=
  ⟨[], [], false⟩

/-- Range of a variable. -/
def rangeOf (k : Knowledge R) (x : String) : Range R :=
  (k.ranges.lookup x).getD .full

/-- Replace the range of a variable. -/
def setRange (k : Knowledge R) (x : String) (r : Range R) : Knowledge R :=
  { k with ranges := (x, r) :: k.ranges.filter (fun e => e.1 != x) }

/-- Narrow the range of a variable; `none` if nothing is left. -/
def narrow? (k : Knowledge R) (x : String) (r : Range R) : Option (Knowledge R) :=
  ((k.rangeOf x).intersect? r).map (k.setRange x)

/-- The only value left for `x` is `c`. -/
def pinned (k : Knowledge R) (x : String) (c : R) : Bool :=
  match k.ranges.lookup x with
  | some r => r.lo == c && r.hi == c
  | none => false

/-- Verdict once every relation has been taken in. -/
def verdict (k : Knowledge R) : Verdict :=
  if k.excluded.any (fun e => k.pinned e.1 e.2) then .unsatisfiable
  else if k.unclear then .unknown
  else .satisfiable

end Knowledge

/-- Decide a clause, given what is known from its earlier relations. -/
def decideFrom (k : Knowledge R) : Clause R → Verdict
  | [] => k.verdict
  | r :: rs =>
      match classify r with
      | .error message => .error message
      | .ok (.ground true) => decideFrom k rs
      | .ok (.ground false) => .unsatisfiable
      | .ok .unclear => decideFrom { k with unclear := true } rs
      | .ok (.bound x .ne c) => decideFrom { k with excluded := k.excluded ++ [(x, c)] } rs
      | .ok (.bound x op c) =>
          match k.narrow? x (.ofComparison op c) with
          | none => .unsatisfiable
          | some k => decideFrom k rs

/-- Decide a disjunction of clauses; `unclear` says that an earlier one was left open. -/
def decideAny (unclear : Bool) : List (Clause R) → Verdict
  | [] => if unclear then .unknown else .unsatisfiable
  | c :: cs =>
      match decideFrom Knowledge.empty c with
      | .satisfiable => .satisfiable
      | .unsatisfiable => decideAny unclear cs
      | .unknown => decideAny true cs
      | .error message => .error message

end Satisfiability

/-- The interval oracle with room for `maxClauses` clauses, at least one. -/
def Oracle.interval {R : Type} [Scalar R] (maxClauses : Nat) : Oracle R := fun p =>
  match (p.nnf false).clauses? (max maxClauses 1) with
  | none => .unknown
  | some cs => Satisfiability.decideAny false cs

end SignalFlow
