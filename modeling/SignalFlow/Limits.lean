import SignalFlow.Digest
import SignalFlow.Json.Reader
import SignalFlow.Json.Writer
import SignalFlow.Scalar.Basic

/-!
# Limits of an analysis

The integers that values have to stay between, the number of rounds a feedback loop is
simulated for, and the number of clauses the interval oracle may spread a formula into.
-/

namespace SignalFlow

/-- Limits of an analysis. -/
structure Limits where
  maxInt : Int := 2147483647
  minInt : Int := -2147483648
  maxRounds : Nat := 100
  maxClauses : Nat := 64
  deriving Repr, DecidableEq

namespace Limits

/-- Why limits were refused. -/
inductive Error where
  /-- The text is not a document of limits. -/
  | malformed
  /-- No integer lies between the limits. -/
  | emptyRange (minInt maxInt : Int)
  deriving Repr, DecidableEq

/-- Wording of a refusal. -/
def Error.message : Error → String
  | .malformed => "invalid config JSON"
  | .emptyRange lo hi =>
      "min_int (" ++ toString lo ++ ") must be below max_int (" ++ toString hi ++ ")"

/-- The limits of a document. -/
def ofValue? (v : Json.Value) : Option Limits :=
  match v.record? ["max_int", "min_int", "max_simulation_rounds",
      "max_oracle_clauses"] with
  | some [hi, lo, rounds, clauses] => do
      let d : Limits := {}
      let maxInt ← Json.Value.fieldOr? d.maxInt Json.Value.int64? hi
      let minInt ← Json.Value.fieldOr? d.minInt Json.Value.int64? lo
      let maxRounds ← Json.Value.fieldOr? d.maxRounds
        (Json.Value.nat? Text.countLimit) rounds
      let maxClauses ← Json.Value.fieldOr? d.maxClauses
        (Json.Value.nat? Text.countLimit) clauses
      return ⟨maxInt, minInt, maxRounds, maxClauses⟩
  | _ => none

/-- Read limits; fields that are left out have their usual value. -/
def read (text : String) : Except Error Limits :=
  match (Json.Value.read? text).bind ofValue? with
  | none => .error .malformed
  | some l => if l.maxInt ≤ l.minInt then .error (.emptyRange l.minInt l.maxInt) else .ok l

/-- The limits as a document. -/
def document (l : Limits) : Json.Document :=
  .record
    [("max_int", .int l.maxInt), ("min_int", .int l.minInt),
      ("max_simulation_rounds", .int l.maxRounds),
      ("max_oracle_clauses", .int l.maxClauses)]

/-- Digest that tells limits apart. -/
def fingerprint (l : Limits) : String :=
  Digest.ofText l.document.compact

/-- The upper limit as a scalar. -/
def upper {R : Type} [Scalar R] (l : Limits) : R :=
  Scalar.ofInt l.maxInt

/-- The lower limit as a scalar. -/
def lower {R : Type} [Scalar R] (l : Limits) : R :=
  Scalar.ofInt l.minInt

end Limits
end SignalFlow
