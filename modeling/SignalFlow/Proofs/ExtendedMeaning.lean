import Mathlib.Data.EReal.Inv
import SignalFlow.Proofs.Meaning

/-!
# Meaning with infinite literals

Scalars may be infinite, so that a literal need not stand for a real number.  Here literals
are read among the extended reals, and so are the terms built from them; variables still
have real values.

An `ExtendedReading` asks that defined scalars are compared as their values are.  Nothing
is asked of an undefined scalar, nor of arithmetic, which scalars round.

**Results.**
* `Relation.trueAt_negate`, `Comparison.compares_flip`: negated and exchanged comparisons.
* `Comparison.holds_iff_compares`: scalars are compared by their values.
* `Relation.respects_trueAt`: equal relations are true alike.
-/

namespace SignalFlow

/-- The value is equal to itself, as every number is. -/
def Scalar.Defined {R : Type} [Scalar R] (a : R) : Prop :=
  Scalar.isUndefined a = false

instance {R : Type} [Scalar R] (a : R) : Decidable (Scalar.Defined a) :=
  inferInstanceAs (Decidable (Scalar.isUndefined a = false))

/-- How literals and powers are read among the extended reals. -/
structure ExtendedReading (R : Type) [Scalar R] where
  /-- The value of a literal. -/
  lit : R → EReal
  /-- Power with an arbitrary exponent. -/
  pow : EReal → EReal → EReal
  lit_zero : lit 0 = 0
  lit_infinity : lit Scalar.infinity = ⊤
  lit_neg_infinity : lit (-Scalar.infinity) = ⊥
  defined_zero : Scalar.Defined (0 : R)
  defined_infinity : Scalar.Defined (Scalar.infinity : R)
  defined_neg_infinity : Scalar.Defined (-Scalar.infinity : R)
  lit_eq_of_beq : ∀ {a b : R}, (a == b) = true → lit a = lit b
  beq_iff : ∀ {a b : R}, Scalar.Defined a → Scalar.Defined b →
    ((a == b) = true ↔ lit a = lit b)
  lt_iff : ∀ {a b : R}, Scalar.Defined a → Scalar.Defined b → (a < b ↔ lit a < lit b)
  le_iff : ∀ {a b : R}, Scalar.Defined a → Scalar.Defined b → (a ≤ b ↔ lit a ≤ lit b)

namespace Comparison

theorem compares_negate {K : Type*} [LinearOrder K] (c : Comparison) (a b : K) :
    c.negate.Compares a b ↔ ¬c.Compares a b := by
  cases c <;> simp [negate, Compares]

theorem compares_flip {K : Type*} [LinearOrder K] (c : Comparison) (a b : K) :
    c.flip.Compares a b ↔ c.Compares b a := by
  cases c <;> simp [flip, Compares, eq_comm]

variable {R : Type} [Scalar R]

/-- Defined scalars are compared by their values. -/
theorem holds_iff_compares (ρ : ExtendedReading R) (c : Comparison) {a b : R}
    (ha : Scalar.Defined a) (hb : Scalar.Defined b) :
    c.holds a b = true ↔ c.Compares (ρ.lit a) (ρ.lit b) := by
  cases c with
  | lt => simpa [holds, Compares] using ρ.lt_iff ha hb
  | le => simpa [holds, Compares] using ρ.le_iff ha hb
  | eq => simpa [holds, Compares] using ρ.beq_iff ha hb
  | ne => simpa [holds, Compares] using not_congr (ρ.beq_iff ha hb)
  | ge => simpa [holds, Compares] using ρ.le_iff hb ha
  | gt => simpa [holds, Compares] using ρ.lt_iff hb ha

end Comparison

variable {R : Type} [Scalar R]

namespace Term

@[simp] theorem value?_num (a : R) : (Term.num a).value? = some a := by
  simp [value?]

@[simp] theorem value?_var (x : String) : (Term.var x : Term R).value? = none := by
  simp [value?]

mutual

/-- Value of a term among the extended reals. -/
noncomputable def extended (ρ : ExtendedReading R) (v : Valuation ℝ) : Term R → EReal
  | .num a => ρ.lit a
  | .var x => v x
  | .add ts => extendedSum ρ v ts
  | .mul ts => extendedProduct ρ v ts
  | .neg t => -extended ρ v t
  | .div a b => extended ρ v a / extended ρ v b
  | .pow a b => ρ.pow (extended ρ v a) (extended ρ v b)

/-- Sum of the values of terms. -/
noncomputable def extendedSum (ρ : ExtendedReading R) (v : Valuation ℝ) :
    List (Term R) → EReal
  | [] => 0
  | t :: ts => extended ρ v t + extendedSum ρ v ts

/-- Product of the values of terms. -/
noncomputable def extendedProduct (ρ : ExtendedReading R) (v : Valuation ℝ) :
    List (Term R) → EReal
  | [] => 1
  | t :: ts => extended ρ v t * extendedProduct ρ v ts

end

variable (ρ : ExtendedReading R) (v : Valuation ℝ)

theorem extendedSum_eq (ts : List (Term R)) :
    extendedSum ρ v ts = (ts.map (extended ρ v)).sum := by
  induction ts with
  | nil => simp [extendedSum]
  | cons t ts ih => simp [extendedSum, ih]

theorem extendedProduct_eq (ts : List (Term R)) :
    extendedProduct ρ v ts = (ts.map (extended ρ v)).prod := by
  induction ts with
  | nil => simp [extendedProduct]
  | cons t ts ih => simp [extendedProduct, ih]

@[simp] theorem extended_num (a : R) : (Term.num a).extended ρ v = ρ.lit a := by
  simp [extended]

@[simp] theorem extended_var (x : String) : (Term.var x : Term R).extended ρ v = v x := by
  simp [extended]

/-- Equal terms have the same value. -/
theorem extended_eq_of_beq (t : Term R) :
    ∀ u, beq t u = true → t.extended ρ v = u.extended ρ v := by
  induction t with
  | num a =>
      intro u h
      cases u <;> simp only [beq, Bool.false_eq_true] at h
      simpa using ρ.lit_eq_of_beq h
  | var y =>
      intro u h
      cases u <;> simp_all [beq]
  | add ts ih =>
      intro u h
      cases u <;> simp only [beq, Bool.false_eq_true] at h
      simp [extended, extendedSum_eq, map_eq_of_beqList ih h]
  | mul ts ih =>
      intro u h
      cases u <;> simp only [beq, Bool.false_eq_true] at h
      simp [extended, extendedProduct_eq, map_eq_of_beqList ih h]
  | neg t ih =>
      intro u h
      cases u <;> simp only [beq, Bool.false_eq_true] at h
      simp [extended, ih _ h]
  | div a b iha ihb =>
      intro u h
      cases u <;> simp only [beq, Bool.false_eq_true, Bool.and_eq_true] at h
      simp [extended, iha _ h.1, ihb _ h.2]
  | pow a b iha ihb =>
      intro u h
      cases u <;> simp only [beq, Bool.false_eq_true, Bool.and_eq_true] at h
      simp [extended, iha _ h.1, ihb _ h.2]

end Term

namespace Relation

/-- The two sides of a relation compare as it says, for real values of the variables. -/
def TrueAt (ρ : ExtendedReading R) (v : Valuation ℝ) (r : Relation R) : Prop :=
  r.op.Compares (r.lhs.extended ρ v) (r.rhs.extended ρ v)

variable (ρ : ExtendedReading R) (v : Valuation ℝ)

theorem trueAt_negate (r : Relation R) : r.negate.TrueAt ρ v ↔ ¬r.TrueAt ρ v :=
  Comparison.compares_negate _ _ _

/-- Equal relations are true alike. -/
theorem respects_trueAt : Respects (TrueAt (R := R) ρ v) := by
  intro r s h
  simp only [beq_iff, Bool.and_eq_true] at h
  have hop : r.op = s.op := by simpa using h.2.1
  simp [TrueAt, Term.extended_eq_of_beq ρ v r.lhs s.lhs h.1, hop,
    Term.extended_eq_of_beq ρ v r.rhs s.rhs h.2.2]

end Relation

namespace Formula

/-- Truth of a formula for real values of the variables. -/
def TrueAt (ρ : ExtendedReading R) (v : Valuation ℝ) (p : Formula R) : Prop :=
  p.TrueUnder (Relation.TrueAt ρ v)

variable (ρ : ExtendedReading R) (v : Valuation ℝ)

theorem trueAt_rel (r : Relation R) : (Formula.rel r).TrueAt ρ v ↔ r.TrueAt ρ v :=
  trueUnder_rel _ r

theorem trueAt_conj (ps : List (Formula R)) : (conj ps).TrueAt ρ v ↔
      ∀ p ∈ ps, p.TrueAt ρ v :=
  trueUnder_conj (Relation.respects_trueAt ρ v) ps

theorem trueAt_disj (ps : List (Formula R)) : (disj ps).TrueAt ρ v ↔
      ∃ p ∈ ps, p.TrueAt ρ v :=
  trueUnder_disj (Relation.respects_trueAt ρ v) ps

end Formula
end SignalFlow
