import Mathlib.Algebra.BigOperators.Group.List.Basic
import Mathlib.Algebra.Field.Defs
import Mathlib.Logic.Function.Basic
import Mathlib.Order.Lattice
import SignalFlow.Proofs.Truth

/-!
# The meaning of terms and formulas

Terms have values, and formulas hold or fail, in a field with a linear order.  A `Reading`
says which element of the field a literal stands for and what a power is; all other
operations are those of the field, so that the arithmetic is exact.  Quotients are total,
as the field has them.

A reading need not tell apart literals that are equal as scalars.  Nothing is asked of a
literal that is not equal to itself.

**Results.**
* `Term.eval_subst`, `Formula.holds_subst`: a substitution means an updated valuation.
* `Term.eval_sum`, `Term.eval_product`, `Formula.holds_conj`, `Formula.holds_disj`:
  splicing, and dropping neutral and repeated parts, keeps the meaning.
* `Term.eval_eq_of_beq`, `Formula.holds_iff_of_beq`: equal terms and formulas mean the
  same.
* `Term.eval_congr`, `Formula.holds_congr`: only the variables that occur matter.
-/

namespace SignalFlow

/-- How literals and powers are read in a field. -/
structure Reading (R : Type) (K : Type*) [Scalar R] [Field K] where
  /-- The value of a literal. -/
  lit : R → K
  /-- Power with an arbitrary exponent. -/
  pow : K → K → K
  lit_zero : lit 0 = 0
  lit_one : lit 1 = 1
  lit_eq_of_beq : ∀ {a b : R}, (a == b) = true → lit a = lit b

/-- Values of the variables. -/
abbrev Valuation (K : Type*) := String → K

namespace Comparison

variable {K : Type*} [LinearOrder K]

/-- Two values compare in this way. -/
def Compares (c : Comparison) (a b : K) : Prop :=
  match c with
  | .lt => a < b
  | .le => a ≤ b
  | .eq => a = b
  | .ne => a ≠ b
  | .ge => b ≤ a
  | .gt => b < a

instance (c : Comparison) (a b : K) : Decidable (c.Compares a b) := by
  cases c <;> unfold Compares <;> infer_instance

end Comparison

variable {R : Type} {K : Type*} [Scalar R] [Field K]

namespace Term

mutual

/-- Value of a term. -/
def eval (ρ : Reading R K) (v : Valuation K) : Term R → K
  | .num a => ρ.lit a
  | .var x => v x
  | .add ts => evalSum ρ v ts
  | .mul ts => evalProduct ρ v ts
  | .neg t => -eval ρ v t
  | .div a b => eval ρ v a / eval ρ v b
  | .pow a b => ρ.pow (eval ρ v a) (eval ρ v b)

/-- Sum of the values of terms. -/
def evalSum (ρ : Reading R K) (v : Valuation K) : List (Term R) → K
  | [] => 0
  | t :: ts => eval ρ v t + evalSum ρ v ts

/-- Product of the values of terms. -/
def evalProduct (ρ : Reading R K) (v : Valuation K) : List (Term R) → K
  | [] => 1
  | t :: ts => eval ρ v t * evalProduct ρ v ts

end

variable (ρ : Reading R K) (v : Valuation K)

theorem evalSum_eq (ts : List (Term R)) : evalSum ρ v ts = (ts.map (eval ρ v)).sum := by
  induction ts with
  | nil => simp [evalSum]
  | cons t ts ih => simp [evalSum, ih]

theorem evalProduct_eq (ts : List (Term R)) :
    evalProduct ρ v ts = (ts.map (eval ρ v)).prod := by
  induction ts with
  | nil => simp [evalProduct]
  | cons t ts ih => simp [evalProduct, ih]

@[simp] theorem eval_num (a : R) : (Term.num a).eval ρ v = ρ.lit a := by
  simp [eval]

@[simp] theorem eval_var (x : String) : (Term.var x : Term R).eval ρ v = v x := by
  simp [eval]

@[simp] theorem eval_add (ts : List (Term R)) :
    (Term.add ts).eval ρ v = (ts.map (eval ρ v)).sum := by
  simp [eval, evalSum_eq]

@[simp] theorem eval_mul (ts : List (Term R)) :
    (Term.mul ts).eval ρ v = (ts.map (eval ρ v)).prod := by
  simp [eval, evalProduct_eq]

@[simp] theorem eval_neg (t : Term R) : (Term.neg t).eval ρ v = -t.eval ρ v := by
  simp [eval]

@[simp] theorem eval_div (t u : Term R) :
    (Term.div t u).eval ρ v = t.eval ρ v / u.eval ρ v := by
  simp [eval]

@[simp] theorem eval_pow (t u : Term R) :
    (Term.pow t u).eval ρ v = ρ.pow (t.eval ρ v) (u.eval ρ v) := by
  simp [eval]

theorem sum_summands (t : Term R) : (t.summands.map (eval ρ v)).sum = t.eval ρ v := by
  cases t <;> simp [summands]

theorem prod_factors (t : Term R) : (t.factors.map (eval ρ v)).prod = t.eval ρ v := by
  cases t <;> simp [factors]

/-- Splicing the summands of operands keeps the value of a sum. -/
theorem eval_sum (ts : List (Term R)) :
    (sum ts).eval ρ v = (ts.map (eval ρ v)).sum := by
  have hflat : ((ts.flatMap summands).map (eval ρ v)).sum = (ts.map (eval ρ v)).sum := by
    induction ts with
    | nil => simp
    | cons t ts ih => simp [sum_summands, ih]
  rw [← hflat]
  unfold sum
  split
  · next h => simp [h, ρ.lit_zero]
  · next t h => simp [h]
  · next h => simp

/-- Splicing the factors of operands keeps the value of a product. -/
theorem eval_product (ts : List (Term R)) :
    (product ts).eval ρ v = (ts.map (eval ρ v)).prod := by
  have hflat : ((ts.flatMap factors).map (eval ρ v)).prod = (ts.map (eval ρ v)).prod := by
    induction ts with
    | nil => simp
    | cons t ts ih => simp [prod_factors, ih]
  rw [← hflat]
  unfold product
  split
  · next h => simp [h, ρ.lit_one]
  · next t h => simp [h]
  · next h => simp

@[simp] theorem eval_plus (t u : Term R) :
    (t.plus u).eval ρ v = t.eval ρ v + u.eval ρ v := by
  simp [plus, eval_sum]

@[simp] theorem eval_times (t u : Term R) :
    (t.times u).eval ρ v = t.eval ρ v * u.eval ρ v := by
  simp [times, eval_product]

/-- A substitution has the value of the term where the variable has the value of the
replacement. -/
theorem eval_subst (t : Term R) (x : String) (r : Term R) :
    (t.subst x r).eval ρ v = t.eval ρ (Function.update v x (r.eval ρ v)) := by
  induction t with
  | num a => simp [subst]
  | var y =>
      by_cases hy : y = x
      · subst hy
        simp [subst]
      · have hb : (y == x) = false := by simpa using hy
        simp [subst, hb, Function.update_of_ne hy]
  | add ts ih =>
      rw [subst, eval_sum, substList_eq_map, eval_add, List.map_map]
      exact congrArg List.sum (List.map_congr_left ih)
  | mul ts ih =>
      rw [subst, eval_product, substList_eq_map, eval_mul, List.map_map]
      exact congrArg List.prod (List.map_congr_left ih)
  | neg t ih => simp [subst, ih]
  | div a b iha ihb => simp [subst, iha, ihb]
  | pow a b iha ihb => simp [subst, iha, ihb]

/-- Only the values of the variables that occur matter. -/
theorem eval_congr {v w : Valuation K} (t : Term R)
    (h : ∀ x, t.mentions x = true → v x = w x) : t.eval ρ v = t.eval ρ w := by
  induction t with
  | num a => simp
  | var y => simpa using h y (by simp)
  | add ts ih =>
      have hmap : ts.map (eval ρ v) = ts.map (eval ρ w) :=
        List.map_congr_left fun t ht =>
          ih t ht fun x hx => h x (by simpa using ⟨t, ht, hx⟩)
      simp [hmap]
  | mul ts ih =>
      have hmap : ts.map (eval ρ v) = ts.map (eval ρ w) :=
        List.map_congr_left fun t ht =>
          ih t ht fun x hx => h x (by simpa using ⟨t, ht, hx⟩)
      simp [hmap]
  | neg t ih => simp [ih fun x hx => h x (by simpa using hx)]
  | div a b iha ihb =>
      simp [iha fun x hx => h x (by simp [hx]), ihb fun x hx => h x (by simp [hx])]
  | pow a b iha ihb =>
      simp [iha fun x hx => h x (by simp [hx]), ihb fun x hx => h x (by simp [hx])]

theorem eval_update_of_not_mentions {t : Term R} {x : String}
    (h : t.mentions x = false) (a : K) :
    t.eval ρ (Function.update v x a) = t.eval ρ v := by
  refine eval_congr ρ t fun y hy => Function.update_of_ne ?_ a v
  rintro rfl
  simp [h] at hy

/-- Equal terms have the same value. -/
theorem eval_eq_of_beq (t : Term R) : ∀ u, beq t u = true → t.eval ρ v = u.eval ρ v := by
  induction t with
  | num a =>
      intro u h
      cases u <;> simp only [beq, Bool.false_eq_true] at h
      simpa using ρ.lit_eq_of_beq h
  | var y =>
      intro u h
      cases u <;> simp_all [beq]
  | add ts ih =>
      intro u h
      cases u <;> simp only [beq, Bool.false_eq_true] at h
      simp [map_eq_of_beqList ih h]
  | mul ts ih =>
      intro u h
      cases u <;> simp only [beq, Bool.false_eq_true] at h
      simp [map_eq_of_beqList ih h]
  | neg t ih =>
      intro u h
      cases u <;> simp only [beq, Bool.false_eq_true] at h
      simp [ih _ h]
  | div a b iha ihb =>
      intro u h
      cases u <;> simp only [beq, Bool.false_eq_true, Bool.and_eq_true] at h
      simp [iha _ h.1, ihb _ h.2]
  | pow a b iha ihb =>
      intro u h
      cases u <;> simp only [beq, Bool.false_eq_true, Bool.and_eq_true] at h
      simp [iha _ h.1, ihb _ h.2]

end Term

variable [LinearOrder K]

/-- The two sides of a relation compare as it says. -/
def Relation.Holds (ρ : Reading R K) (v : Valuation K) (r : Relation R) : Prop :=
  r.op.Compares (r.lhs.eval ρ v) (r.rhs.eval ρ v)

instance (ρ : Reading R K) (v : Valuation K) (r : Relation R) : Decidable (r.Holds ρ v) :=
  inferInstanceAs (Decidable (r.op.Compares (r.lhs.eval ρ v) (r.rhs.eval ρ v)))

namespace Formula

mutual

/-- Truth of a formula. -/
def Holds (ρ : Reading R K) (v : Valuation K) : Formula R → Prop
  | .top => True
  | .bottom => False
  | .rel r => r.Holds ρ v
  | .all ps => AllHold ρ v ps
  | .any ps => SomeHolds ρ v ps
  | .not p => ¬Holds ρ v p
  | .implies p q => Holds ρ v p → Holds ρ v q

/-- Every formula of a list holds. -/
def AllHold (ρ : Reading R K) (v : Valuation K) : List (Formula R) → Prop
  | [] => True
  | p :: ps => Holds ρ v p ∧ AllHold ρ v ps

/-- A formula of a list holds. -/
def SomeHolds (ρ : Reading R K) (v : Valuation K) : List (Formula R) → Prop
  | [] => False
  | p :: ps => Holds ρ v p ∨ SomeHolds ρ v ps

end

mutual

/-- Truth of a formula is decided. -/
def decideHolds (ρ : Reading R K) (v : Valuation K) :
    (p : Formula R) → Decidable (p.Holds ρ v)
  | .top => isTrue (by simp [Holds])
  | .bottom => isFalse (by simp [Holds])
  | .rel r => decidable_of_iff (r.Holds ρ v) (by simp [Holds])
  | .all ps =>
      letI := decideAllHold ρ v ps
      decidable_of_iff (AllHold ρ v ps) (by simp [Holds])
  | .any ps =>
      letI := decideSomeHolds ρ v ps
      decidable_of_iff (SomeHolds ρ v ps) (by simp [Holds])
  | .not p =>
      letI := decideHolds ρ v p
      decidable_of_iff (¬p.Holds ρ v) (by simp [Holds])
  | .implies p q =>
      letI := decideHolds ρ v p
      letI := decideHolds ρ v q
      decidable_of_iff (p.Holds ρ v → q.Holds ρ v) (by simp [Holds])

/-- Truth of all formulas of a list is decided. -/
def decideAllHold (ρ : Reading R K) (v : Valuation K) :
    (ps : List (Formula R)) → Decidable (AllHold ρ v ps)
  | [] => isTrue (by simp [AllHold])
  | p :: ps =>
      letI := decideHolds ρ v p
      letI := decideAllHold ρ v ps
      decidable_of_iff (p.Holds ρ v ∧ AllHold ρ v ps) (by simp [AllHold])

/-- Truth of some formula of a list is decided. -/
def decideSomeHolds (ρ : Reading R K) (v : Valuation K) :
    (ps : List (Formula R)) → Decidable (SomeHolds ρ v ps)
  | [] => isFalse (by simp [SomeHolds])
  | p :: ps =>
      letI := decideHolds ρ v p
      letI := decideSomeHolds ρ v ps
      decidable_of_iff (p.Holds ρ v ∨ SomeHolds ρ v ps) (by simp [SomeHolds])

end

instance (ρ : Reading R K) (v : Valuation K) (p : Formula R) : Decidable (p.Holds ρ v) :=
  decideHolds ρ v p

variable (ρ : Reading R K) (v : Valuation K)

theorem allHold_iff (ps : List (Formula R)) : AllHold ρ v ps ↔ ∀ p ∈ ps, p.Holds ρ v := by
  induction ps with
  | nil => simp [AllHold]
  | cons p ps ih => simp [AllHold, ih]

theorem someHolds_iff (ps : List (Formula R)) : SomeHolds ρ v ps ↔
      ∃ p ∈ ps, p.Holds ρ v := by
  induction ps with
  | nil => simp [SomeHolds]
  | cons p ps ih => simp [SomeHolds, ih]

@[simp] theorem holds_top : (Formula.top : Formula R).Holds ρ v := by
  simp [Holds]

@[simp] theorem not_holds_bottom : ¬(Formula.bottom : Formula R).Holds ρ v := by
  simp [Holds]

@[simp] theorem holds_rel (r : Relation R) : (Formula.rel r).Holds ρ v ↔ r.Holds ρ v := by
  simp [Holds]

@[simp] theorem holds_all (ps : List (Formula R)) :
    (Formula.all ps).Holds ρ v ↔ ∀ p ∈ ps, p.Holds ρ v := by
  simp [Holds, allHold_iff]

@[simp] theorem holds_any (ps : List (Formula R)) :
    (Formula.any ps).Holds ρ v ↔ ∃ p ∈ ps, p.Holds ρ v := by
  simp [Holds, someHolds_iff]

@[simp] theorem holds_not (p : Formula R) : (Formula.not p).Holds ρ v ↔ ¬p.Holds ρ v := by
  simp [Holds]

@[simp] theorem holds_implies (p q : Formula R) :
    (Formula.implies p q).Holds ρ v ↔ (p.Holds ρ v → q.Holds ρ v) := by
  simp [Holds]

/-- A substitution holds where the formula holds with the variable set to the value of the
replacement. -/
theorem holds_subst (p : Formula R) (x : String) (t : Term R) :
    (p.subst x t).Holds ρ v ↔ p.Holds ρ (Function.update v x (t.eval ρ v)) := by
  induction p with
  | top => simp [subst]
  | bottom => simp [subst]
  | rel r => simp [subst, Relation.subst, Relation.Holds, Term.eval_subst]
  | all ps ih =>
      simp only [subst, substList_eq_map, holds_all, List.forall_mem_map]
      exact forall₂_congr ih
  | any ps ih =>
      simp only [subst, substList_eq_map, holds_any, List.mem_map,
        exists_exists_and_eq_and]
      exact exists_congr fun p => and_congr_right fun hp => ih p hp
  | not p ih => simp [subst, ih]
  | implies p q ihp ihq => simp [subst, ihp, ihq]

/-- Only the values of the variables that occur matter. -/
theorem holds_congr {v w : Valuation K} (p : Formula R)
    (h : ∀ x, p.mentions x = true → v x = w x) : p.Holds ρ v ↔ p.Holds ρ w := by
  induction p with
  | top => simp
  | bottom => simp
  | rel r =>
      have hl : r.lhs.eval ρ v = r.lhs.eval ρ w :=
        Term.eval_congr ρ r.lhs fun x hx => h x (by simp [Relation.mentions, hx])
      have hr : r.rhs.eval ρ v = r.rhs.eval ρ w :=
        Term.eval_congr ρ r.rhs fun x hx => h x (by simp [Relation.mentions, hx])
      simp [Relation.Holds, hl, hr]
  | all ps ih =>
      simp only [holds_all]
      exact forall₂_congr fun p hp =>
        ih p hp fun x hx => h x (by simpa using ⟨p, hp, hx⟩)
  | any ps ih =>
      simp only [holds_any]
      exact exists_congr fun p => and_congr_right fun hp =>
        ih p hp fun x hx => h x (by simpa using ⟨p, hp, hx⟩)
  | not p ih => simp [ih fun x hx => h x (by simpa using hx)]
  | implies p q ihp ihq =>
      simp [ihp fun x hx => h x (by simp [hx]), ihq fun x hx => h x (by simp [hx])]

theorem holds_update_of_not_mentions {p : Formula R} {x : String}
    (h : p.mentions x = false) (a : K) : p.Holds ρ (Function.update v x a) ↔
      p.Holds ρ v := by
  refine holds_congr ρ p fun y hy => Function.update_of_ne ?_ a v
  rintro rfl
  simp [h] at hy

/-- A formula holds if it is true over the relations that hold. -/
theorem holds_iff_trueUnder (p : Formula R) :
    p.Holds ρ v ↔ p.TrueUnder (Relation.Holds ρ v) := by
  induction p with
  | top => simp
  | bottom => simp
  | rel r => simp
  | all ps ih => simpa using forall₂_congr ih
  | any ps ih => simpa using exists_congr fun p => and_congr_right fun hp => ih p hp
  | not p ih => simp [ih]
  | implies p q ihp ihq => simp [ihp, ihq]

/-- Equal relations hold alike. -/
theorem respects_holds : Respects (Relation.Holds (R := R) ρ v) := by
  intro r s h
  simp only [Relation.beq_iff, Bool.and_eq_true] at h
  have hop : r.op = s.op := by simpa using h.2.1
  simp [Relation.Holds, Term.eval_eq_of_beq ρ v r.lhs s.lhs h.1, hop,
    Term.eval_eq_of_beq ρ v r.rhs s.rhs h.2.2]

/-- Equal formulas hold alike. -/
theorem holds_iff_of_beq (p q : Formula R) (h : beq p q = true) :
    p.Holds ρ v ↔ q.Holds ρ v := by
  rw [holds_iff_trueUnder, holds_iff_trueUnder]
  exact trueUnder_iff_of_beq (respects_holds ρ v) p q h

/-- A conjunction holds if all its parts hold. -/
@[simp] theorem holds_conj (ps : List (Formula R)) :
    (conj ps).Holds ρ v ↔ ∀ p ∈ ps, p.Holds ρ v := by
  simp only [holds_iff_trueUnder]
  exact trueUnder_conj (respects_holds ρ v) ps

/-- A disjunction holds if one of its parts holds. -/
@[simp] theorem holds_disj (ps : List (Formula R)) :
    (disj ps).Holds ρ v ↔ ∃ p ∈ ps, p.Holds ρ v := by
  simp only [holds_iff_trueUnder]
  exact trueUnder_disj (respects_holds ρ v) ps

end Formula
end SignalFlow
