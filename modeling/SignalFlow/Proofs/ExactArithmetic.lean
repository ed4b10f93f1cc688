import SignalFlow.Proofs.ClosureMeaning
import SignalFlow.Proofs.ExtendedMeaning

/-!
# Exact arithmetic

A reading of literals is *exact* if the arithmetic of scalars is that of the values they
stand for.  Scalars may be infinite, and what has no value is undefined: the difference of
two infinite values, the product of zero and an infinite one, and whatever an undefined
scalar goes into.

Under an exact reading, the value that is computed for a term without variables is its
value.  Finite literals stand for real numbers, so that terms and formulas can also be read
among the real numbers.

**Results.**
* `Exact.extended_of_value?`: the computed value of a term, if it is defined, is its value.
* `lit_lesser`, `lit_greater`: the lesser and the greater of defined scalars.
* `Exact.trueAt_iff_holds`: relations between finite values are read alike in both ways.
-/

namespace SignalFlow

variable {R : Type} [Scalar R]

/-- The arithmetic of scalars is that of the values they stand for. -/
structure ExtendedReading.Exact (ρ : ExtendedReading R) : Prop where
  defined_one : Scalar.Defined (1 : R)
  lit_one : ρ.lit 1 = 1
  defined_neg_iff : ∀ {a : R}, Scalar.Defined (-a) ↔ Scalar.Defined a
  lit_neg : ∀ {a : R}, Scalar.Defined a → ρ.lit (-a) = -ρ.lit a
  add : ∀ {a b : R}, Scalar.Defined (a + b) →
    Scalar.Defined a ∧ Scalar.Defined b ∧ ρ.lit (a + b) = ρ.lit a + ρ.lit b
  defined_add : ∀ {a b : R}, Scalar.Defined a → Scalar.Defined b →
    ¬(ρ.lit a = ⊤ ∧ ρ.lit b = ⊥) →
    ¬(ρ.lit a = ⊥ ∧ ρ.lit b = ⊤) → Scalar.Defined (a + b)
  mul : ∀ {a b : R}, Scalar.Defined (a * b) →
    Scalar.Defined a ∧ Scalar.Defined b ∧ ρ.lit (a * b) = ρ.lit a * ρ.lit b
  defined_mul : ∀ {a b : R}, Scalar.Defined a → Scalar.Defined b →
    (ρ.lit a = 0 → ρ.lit b ≠ ⊤ ∧ ρ.lit b ≠ ⊥) → (ρ.lit b = 0 → ρ.lit a ≠ ⊤ ∧ ρ.lit a ≠ ⊥) →
    Scalar.Defined (a * b)
  div : ∀ {a b : R}, Scalar.Defined (a / b) → (b == 0) = false →
    Scalar.Defined a ∧ Scalar.Defined b ∧ ρ.lit (a / b) = ρ.lit a / ρ.lit b
  pow : ∀ {a b : R}, Scalar.Defined (Scalar.pow a b) →
    Scalar.Defined a ∧ Scalar.Defined b ∧
    ρ.lit (Scalar.pow a b) = ρ.pow (ρ.lit a) (ρ.lit b)

namespace ExtendedReading

/-- Finite scalars are those that stand for a real number. -/
theorem isFinite_iff (ρ : ExtendedReading R) {a : R} :
    Scalar.isFinite a = true ↔ Scalar.Defined a ∧ ρ.lit a ≠ ⊤ ∧ ρ.lit a ≠ ⊥ := by
  have hdefined : Scalar.Defined a ↔ (a == a) = true := by
    simp [Scalar.Defined, Scalar.isUndefined]
  unfold Scalar.isFinite
  rw [Bool.and_eq_true, Bool.and_eq_true, ← hdefined, and_assoc]
  refine and_congr_right fun ha => ?_
  rw [Bool.not_eq_true', Bool.not_eq_true', Bool.eq_false_iff, Bool.eq_false_iff,
    ne_eq, ne_eq, ρ.beq_iff ha ρ.defined_infinity, ρ.beq_iff ha ρ.defined_neg_infinity,
    ρ.lit_infinity,
    ρ.lit_neg_infinity]

theorem defined_of_isFinite {a : R} (h : Scalar.isFinite a = true) : Scalar.Defined a := by
  simp only [Scalar.isFinite, Bool.and_eq_true] at h
  simp [Scalar.Defined, Scalar.isUndefined, h.1.1]

theorem coe_toReal_of_isFinite (ρ : ExtendedReading R) {a : R}
    (h : Scalar.isFinite a = true) : ((ρ.lit a).toReal : EReal) = ρ.lit a :=
  EReal.coe_toReal (ρ.isFinite_iff.mp h).2.1 (ρ.isFinite_iff.mp h).2.2

theorem isFinite_zero (ρ : ExtendedReading R) : Scalar.isFinite (0 : R) = true := by
  rw [ρ.isFinite_iff, ρ.lit_zero]
  exact ⟨ρ.defined_zero, EReal.zero_ne_top, EReal.zero_ne_bot⟩

/-- The lesser of two defined scalars stands for the lesser of their values. -/
theorem lit_lesser (ρ : ExtendedReading R) {a b : R} (ha : Scalar.Defined a)
    (hb : Scalar.Defined b) :
    Scalar.Defined (Scalar.lesser a b) ∧ ρ.lit (Scalar.lesser a b) = min (ρ.lit a)
      (ρ.lit b) := by
  have hundefined : Scalar.isUndefined a = false := ha
  unfold Scalar.lesser
  rw [hundefined, Bool.false_or]
  by_cases hle : b ≤ a
  · have hlit := (ρ.le_iff hb ha).mp hle
    simp [hle, hb, hlit]
  · have hlit := not_le.mp (mt (ρ.le_iff hb ha).mpr hle)
    simp [hle, ha, hlit.le]

/-- The greater of two defined scalars stands for the greater of their values. -/
theorem lit_greater (ρ : ExtendedReading R) {a b : R} (ha : Scalar.Defined a)
    (hb : Scalar.Defined b) :
    Scalar.Defined (Scalar.greater a b) ∧ ρ.lit (Scalar.greater a b) = max (ρ.lit a)
      (ρ.lit b) := by
  have hundefined : Scalar.isUndefined a = false := ha
  unfold Scalar.greater
  rw [hundefined, Bool.false_or]
  by_cases hle : a ≤ b
  · have hlit := (ρ.le_iff ha hb).mp hle
    simp [hle, hb, hlit]
  · have hlit := not_le.mp (mt (ρ.le_iff ha hb).mpr hle)
    simp [hle, ha, hlit.le]

namespace Exact

variable {ρ : ExtendedReading R} (hρ : ρ.Exact)

include hρ

/-- The value of a sum, added to the value of what stands before it. -/
theorem extendedSum_of_sumFrom? {v : Valuation ℝ} {ts : List (Term R)}
    (ih : ∀ t ∈ ts, ∀ a, t.value? = some a → Scalar.Defined a → t.extended ρ v = ρ.lit a)
    {acc a : R} (h : Term.sumFrom? acc ts = some a) (ha : Scalar.Defined a) :
    Scalar.Defined acc ∧ ρ.lit a = ρ.lit acc + (ts.map (Term.extended ρ v)).sum := by
  induction ts generalizing acc with
  | nil =>
      rw [Term.sumFrom?, Option.some.injEq] at h
      subst h
      simp [ha]
  | cons t ts ihts =>
      rw [List.forall_mem_cons] at ih
      rw [Term.sumFrom?] at h
      cases hvalue : t.value? with
      | none => simp [hvalue] at h
      | some b =>
          rw [hvalue] at h
          obtain ⟨hsum, hlit⟩ := ihts ih.2 h
          obtain ⟨hacc, hb, hadd⟩ := hρ.add hsum
          refine ⟨hacc, ?_⟩
          rw [hlit, hadd, List.map_cons, List.sum_cons, ih.1 b hvalue hb, add_assoc]

/-- The value of a product, multiplied by the value of what stands before it. -/
theorem extendedProduct_of_productFrom? {v : Valuation ℝ} {ts : List (Term R)}
    (ih : ∀ t ∈ ts, ∀ a, t.value? = some a → Scalar.Defined a → t.extended ρ v = ρ.lit a)
    {acc a : R} (h : Term.productFrom? acc ts = some a) (ha : Scalar.Defined a) :
    Scalar.Defined acc ∧ ρ.lit a = ρ.lit acc * (ts.map (Term.extended ρ v)).prod := by
  induction ts generalizing acc with
  | nil =>
      rw [Term.productFrom?, Option.some.injEq] at h
      subst h
      simp [ha]
  | cons t ts ihts =>
      rw [List.forall_mem_cons] at ih
      rw [Term.productFrom?] at h
      cases hvalue : t.value? with
      | none => simp [hvalue] at h
      | some b =>
          rw [hvalue] at h
          obtain ⟨hproduct, hlit⟩ := ihts ih.2 h
          obtain ⟨hacc, hb, hmul⟩ := hρ.mul hproduct
          refine ⟨hacc, ?_⟩
          rw [hlit, hmul, List.map_cons, List.prod_cons, ih.1 b hvalue hb, mul_assoc]

/-- The computed value of a term, if it is defined, is its value. -/
theorem extended_of_value? (v : Valuation ℝ) (t : Term R) :
    ∀ a, t.value? = some a → Scalar.Defined a → t.extended ρ v = ρ.lit a := by
  induction t with
  | num b =>
      intro a h _
      rw [Term.value?_num, Option.some.injEq] at h
      rw [Term.extended_num, h]
  | var x =>
      intro a h
      simp at h
  | add ts ih =>
      intro a h ha
      rw [Term.value?] at h
      obtain ⟨_, hlit⟩ := hρ.extendedSum_of_sumFrom? ih h ha
      rw [Term.extended, Term.extendedSum_eq, hlit, hρ.lit_neg ρ.defined_zero, ρ.lit_zero,
        neg_zero, zero_add]
  | mul ts ih =>
      intro a h ha
      rw [Term.value?] at h
      obtain ⟨_, hlit⟩ := hρ.extendedProduct_of_productFrom? ih h ha
      rw [Term.extended, Term.extendedProduct_eq, hlit, hρ.lit_one, one_mul]
  | neg t ih =>
      intro a h ha
      rw [Term.value?] at h
      obtain ⟨b, hb, rfl⟩ := Option.map_eq_some_iff.mp h
      have hdefined := hρ.defined_neg_iff.mp ha
      rw [Term.extended, ih b hb hdefined, hρ.lit_neg hdefined]
  | div t u iht ihu =>
      intro a h ha
      rw [Term.value?] at h
      cases hu : u.value? with
      | none => simp [hu] at h
      | some c =>
          rw [hu] at h
          by_cases hzero : (c == 0) = true
          · simp [hzero] at h
          · simp only [hzero, Bool.false_eq_true, if_false] at h
            obtain ⟨b, hb, rfl⟩ := Option.map_eq_some_iff.mp h
            obtain ⟨hbdefined, hcdefined, hdiv⟩ := hρ.div ha (by simpa using hzero)
            rw [Term.extended, iht b hb hbdefined, ihu c hu hcdefined, hdiv]
  | pow t u iht ihu =>
      intro a h ha
      rw [Term.value?] at h
      cases ht : t.value? with
      | none => simp [ht] at h
      | some b =>
          cases hu : u.value? with
          | none => simp [ht, hu] at h
          | some c =>
              rw [ht, hu] at h
              simp only [Option.some.injEq] at h
              subst h
              obtain ⟨hb, hc, hpow⟩ := hρ.pow ha
              rw [Term.extended, iht b ht hb, ihu c hu hc, hpow]

theorem isFinite_one : Scalar.isFinite (1 : R) = true := by
  rw [ρ.isFinite_iff, hρ.lit_one]
  exact ⟨hρ.defined_one, EReal.coe_ne_top 1, EReal.coe_ne_bot 1⟩

theorem isFinite_neg {a : R} (h : Scalar.isFinite a = true) :
    Scalar.isFinite (-a) = true := by
  obtain ⟨hdefined, htop, hbot⟩ := ρ.isFinite_iff.mp h
  rw [ρ.isFinite_iff, hρ.defined_neg_iff, hρ.lit_neg hdefined]
  exact ⟨hdefined, by simpa using hbot, by simpa using htop⟩

omit hρ in
/-- Literals read among the real numbers, as far as they are finite. -/
noncomputable def real (hρ : ρ.Exact) : Reading R ℝ where
  lit a := (ρ.lit a).toReal
  pow a b := (ρ.pow a b).toReal
  lit_zero := by simp [ρ.lit_zero]
  lit_one := by simp [hρ.lit_one]
  lit_eq_of_beq h := by rw [ρ.lit_eq_of_beq h]

omit hρ in
theorem coe_lit_real (hρ : ρ.Exact) {a : R} (h : Scalar.isFinite a = true) :
    ((hρ.real.lit a : ℝ) : EReal) = ρ.lit a :=
  ρ.coe_toReal_of_isFinite h

omit hρ in
theorem lit_real_neg (hρ : ρ.Exact) {a : R} (h : Scalar.Defined a) :
    hρ.real.lit (-a) = -hρ.real.lit a := by
  show (ρ.lit (-a)).toReal = -(ρ.lit a).toReal
  rw [hρ.lit_neg h, EReal.toReal_neg_eq]

omit hρ in
/-- Relations between finite values are read alike among the real and the extended real
numbers. -/
theorem trueAt_iff_holds (hρ : ρ.Exact) {v : Valuation ℝ} {r : Relation R}
    (hlhs : r.lhs.extended ρ v = r.lhs.eval hρ.real v)
    (hrhs : r.rhs.extended ρ v = r.rhs.eval hρ.real v) :
    r.TrueAt ρ v ↔ r.Holds hρ.real v := by
  unfold Relation.TrueAt Relation.Holds
  rw [hlhs, hrhs]
  cases r.op <;> simp [Comparison.Compares]

end Exact
end ExtendedReading
end SignalFlow
