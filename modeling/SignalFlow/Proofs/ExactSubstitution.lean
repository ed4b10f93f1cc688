import SignalFlow.Proofs.DivisorCoverage
import SignalFlow.Proofs.ExactValue

/-!
# Substitution is exact

Replacing a variable by a term means what it says.  The result has the value that the term
has where the variable stands for the value of the replacement, it divides by zero only if
one of the two does, and exactly the variables occur in it that are left over or come with
the replacement.  That sums and products are spliced, unwrapped or replaced by a literal on
the way does not show.

Quotients are total in a field.  Where division by zero should leave a term without a
value, `Term.HasValue` says that it does not occur; `Formula.HasValues` says so for all
terms of a formula.

**Results.**
* `Term.hasValue_subst`, `Formula.hasValues_subst`: where a substitution divides by zero.
* `Formula.terms_subst`: formulas are replaced in term by term.
* `substitution_exact`: values, divisions by zero and variables of a substitution, and the
  exchange of two substitutions.
-/

namespace SignalFlow

variable {R : Type} {K : Type*} [Scalar R] [Field K]

namespace Term

omit [Scalar R] in
theorem flatMap_summands (t : Term R) :
    t.summands.flatMap denominators = t.denominators := by
  cases t <;> simp [summands, denominators, denominatorsOf_eq]

theorem denominators_sum (ts : List (Term R)) :
    (sum ts).denominators = ts.flatMap denominators := by
  have hflat : (ts.flatMap summands).flatMap denominators = ts.flatMap denominators := by
    rw [List.flatMap_assoc]
    exact List.flatMap_congr fun t _ => t.flatMap_summands
  rw [← hflat]
  unfold sum
  split
  · next h => simp [h, denominators]
  · next t h => simp [h]
  · rw [denominators, denominatorsOf_eq]

omit [Scalar R] in
/-- The variables of divisors are variables of the term. -/
theorem mentions_of_mem_denominators {x : String} {t u : Term R} (hu : u ∈ t.denominators)
    (hx : u.mentions x = true) : t.mentions x = true := by
  induction t with
  | num a => simp [denominators] at hu
  | var y => simp [denominators] at hu
  | add ts ih =>
      obtain ⟨t, ht, hu⟩ : ∃ t ∈ ts, u ∈ t.denominators := by
        simpa [denominators, denominatorsOf_eq] using hu
      simpa using ⟨t, ht, ih t ht hu⟩
  | mul ts ih =>
      obtain ⟨t, ht, hu⟩ : ∃ t ∈ ts, u ∈ t.denominators := by
        simpa [denominators, denominatorsOf_eq] using hu
      simpa using ⟨t, ht, ih t ht hu⟩
  | neg t ih => simpa using ih (by simpa [denominators] using hu)
  | div a b iha ihb =>
      simp only [denominators, List.mem_append, List.mem_cons] at hu
      rw [mentions_div, Bool.or_eq_true]
      rcases hu with hu | rfl | hu
      · exact Or.inl (iha hu)
      · exact Or.inr hx
      · exact Or.inr (ihb hu)
  | pow a b iha ihb =>
      simp only [denominators, List.mem_append] at hu
      rw [mentions_pow, Bool.or_eq_true]
      exact hu.imp iha ihb

/-- No divisor in the term is zero. -/
def HasValue (ρ : Reading R K) (v : Valuation K) (t : Term R) : Prop :=
  ∀ u ∈ t.denominators, u.eval ρ v ≠ 0

section HasValue

variable (ρ : Reading R K) (v : Valuation K)

@[simp] theorem hasValue_num (a : R) : (Term.num a).HasValue ρ v := by
  simp [HasValue, denominators]

@[simp] theorem hasValue_var (x : String) : (Term.var x : Term R).HasValue ρ v := by
  simp [HasValue, denominators]

@[simp] theorem hasValue_add (ts : List (Term R)) : (Term.add ts).HasValue ρ v ↔
      ∀ t ∈ ts, t.HasValue ρ v := by
  simp only [HasValue, denominators, denominatorsOf_eq, List.mem_flatMap]
  grind

@[simp] theorem hasValue_mul (ts : List (Term R)) : (Term.mul ts).HasValue ρ v ↔
      ∀ t ∈ ts, t.HasValue ρ v := by
  simp only [HasValue, denominators, denominatorsOf_eq, List.mem_flatMap]
  grind

@[simp] theorem hasValue_neg (t : Term R) : (Term.neg t).HasValue ρ v ↔
      t.HasValue ρ v := by
  simp [HasValue, denominators]

@[simp] theorem hasValue_div (t u : Term R) :
    (Term.div t u).HasValue ρ v ↔ t.HasValue ρ v ∧ u.eval ρ v ≠ 0 ∧ u.HasValue ρ v := by
  simp only [HasValue, denominators, List.forall_mem_append, List.forall_mem_cons]

@[simp] theorem hasValue_pow (t u : Term R) :
    (Term.pow t u).HasValue ρ v ↔ t.HasValue ρ v ∧ u.HasValue ρ v := by
  simp only [HasValue, denominators, List.forall_mem_append]

theorem hasValue_sum (ts : List (Term R)) : (sum ts).HasValue ρ v ↔
      ∀ t ∈ ts, t.HasValue ρ v := by
  rw [← hasValue_add, HasValue, HasValue, denominators_sum, denominators,
    denominatorsOf_eq]

theorem hasValue_product (ts : List (Term R)) : (product ts).HasValue ρ v ↔
      ∀ t ∈ ts, t.HasValue ρ v := by
  rw [← hasValue_mul, HasValue, HasValue, denominators_product, denominators,
    denominatorsOf_eq]

theorem hasValue_update_of_not_mentions {t : Term R} {x : String}
    (h : t.mentions x = false) (a : K) :
    t.HasValue ρ (Function.update v x a) ↔ t.HasValue ρ v := by
  refine forall₂_congr fun u hu => ?_
  have hfree : u.mentions x = false := by
    by_contra hx
    simp [mentions_of_mem_denominators hu (by simpa using hx)] at h
  rw [eval_update_of_not_mentions ρ v hfree]

end HasValue

end Term

/-- What holds of every part, and of one term if a part uses it, holds of the parts and of
the term. -/
theorem forall_mem_and_imp {α : Type*} {as : List α} {good better uses : α → Prop}
    {extra : Prop} (h : ∀ a ∈ as, (good a ↔ better a ∧ (uses a → extra))) :
    (∀ a ∈ as, good a) ↔ (∀ a ∈ as, better a) ∧ ((∃ a ∈ as, uses a) → extra) := by
  rw [forall₂_congr h]
  constructor
  · rintro hall
    exact ⟨fun a ha => (hall a ha).1, fun ⟨a, ha, huses⟩ => (hall a ha).2 huses⟩
  · rintro ⟨hbetter, hextra⟩ a ha
    exact ⟨hbetter a ha, fun huses => hextra ⟨a, ha, huses⟩⟩

/-- A substitution divides by zero if the term does, or if it uses a replacement that
does. -/
theorem Term.hasValue_subst (ρ : Reading R K) (v : Valuation K) (t : Term R) (x : String)
    (r : Term R) :
    (t.subst x r).HasValue ρ v ↔
      t.HasValue ρ (Function.update v x (r.eval ρ v)) ∧
        (t.mentions x = true → r.HasValue ρ v) := by
  induction t with
  | num a => simp [subst]
  | var y =>
      by_cases hy : y = x
      · simp [subst, hy]
      · simp [subst, hy]
  | add ts ih =>
      rw [subst, hasValue_sum, substList_eq_map, List.forall_mem_map,
        forall_mem_and_imp ih]
      simp
  | mul ts ih =>
      rw [subst, hasValue_product, substList_eq_map, List.forall_mem_map,
        forall_mem_and_imp ih]
      simp
  | neg t ih => simpa [subst] using ih
  | div a b iha ihb =>
      simp only [subst, hasValue_div, iha, ihb, eval_subst, mentions_div, Bool.or_eq_true]
      grind
  | pow a b iha ihb =>
      simp only [subst, hasValue_pow, iha, ihb, mentions_pow, Bool.or_eq_true]
      grind

namespace Formula

mutual

/-- The terms that a formula compares, from left to right. -/
def terms : Formula R → List (Term R)
  | .top => []
  | .bottom => []
  | .rel r => [r.lhs, r.rhs]
  | .all ps => termsOf ps
  | .any ps => termsOf ps
  | .not p => terms p
  | .implies p q => terms p ++ terms q

/-- The terms that several formulas compare. -/
def termsOf : List (Formula R) → List (Term R)
  | [] => []
  | p :: ps => terms p ++ termsOf ps

end

omit [Scalar R] in
theorem termsOf_eq (ps : List (Formula R)) : termsOf ps = ps.flatMap terms := by
  induction ps with
  | nil => rfl
  | cons p ps ih => rw [termsOf, ih, List.flatMap_cons]

/-- A formula is replaced in term by term. -/
theorem terms_subst (p : Formula R) (x : String) (r : Term R) :
    (p.subst x r).terms = p.terms.map fun t => t.subst x r := by
  induction p with
  | top => rfl
  | bottom => rfl
  | rel s => rfl
  | all ps ih =>
      rw [subst, terms, terms, substList_eq_map, termsOf_eq, termsOf_eq, List.flatMap_map,
        List.map_flatMap]
      exact List.flatMap_congr ih
  | any ps ih =>
      rw [subst, terms, terms, substList_eq_map, termsOf_eq, termsOf_eq, List.flatMap_map,
        List.map_flatMap]
      exact List.flatMap_congr ih
  | not p ih => rw [subst, terms, terms, ih]
  | implies p q ihp ihq => rw [subst, terms, terms, List.map_append, ihp, ihq]

omit [Scalar R] in
theorem mentions_iff_terms (x : String) (p : Formula R) :
    p.mentions x = true ↔ ∃ t ∈ p.terms, t.mentions x = true := by
  induction p with
  | top => simp [terms]
  | bottom => simp [terms]
  | rel s => simp [terms, Relation.mentions]
  | all ps ih =>
      simp only [mentions_all, List.any_eq_true, terms, termsOf_eq, List.mem_flatMap]
      grind
  | any ps ih =>
      simp only [mentions_any, List.any_eq_true, terms, termsOf_eq, List.mem_flatMap]
      grind
  | not p ih => simpa [terms] using ih
  | implies p q ihp ihq => simp [terms, ihp, ihq, or_and_right, exists_or]

/-- No divisor in a term of the formula is zero. -/
def HasValues (ρ : Reading R K) (v : Valuation K) (p : Formula R) : Prop :=
  ∀ t ∈ p.terms, t.HasValue ρ v

theorem hasValues_subst (ρ : Reading R K) (v : Valuation K) (p : Formula R) (x : String)
    (r : Term R) :
    (p.subst x r).HasValues ρ v ↔
      p.HasValues ρ (Function.update v x (r.eval ρ v)) ∧
        (p.mentions x = true → r.HasValue ρ v) := by
  rw [HasValues, terms_subst, List.forall_mem_map, mentions_iff_terms]
  exact forall_mem_and_imp fun t _ => t.hasValue_subst ρ v x r

end Formula

/-! ### Two substitutions -/

section Exchange

variable (ρ : Reading R K) (v : Valuation K) {x z : String} {s : Term R}

/-- Two substitutions bind the two variables to the same values in either order. -/
theorem update_exchange (hs : s.mentions x = false) (hxz : x ≠ z) (r : Term R) :
    Function.update (Function.update v z (s.eval ρ v)) x
      (r.eval ρ (Function.update v z (s.eval ρ v))) =
      Function.update (Function.update v x ((r.subst z s).eval ρ v)) z
        (s.eval ρ (Function.update v x ((r.subst z s).eval ρ v))) := by
  rw [Term.eval_update_of_not_mentions ρ v hs, Term.eval_subst, Function.update_comm hxz]

theorem Term.eval_subst_exchange (hs : s.mentions x = false) (hxz : x ≠ z) (t r : Term R) :
    ((t.subst x r).subst z s).eval ρ v =
      ((t.subst z s).subst x (r.subst z s)).eval ρ v := by
  rw [eval_subst, eval_subst, update_exchange ρ v hs hxz r, ← eval_subst, ← eval_subst]

theorem Formula.holds_subst_exchange [LinearOrder K] (hs : s.mentions x = false)
    (hxz : x ≠ z) (p : Formula R) (r : Term R) :
    ((p.subst x r).subst z s).Holds ρ v ↔
      ((p.subst z s).subst x (r.subst z s)).Holds ρ v := by
  rw [holds_subst, holds_subst, update_exchange ρ v hs hxz r, ← holds_subst, ← holds_subst]

theorem Term.hasValue_subst_exchange (hs : s.mentions x = false) (hxz : x ≠ z)
    (t r : Term R) :
    ((t.subst x r).subst z s).HasValue ρ v ↔
      ((t.subst z s).subst x (r.subst z s)).HasValue ρ v := by
  have hzx : z ≠ x := hxz.symm
  simp only [hasValue_subst, mentions_subst, update_exchange ρ v hs hxz r,
    hasValue_update_of_not_mentions ρ v hs]
  simp only [hs, hxz, hzx, ne_eq, not_false_eq_true, true_and, Bool.false_eq_true,
    and_false, or_false]
  grind

theorem Formula.hasValues_subst_exchange (hs : s.mentions x = false) (hxz : x ≠ z)
    (p : Formula R) (r : Term R) :
    ((p.subst x r).subst z s).HasValues ρ v ↔
      ((p.subst z s).subst x (r.subst z s)).HasValues ρ v := by
  simp only [HasValues, terms_subst, List.forall_mem_map]
  exact forall₂_congr fun t _ => Term.hasValue_subst_exchange ρ v hs hxz t r

end Exchange

/-- Terms and formulas with a variable replaced mean what they mean where the variable has
the value of the replacement, and mention what is left over or comes with it; and two
substitutions may be exchanged. -/
theorem substitution_exact (ρ : Reading R K) (v : Valuation K) (x z : String)
    (r s : Term R) :
    (∀ t : Term R,
      (t.subst x r).eval ρ v = t.eval ρ (Function.update v x (r.eval ρ v)) ∧
      ((t.subst x r).HasValue ρ v ↔
        t.HasValue ρ (Function.update v x (r.eval ρ v)) ∧
          (t.mentions x = true → r.HasValue ρ v)) ∧
      (∀ y, (t.subst x r).mentions y = true ↔
        (y ≠ x ∧ t.mentions y = true) ∨ (t.mentions x = true ∧ r.mentions y = true)) ∧
      (s.mentions x = false → x ≠ z →
        ((t.subst x r).subst z s).eval ρ v =
          ((t.subst z s).subst x (r.subst z s)).eval ρ v ∧
        (((t.subst x r).subst z s).HasValue ρ v ↔
          ((t.subst z s).subst x (r.subst z s)).HasValue ρ v))) ∧
    ∀ (p : Formula R) [LinearOrder K],
      ((p.subst x r).Holds ρ v ↔ p.Holds ρ (Function.update v x (r.eval ρ v))) ∧
      ((p.subst x r).HasValues ρ v ↔
        p.HasValues ρ (Function.update v x (r.eval ρ v)) ∧
          (p.mentions x = true → r.HasValue ρ v)) ∧
      (∀ y, (p.subst x r).mentions y = true ↔
        (y ≠ x ∧ p.mentions y = true) ∨ (p.mentions x = true ∧ r.mentions y = true)) ∧
      (s.mentions x = false → x ≠ z →
        (((p.subst x r).subst z s).Holds ρ v ↔
          ((p.subst z s).subst x (r.subst z s)).Holds ρ v) ∧
        (((p.subst x r).subst z s).HasValues ρ v ↔
          ((p.subst z s).subst x (r.subst z s)).HasValues ρ v)) := by
  constructor
  · intro t
    exact ⟨t.eval_subst ρ v x r, t.hasValue_subst ρ v x r, fun y =>
        t.mentions_subst x y r, fun hs hxz =>
      ⟨Term.eval_subst_exchange ρ v hs hxz t r,
        Term.hasValue_subst_exchange ρ v hs hxz t r⟩⟩
  · intro p _
    exact ⟨p.holds_subst ρ v x r, p.hasValues_subst ρ v x r, fun y =>
        p.mentions_subst x y r, fun hs hxz =>
      ⟨p.holds_subst_exchange ρ v hs hxz r, p.hasValues_subst_exchange ρ v hs hxz r⟩⟩

namespace Term

/-- A sum with a product in it. -/
def nestedSum : Term Float :=
  .add [.var "x", .mul [.var "z", .var "x"]]

/-- A sum that is spliced into the outer one in place of `x`. -/
def splicedSum : Term Float :=
  .add [.var "z", .num 1]

/-- A quotient that comes in place of `z`. -/
def reciprocal : Term Float :=
  .div (.num 1) (.var "w")

end Term

open Term in
/-- Two replacements after each other, in either order. -/
theorem substitution_exact_nested :
    (reciprocal.mentions "x" = false ∧ "x" ≠ "z") ∧
    ((nestedSum.subst "x" splicedSum).subst "z" reciprocal).eval
      (Binary64.exactReading fun _ _ => 0)
        (fun _ => (2 : ℚ)) =
      ((nestedSum.subst "z" reciprocal).subst "x" (splicedSum.subst "z" reciprocal)).eval
        (Binary64.exactReading fun _ _ => 0) (fun _ => (2 : ℚ)) ∧
    (nestedSum.subst "x" splicedSum).mentions "x" = false ∧
      (nestedSum.subst "x" splicedSum).mentions "z" = true := by
  have hfresh : reciprocal.mentions "x" = false := by decide
  have hne : "x" ≠ "z" := by decide
  obtain ⟨-, -, hmentions, hexchange⟩ :=
    (substitution_exact (Binary64.exactReading fun _ _ => 0) (fun _ => (2 : ℚ)) "x"
    "z" splicedSum reciprocal).1 nestedSum
  refine ⟨⟨hfresh, hne⟩, (hexchange hfresh hne).1, ?_,
    (hmentions "z").mpr (Or.inl ⟨hne.symm, by decide⟩)⟩
  refine Bool.eq_false_iff.mpr fun hx => ?_
  rcases (hmentions "x").mp hx with ⟨hself, _⟩ | ⟨_, hin⟩
  · exact hself rfl
  · exact absurd hin (by decide)

end SignalFlow
