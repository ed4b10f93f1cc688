import SignalFlow.Proofs.Occurrence

/-!
# Truth of formulas, given the truth of relations

A formula is true or false once it is known which relations are.  Nothing is said here
about terms: what a relation means is a parameter.

Conjunctions and disjunctions leave out parts that are equal to earlier ones.  This is
sound if equal relations mean the same (`Respects`).

**Results.**
* `Formula.trueUnder_iff_of_beq`: equal formulas are true alike.
* `Formula.trueUnder_conj`, `Formula.trueUnder_disj`: splicing, and dropping neutral and
  repeated parts, keeps the truth.
-/

namespace SignalFlow

variable {R : Type}

/-- Equal relations are true alike. -/
def Respects [BEq R] (atom : Relation R → Prop) : Prop :=
  ∀ r s : Relation R, (r == s) = true → (atom r ↔ atom s)

namespace Formula

mutual

/-- Truth of a formula over relations that are true as `atom` says. -/
def TrueUnder (atom : Relation R → Prop) : Formula R → Prop
  | .top => True
  | .bottom => False
  | .rel r => atom r
  | .all ps => AllTrueUnder atom ps
  | .any ps => SomeTrueUnder atom ps
  | .not p => ¬TrueUnder atom p
  | .implies p q => TrueUnder atom p → TrueUnder atom q

/-- Every formula of a list is true. -/
def AllTrueUnder (atom : Relation R → Prop) : List (Formula R) → Prop
  | [] => True
  | p :: ps => TrueUnder atom p ∧ AllTrueUnder atom ps

/-- A formula of a list is true. -/
def SomeTrueUnder (atom : Relation R → Prop) : List (Formula R) → Prop
  | [] => False
  | p :: ps => TrueUnder atom p ∨ SomeTrueUnder atom ps

end

variable (atom : Relation R → Prop)

theorem allTrueUnder_iff (ps : List (Formula R)) :
    AllTrueUnder atom ps ↔ ∀ p ∈ ps, p.TrueUnder atom := by
  induction ps with
  | nil => simp [AllTrueUnder]
  | cons p ps ih => simp [AllTrueUnder, ih]

theorem someTrueUnder_iff (ps : List (Formula R)) :
    SomeTrueUnder atom ps ↔ ∃ p ∈ ps, p.TrueUnder atom := by
  induction ps with
  | nil => simp [SomeTrueUnder]
  | cons p ps ih => simp [SomeTrueUnder, ih]

@[simp] theorem trueUnder_top : (Formula.top : Formula R).TrueUnder atom := by
  simp [TrueUnder]

@[simp] theorem not_trueUnder_bottom : ¬(Formula.bottom : Formula R).TrueUnder atom := by
  simp [TrueUnder]

@[simp] theorem trueUnder_rel (r : Relation R) : (Formula.rel r).TrueUnder atom ↔
      atom r := by
  simp [TrueUnder]

@[simp] theorem trueUnder_all (ps : List (Formula R)) :
    (Formula.all ps).TrueUnder atom ↔ ∀ p ∈ ps, p.TrueUnder atom := by
  simp [TrueUnder, allTrueUnder_iff]

@[simp] theorem trueUnder_any (ps : List (Formula R)) :
    (Formula.any ps).TrueUnder atom ↔ ∃ p ∈ ps, p.TrueUnder atom := by
  simp [TrueUnder, someTrueUnder_iff]

@[simp] theorem trueUnder_not (p : Formula R) :
    (Formula.not p).TrueUnder atom ↔ ¬p.TrueUnder atom := by
  simp [TrueUnder]

@[simp] theorem trueUnder_implies (p q : Formula R) :
    (Formula.implies p q).TrueUnder atom ↔ (p.TrueUnder atom → q.TrueUnder atom) := by
  simp [TrueUnder]

variable [BEq R] {atom} (hatom : Respects atom)

include hatom

/-- Equal formulas are true alike. -/
theorem trueUnder_iff_of_beq (p : Formula R) :
    ∀ q, beq p q = true → (p.TrueUnder atom ↔ q.TrueUnder atom) := by
  induction p with
  | top =>
      intro q h
      cases q <;> simp_all [beq]
  | bottom =>
      intro q h
      cases q <;> simp_all [beq]
  | rel r =>
      intro q h
      cases q <;> simp only [beq, Bool.false_eq_true] at h
      next s => simpa using hatom r s h
  | all ps ih =>
      intro q h
      cases q <;> simp only [beq, Bool.false_eq_true] at h
      next qs =>
        have hmap : ps.map (TrueUnder atom) = qs.map (TrueUnder atom) :=
          map_eq_of_beqList (fun p hp q hpq => propext (ih p hp q hpq)) h
        rw [trueUnder_all, trueUnder_all, ← List.forall_mem_map (P := fun q => q), hmap,
          List.forall_mem_map]
  | any ps ih =>
      intro q h
      cases q <;> simp only [beq, Bool.false_eq_true] at h
      next qs =>
        have hmap : ps.map (TrueUnder atom) = qs.map (TrueUnder atom) :=
          map_eq_of_beqList (fun p hp q hpq => propext (ih p hp q hpq)) h
        have hany : (∃ x ∈ ps.map (TrueUnder atom), x) ↔
            ∃ x ∈ qs.map (TrueUnder atom), x := by
          rw [hmap]
        simpa only [List.mem_map, exists_exists_and_eq_and, trueUnder_any] using hany
  | not p ih =>
      intro q h
      cases q <;> simp only [beq, Bool.false_eq_true] at h
      simp [ih _ h]
  | implies p q ihp ihq =>
      intro r h
      cases r <;> simp only [beq, Bool.false_eq_true, Bool.and_eq_true] at h
      simp [ihp _ h.1, ihq _ h.2]

/-- A part that is left out as a repetition says nothing new. -/
theorem forall_mem_insertLast (ps : List (Formula R)) (p : Formula R) :
    (∀ q ∈ insertLast ps p, q.TrueUnder atom) ↔
      (∀ q ∈ ps, q.TrueUnder atom) ∧ p.TrueUnder atom := by
  unfold insertLast
  split
  · next h =>
      obtain ⟨q, hq, hpq⟩ := List.contains_iff_exists_mem_beq.mp h
      constructor
      · exact fun hps => ⟨hps, (trueUnder_iff_of_beq hatom p q hpq).mpr (hps q hq)⟩
      · exact fun hps => hps.1
  · simp only [List.forall_mem_append, List.forall_mem_singleton]

theorem exists_mem_insertLast (ps : List (Formula R)) (p : Formula R) :
    (∃ q ∈ insertLast ps p, q.TrueUnder atom) ↔
      (∃ q ∈ ps, q.TrueUnder atom) ∨ p.TrueUnder atom := by
  unfold insertLast
  split
  · next h =>
      obtain ⟨q, hq, hpq⟩ := List.contains_iff_exists_mem_beq.mp h
      constructor
      · exact fun hps => Or.inl hps
      · rintro (hps | hp)
        · exact hps
        · exact ⟨q, hq, (trueUnder_iff_of_beq hatom p q hpq).mp hp⟩
  · simp only [List.mem_append, List.mem_singleton, or_and_right, exists_or,
      exists_eq_left]

theorem forall_mem_conjParts? {acc ps qs : List (Formula R)}
    (h : conjParts? acc ps = some qs) :
    (∀ q ∈ qs, q.TrueUnder atom) ↔
      (∀ q ∈ acc, q.TrueUnder atom) ∧ ∀ p ∈ ps, p.TrueUnder atom := by
  fun_induction conjParts? acc ps with
  | case1 acc =>
      cases h
      simp
  | case2 acc ps ih => simp [ih h]
  | case3 => simp at h
  | case4 acc rs ps ih => simp [ih h, or_imp, forall_and, and_assoc]
  | case5 acc p ps _ _ _ ih =>
      rw [ih h, forall_mem_insertLast hatom, List.forall_mem_cons, and_assoc]

theorem exists_mem_disjParts? {acc ps qs : List (Formula R)}
    (h : disjParts? acc ps = some qs) :
    (∃ q ∈ qs, q.TrueUnder atom) ↔
      (∃ q ∈ acc, q.TrueUnder atom) ∨ ∃ p ∈ ps, p.TrueUnder atom := by
  fun_induction disjParts? acc ps with
  | case1 acc =>
      cases h
      simp
  | case2 acc ps ih => simp [ih h]
  | case3 => simp at h
  | case4 acc rs ps ih => simp [ih h, or_and_right, exists_or, or_assoc]
  | case5 acc p ps _ _ _ ih =>
      rw [ih h, exists_mem_insertLast hatom, List.exists_mem_cons_iff, or_assoc]

/-- A conjunction is true if all its parts are. -/
theorem trueUnder_conj (ps : List (Formula R)) :
    (conj ps).TrueUnder atom ↔ ∀ p ∈ ps, p.TrueUnder atom := by
  unfold conj
  split
  · next hp =>
      have hb := bottom_mem_of_conjParts? hp
      simp only [not_trueUnder_bottom, false_iff]
      exact fun hall => not_trueUnder_bottom atom (hall _ hb)
  · next hp => simpa using forall_mem_conjParts? hatom hp
  · next p hp => simpa using forall_mem_conjParts? hatom hp
  · next qs _ _ hp => simpa using forall_mem_conjParts? hatom hp

/-- A disjunction is true if one of its parts is. -/
theorem trueUnder_disj (ps : List (Formula R)) :
    (disj ps).TrueUnder atom ↔ ∃ p ∈ ps, p.TrueUnder atom := by
  unfold disj
  split
  · next hp =>
      have ht := top_mem_of_disjParts? hp
      simp only [trueUnder_top, true_iff]
      exact ⟨_, ht, trueUnder_top atom⟩
  · next hp => simpa using exists_mem_disjParts? hatom hp
  · next p hp => simpa using exists_mem_disjParts? hatom hp
  · next qs _ _ hp => simpa using exists_mem_disjParts? hatom hp

end Formula
end SignalFlow
