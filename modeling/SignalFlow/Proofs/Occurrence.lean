import Mathlib.Data.List.Basic
import SignalFlow.Hybrid.Program

/-!
# Occurrences of variables

Which variables occur in what the constructors and substitutions of terms and formulas
build.

Terms, formulas and programs contain lists of their own kind.  The induction principles of
this module give the hypothesis for every member of such a list; the functions that walk
over the lists are turned into `map` and `any` first.

**Results.**
* `Term.mentions_subst`, `Formula.mentions_subst`: the variables of a substitution.
* `Formula.mentions_conj`, `Formula.exists_of_mentions_disj`: no variable is added, and
  none of a conjunction is lost unless a part decides the whole.
* `Term.mentions_eq_of_beq`, `Formula.mentions_eq_of_beq`: equal terms and formulas have
  the same variables.
-/

namespace SignalFlow

variable {R : Type}

/-! ### Induction -/

/-- Induction on terms, with the hypothesis for every operand of a sum or product. -/
@[elab_as_elim, induction_eliminator]
theorem Term.inductionOn {motive : Term R → Prop}
    (num : ∀ a, motive (.num a))
    (var : ∀ x, motive (.var x))
    (add : ∀ ts, (∀ t ∈ ts, motive t) → motive (.add ts))
    (mul : ∀ ts, (∀ t ∈ ts, motive t) → motive (.mul ts))
    (neg : ∀ t, motive t → motive (.neg t))
    (div : ∀ a b, motive a → motive b → motive (.div a b))
    (pow : ∀ a b, motive a → motive b → motive (.pow a b)) :
    ∀ t : Term R, motive t
  | .num a => num a
  | .var x => var x
  | .add ts => add ts fun t _ => inductionOn num var add mul neg div pow t
  | .mul ts => mul ts fun t _ => inductionOn num var add mul neg div pow t
  | .neg t => neg t (inductionOn num var add mul neg div pow t)
  | .div a b =>
      div a b (inductionOn num var add mul neg div pow a)
        (inductionOn num var add mul neg div pow b)
  | .pow a b =>
      pow a b (inductionOn num var add mul neg div pow a)
        (inductionOn num var add mul neg div pow b)

/-- Induction on formulas, with the hypothesis for every part of a conjunction or
disjunction. -/
@[elab_as_elim, induction_eliminator]
theorem Formula.inductionOn {motive : Formula R → Prop}
    (top : motive .top)
    (bottom : motive .bottom)
    (rel : ∀ r, motive (.rel r))
    (all : ∀ ps, (∀ p ∈ ps, motive p) → motive (.all ps))
    (any : ∀ ps, (∀ p ∈ ps, motive p) → motive (.any ps))
    (not : ∀ p, motive p → motive (.not p))
    (implies : ∀ p q, motive p → motive q → motive (.implies p q)) :
    ∀ p : Formula R, motive p
  | .top => top
  | .bottom => bottom
  | .rel r => rel r
  | .all ps => all ps fun p _ => inductionOn top bottom rel all any not implies p
  | .any ps => any ps fun p _ => inductionOn top bottom rel all any not implies p
  | .not p => not p (inductionOn top bottom rel all any not implies p)
  | .implies p q =>
      implies p q (inductionOn top bottom rel all any not implies p)
        (inductionOn top bottom rel all any not implies q)

/-- Induction on programs, with the hypothesis for every part of a sequence or choice. -/
@[elab_as_elim, induction_eliminator]
theorem Program.inductionOn {motive : Program R → Prop}
    (skip : motive .skip)
    (assign : ∀ x t, motive (.assign x t))
    (havoc : ∀ x, motive (.havoc x))
    (test : ∀ p, motive (.test p))
    (seq : ∀ ps, (∀ p ∈ ps, motive p) → motive (.seq ps))
    (choice : ∀ ps, (∀ p ∈ ps, motive p) → motive (.choice ps))
    (loop : ∀ p, motive p → motive (.loop p)) :
    ∀ p : Program R, motive p
  | .skip => skip
  | .assign x t => assign x t
  | .havoc x => havoc x
  | .test p => test p
  | .seq ps => seq ps fun p _ => inductionOn skip assign havoc test seq choice loop p
  | .choice ps => choice ps fun p _ => inductionOn skip assign havoc test seq choice loop p
  | .loop p => loop p (inductionOn skip assign havoc test seq choice loop p)

/-- The variables of a substitution in the members of a list, from those in each: `after`
says that a variable occurs after the substitution, `before` that it does before, and
`here` that the replaced one does. -/
theorem exists_mem_subst {α : Type*} {as : List α} {after before here : α → Prop}
    {other new : Prop} (ih : ∀ a ∈ as, after a ↔ (other ∧ before a) ∨ (here a ∧ new)) :
    (∃ a ∈ as, after a) ↔ (other ∧ ∃ a ∈ as, before a) ∨ ((∃ a ∈ as, here a) ∧ new) := by
  constructor
  · rintro ⟨a, ha, h⟩
    rcases (ih a ha).mp h with ⟨ho, hb⟩ | ⟨hh, hn⟩
    · exact Or.inl ⟨ho, a, ha, hb⟩
    · exact Or.inr ⟨⟨a, ha, hh⟩, hn⟩
  · rintro (⟨ho, a, ha, hb⟩ | ⟨⟨a, ha, hh⟩, hn⟩)
    · exact ⟨a, ha, (ih a ha).mpr (Or.inl ⟨ho, hb⟩)⟩
    · exact ⟨a, ha, (ih a ha).mpr (Or.inr ⟨hh, hn⟩)⟩

theorem any_eq_of_map_eq {α : Type*} {f : α → Bool} {as bs : List α}
    (h : as.map f = bs.map f) : as.any f = bs.any f := by
  have ha : as.any f = (as.map f).any id := by simp [List.any_map]
  have hb : bs.any f = (bs.map f).any id := by simp [List.any_map]
  rw [ha, hb, h]

namespace Term

/-! ### Terms -/

@[simp] theorem mentions_num (x : String) (a : R) : (Term.num a).mentions x = false := by
  simp [mentions]

@[simp] theorem mentions_var (x y : String) :
    (Term.var y : Term R).mentions x = (y == x) := by
  simp [mentions]

@[simp] theorem mentions_add (x : String) (ts : List (Term R)) :
    (Term.add ts).mentions x = ts.any (mentions x) := by
  simp [mentions, mentionsAny_eq_any]

@[simp] theorem mentions_mul (x : String) (ts : List (Term R)) :
    (Term.mul ts).mentions x = ts.any (mentions x) := by
  simp [mentions, mentionsAny_eq_any]

@[simp] theorem mentions_neg (x : String) (t : Term R) :
    (Term.neg t).mentions x = t.mentions x := by
  simp [mentions]

@[simp] theorem mentions_div (x : String) (t u : Term R) :
    (Term.div t u).mentions x = (t.mentions x || u.mentions x) := by
  simp [mentions]

@[simp] theorem mentions_pow (x : String) (t u : Term R) :
    (Term.pow t u).mentions x = (t.mentions x || u.mentions x) := by
  simp [mentions]

theorem any_summands (x : String) (t : Term R) :
    t.summands.any (mentions x) = t.mentions x := by
  cases t <;> simp [summands]

theorem any_factors (x : String) (t : Term R) :
    t.factors.any (mentions x) = t.mentions x := by
  cases t <;> simp [factors]

section Building

variable [Scalar R]

theorem mentions_sum (x : String) (ts : List (Term R)) :
    (sum ts).mentions x = ts.any (mentions x) := by
  have hflat : (ts.flatMap summands).any (mentions x) = ts.any (mentions x) := by
    simp [List.any_flatMap, any_summands]
  rw [← hflat]
  unfold sum
  split
  · next h => simp [h]
  · next t h => simp [h]
  · next h => simp

theorem mentions_product (x : String) (ts : List (Term R)) :
    (product ts).mentions x = ts.any (mentions x) := by
  have hflat : (ts.flatMap factors).any (mentions x) = ts.any (mentions x) := by
    simp [List.any_flatMap, any_factors]
  rw [← hflat]
  unfold product
  split
  · next h => simp [h]
  · next t h => simp [h]
  · next h => simp

/-- A variable of a substitution is another variable of the term, or comes from the
replacement. -/
theorem mentions_subst (t : Term R) (x y : String) (r : Term R) :
    (t.subst x r).mentions y = true ↔
      (y ≠ x ∧ t.mentions y = true) ∨ (t.mentions x = true ∧ r.mentions y = true) := by
  induction t with
  | num a =>
      simp [subst]
  | var z =>
      by_cases hz : z = x
      · subst hz
        simp only [subst, beq_self_eq_true, if_true, mentions_var, beq_iff_eq]
        constructor
        · exact fun h => Or.inr ⟨trivial, h⟩
        · rintro (⟨hne, he⟩ | ⟨_, h⟩)
          · exact absurd he.symm hne
          · exact h
      · have hb : (z == x) = false := by simpa using hz
        simp only [subst, hb, Bool.false_eq_true, if_false, mentions_var,
          beq_iff_eq, false_and, or_false]
        constructor
        · rintro rfl
          exact ⟨hz, rfl⟩
        · exact fun h => h.2
  | add ts ih =>
      simpa [subst, mentions_sum, substList_eq_map] using exists_mem_subst ih
  | mul ts ih =>
      simpa [subst, mentions_product, substList_eq_map] using exists_mem_subst ih
  | neg t ih =>
      simpa [subst] using ih
  | div a b iha ihb =>
      simp only [subst, mentions_div, Bool.or_eq_true, iha, ihb]
      rw [or_or_or_comm, ← and_or_left, ← or_and_right]
  | pow a b iha ihb =>
      simp only [subst, mentions_pow, Bool.or_eq_true, iha, ihb]
      rw [or_or_or_comm, ← and_or_left, ← or_and_right]

end Building

section Equality

variable [BEq R]

/-- Equal lists of operands agree in every function that equal operands agree in. -/
theorem map_eq_of_beqList {α : Type*} {f : Term R → α} {ts us : List (Term R)}
    (ih : ∀ t ∈ ts, ∀ u, beq t u = true → f t = f u) (h : beqList ts us = true) :
    ts.map f = us.map f := by
  induction ts generalizing us with
  | nil =>
      cases us with
      | nil => rfl
      | cons u us => simp [beqList] at h
  | cons t ts iht =>
      cases us with
      | nil => simp [beqList] at h
      | cons u us =>
          simp only [beqList, Bool.and_eq_true] at h
          have hhead : f t = f u := ih t (by simp) u h.1
          have htail : ts.map f = us.map f :=
            iht (fun t ht => ih t (List.mem_cons_of_mem _ ht)) h.2
          simp [hhead, htail]

/-- Equal terms have the same variables. -/
theorem mentions_eq_of_beq (x : String) (t : Term R) :
    ∀ u, beq t u = true → t.mentions x = u.mentions x := by
  induction t with
  | num a =>
      intro u h
      cases u <;> simp_all [beq]
  | var y =>
      intro u h
      cases u <;> simp_all [beq]
  | add ts ih =>
      intro u h
      cases u <;> simp only [beq, Bool.false_eq_true] at h
      simpa using any_eq_of_map_eq (map_eq_of_beqList ih h)
  | mul ts ih =>
      intro u h
      cases u <;> simp only [beq, Bool.false_eq_true] at h
      simpa using any_eq_of_map_eq (map_eq_of_beqList ih h)
  | neg t ih =>
      intro u h
      cases u <;> simp only [beq, Bool.false_eq_true] at h
      simpa using ih _ h
  | div a b iha ihb =>
      intro u h
      cases u <;> simp only [beq, Bool.false_eq_true, Bool.and_eq_true] at h
      simp [iha _ h.1, ihb _ h.2]
  | pow a b iha ihb =>
      intro u h
      cases u <;> simp only [beq, Bool.false_eq_true, Bool.and_eq_true] at h
      simp [iha _ h.1, ihb _ h.2]

end Equality

end Term

namespace Relation

theorem mentions_subst [Scalar R] (r : Relation R) (x y : String) (t : Term R) :
    (r.subst x t).mentions y = true ↔
      (y ≠ x ∧ r.mentions y = true) ∨ (r.mentions x = true ∧ t.mentions y = true) := by
  simp only [subst, mentions, Bool.or_eq_true, Term.mentions_subst]
  rw [or_or_or_comm, ← and_or_left, ← or_and_right]

theorem beq_iff [BEq R] (r s : Relation R) :
    (r == s) = (Term.beq r.lhs s.lhs && (r.op == s.op && Term.beq r.rhs s.rhs)) := by
  rfl

theorem mentions_eq_of_beq [BEq R] (x : String) {r s : Relation R} (h : (r == s) = true) :
    r.mentions x = s.mentions x := by
  simp only [beq_iff, Bool.and_eq_true] at h
  simp [mentions, Term.mentions_eq_of_beq x r.lhs s.lhs h.1,
    Term.mentions_eq_of_beq x r.rhs s.rhs h.2.2]

end Relation

namespace Formula

/-! ### Formulas -/

theorem mentionsAny_eq_any (x : String) (ps : List (Formula R)) :
    mentionsAny x ps = ps.any (mentions x) := by
  induction ps with
  | nil => simp [mentionsAny]
  | cons p ps ih => simp [mentionsAny, ih]

@[simp] theorem mentions_top (x : String) :
    (Formula.top : Formula R).mentions x = false := by
  simp [mentions]

@[simp] theorem mentions_bottom (x : String) :
    (Formula.bottom : Formula R).mentions x = false := by
  simp [mentions]

@[simp] theorem mentions_rel (x : String) (r : Relation R) :
    (Formula.rel r).mentions x = r.mentions x := by
  simp [mentions]

@[simp] theorem mentions_all (x : String) (ps : List (Formula R)) :
    (Formula.all ps).mentions x = ps.any (mentions x) := by
  simp [mentions, mentionsAny_eq_any]

@[simp] theorem mentions_any (x : String) (ps : List (Formula R)) :
    (Formula.any ps).mentions x = ps.any (mentions x) := by
  simp [mentions, mentionsAny_eq_any]

@[simp] theorem mentions_not (x : String) (p : Formula R) :
    (Formula.not p).mentions x = p.mentions x := by
  simp [mentions]

@[simp] theorem mentions_implies (x : String) (p q : Formula R) :
    (Formula.implies p q).mentions x = (p.mentions x || q.mentions x) := by
  simp [mentions]

theorem substList_eq_map [Scalar R] (ps : List (Formula R)) (x : String) (t : Term R) :
    substList ps x t = ps.map (subst · x t) := by
  induction ps with
  | nil => simp [substList]
  | cons p ps ih => simp [substList, ih]

/-- A variable of a substitution is another variable of the formula, or comes from the
replacement. -/
theorem mentions_subst [Scalar R] (p : Formula R) (x y : String) (t : Term R) :
    (p.subst x t).mentions y = true ↔
      (y ≠ x ∧ p.mentions y = true) ∨ (p.mentions x = true ∧ t.mentions y = true) := by
  induction p with
  | top => simp [subst]
  | bottom => simp [subst]
  | rel r => simpa [subst] using Relation.mentions_subst r x y t
  | all ps ih => simpa [subst, substList_eq_map] using exists_mem_subst ih
  | any ps ih => simpa [subst, substList_eq_map] using exists_mem_subst ih
  | not p ih => simpa [subst] using ih
  | implies p q ihp ihq =>
      simp only [subst, mentions_implies, Bool.or_eq_true, ihp, ihq]
      rw [or_or_or_comm, ← and_or_left, ← or_and_right]

section Equality

variable [BEq R]

/-- Equal lists of parts agree in every function that equal parts agree in. -/
theorem map_eq_of_beqList {α : Type*} {f : Formula R → α} {ps qs : List (Formula R)}
    (ih : ∀ p ∈ ps, ∀ q, beq p q = true → f p = f q) (h : beqList ps qs = true) :
    ps.map f = qs.map f := by
  induction ps generalizing qs with
  | nil =>
      cases qs with
      | nil => rfl
      | cons q qs => simp [beqList] at h
  | cons p ps ihp =>
      cases qs with
      | nil => simp [beqList] at h
      | cons q qs =>
          simp only [beqList, Bool.and_eq_true] at h
          have hhead : f p = f q := ih p (by simp) q h.1
          have htail : ps.map f = qs.map f :=
            ihp (fun p hp => ih p (List.mem_cons_of_mem _ hp)) h.2
          simp [hhead, htail]

/-- Equal formulas have the same variables. -/
theorem mentions_eq_of_beq (x : String) (p : Formula R) :
    ∀ q, beq p q = true → p.mentions x = q.mentions x := by
  induction p with
  | top =>
      intro q h
      cases q <;> simp_all [beq]
  | bottom =>
      intro q h
      cases q <;> simp_all [beq]
  | rel r =>
      intro q h
      cases q <;> simp only [beq, Bool.false_eq_true] at h
      simpa using Relation.mentions_eq_of_beq x h
  | all ps ih =>
      intro q h
      cases q <;> simp only [beq, Bool.false_eq_true] at h
      simpa using any_eq_of_map_eq (map_eq_of_beqList ih h)
  | any ps ih =>
      intro q h
      cases q <;> simp only [beq, Bool.false_eq_true] at h
      simpa using any_eq_of_map_eq (map_eq_of_beqList ih h)
  | not p ih =>
      intro q h
      cases q <;> simp only [beq, Bool.false_eq_true] at h
      simpa using ih _ h
  | implies p q ihp ihq =>
      intro r h
      cases r <;> simp only [beq, Bool.false_eq_true, Bool.and_eq_true] at h
      simp [ihp _ h.1, ihq _ h.2]

theorem any_insertLast (x : String) (ps : List (Formula R)) (p : Formula R) :
    (insertLast ps p).any (mentions x) = (ps.any (mentions x) || p.mentions x) := by
  unfold insertLast
  split
  · next h =>
      obtain ⟨q, hq, hpq⟩ := List.contains_iff_exists_mem_beq.mp h
      have he : p.mentions x = q.mentions x := mentions_eq_of_beq x p q hpq
      have himp : p.mentions x = true → ps.any (mentions x) = true := by
        intro hp
        rw [he] at hp
        exact List.any_eq_true.mpr ⟨q, hq, hp⟩
      cases hp : p.mentions x with
      | false => simp
      | true => simp [himp hp]
  · simp

/-- The parts of a conjunction have the variables of what they are collected from. -/
theorem any_of_conjParts? (x : String) {acc ps qs : List (Formula R)}
    (h : conjParts? acc ps = some qs) :
    qs.any (mentions x) = (acc.any (mentions x) || ps.any (mentions x)) := by
  fun_induction conjParts? acc ps with
  | case1 acc =>
      cases h
      simp
  | case2 acc ps ih => simp [ih h]
  | case3 => simp at h
  | case4 acc rs ps ih => simp [ih h, Bool.or_assoc]
  | case5 acc p ps _ _ _ ih => simp [ih h, any_insertLast, Bool.or_assoc]

/-- The parts of a disjunction have the variables of what they are collected from. -/
theorem any_of_disjParts? (x : String) {acc ps qs : List (Formula R)}
    (h : disjParts? acc ps = some qs) :
    qs.any (mentions x) = (acc.any (mentions x) || ps.any (mentions x)) := by
  fun_induction disjParts? acc ps with
  | case1 acc =>
      cases h
      simp
  | case2 acc ps ih => simp [ih h]
  | case3 => simp at h
  | case4 acc rs ps ih => simp [ih h, Bool.or_assoc]
  | case5 acc p ps _ _ _ ih => simp [ih h, any_insertLast, Bool.or_assoc]

theorem bottom_mem_of_conjParts? {acc ps : List (Formula R)}
    (h : conjParts? acc ps = none) : Formula.bottom ∈ ps := by
  fun_induction conjParts? acc ps with
  | case1 => simp at h
  | case2 acc ps ih => simp [ih h]
  | case3 => simp
  | case4 acc rs ps ih => simp [ih h]
  | case5 acc p ps _ _ _ ih => simp [ih h]

theorem top_mem_of_disjParts? {acc ps : List (Formula R)} (h : disjParts? acc ps = none) :
    Formula.top ∈ ps := by
  fun_induction disjParts? acc ps with
  | case1 => simp at h
  | case2 acc ps ih => simp [ih h]
  | case3 => simp
  | case4 acc rs ps ih => simp [ih h]
  | case5 acc p ps _ _ _ ih => simp [ih h]

/-- A conjunction without a false part has the variables of its parts. -/
theorem mentions_conj (x : String) {ps : List (Formula R)} (h : Formula.bottom ∉ ps) :
    (conj ps).mentions x = ps.any (mentions x) := by
  unfold conj
  split
  · next hp => exact absurd (bottom_mem_of_conjParts? hp) h
  · next hp => simpa using (any_of_conjParts? x hp).symm
  · next p hp => simpa using any_of_conjParts? x hp
  · next qs _ _ hp => simpa using any_of_conjParts? x hp

/-- A conjunction adds no variable. -/
theorem exists_of_mentions_conj {x : String} {ps : List (Formula R)}
    (h : (conj ps).mentions x = true) : ∃ p ∈ ps, p.mentions x = true := by
  rw [← List.any_eq_true]
  unfold conj at h
  split at h
  · simp at h
  · simp at h
  · next p hp => simpa [h] using (any_of_conjParts? x hp).symm
  · next qs _ _ hp =>
      rw [mentions_all, any_of_conjParts? x hp] at h
      simpa using h

/-- A disjunction adds no variable. -/
theorem exists_of_mentions_disj {x : String} {ps : List (Formula R)}
    (h : (disj ps).mentions x = true) : ∃ p ∈ ps, p.mentions x = true := by
  rw [← List.any_eq_true]
  unfold disj at h
  split at h
  · simp at h
  · simp at h
  · next p hp => simpa [h] using (any_of_disjParts? x hp).symm
  · next qs _ _ hp =>
      rw [mentions_any, any_of_disjParts? x hp] at h
      simpa using h

end Equality

end Formula
end SignalFlow
