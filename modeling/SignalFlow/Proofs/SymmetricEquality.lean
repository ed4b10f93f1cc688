import Mathlib.Data.List.Basic
import SignalFlow.Definition.Basic
import SignalFlow.Fact.Basic
import SignalFlow.Proofs.Occurrence

/-!
# Equality of what is written

Terms, formulas, facts and definitions are compared as they are written, down to their
literals.  Equality of literals need not be reflexive; where it is symmetric, so is
equality of all that is built from them.

**Results.**
* `Term.beq_comm`, `Formula.beq_comm`, `Fact.beq_comm`, `Definition.beq_comm`: equality as
  written is symmetric.
* `Term.beq_trans`: equality of terms is transitive where that of literals is.
* `Unrepeated.insertLast`: a list without equal entries stays so when an element is
  appended that is not there.
-/

namespace SignalFlow

section Lists

variable {α : Type} [BEq α]

theorem list_beq_comm {xs ys : List α} (h : ∀ x ∈ xs, ∀ y, (x == y) = (y == x)) :
    (xs == ys) = (ys == xs) := by
  induction xs generalizing ys with
  | nil => cases ys <;> rfl
  | cons x xs ih =>
      cases ys with
      | nil => rfl
      | cons y ys =>
          rw [List.forall_mem_cons] at h
          rw [List.cons_beq_cons, List.cons_beq_cons, h.1 y, ih h.2]

theorem list_beq_trans {xs ys zs : List α}
    (h : ∀ x ∈ xs, ∀ y z, (x == y) = true → (y == z) = true → (x == z) = true)
    (hxy : (xs == ys) = true) (hyz : (ys == zs) = true) : (xs == zs) = true := by
  induction xs generalizing ys zs with
  | nil =>
      cases ys with
      | nil => exact hyz
      | cons y ys => simp at hxy
  | cons x xs ih =>
      cases ys with
      | nil => simp at hxy
      | cons y ys =>
          cases zs with
          | nil => simp at hyz
          | cons z zs =>
              rw [List.forall_mem_cons] at h
              rw [List.cons_beq_cons, Bool.and_eq_true] at hxy hyz ⊢
              exact ⟨h.1 y z hxy.1 hyz.1, ih h.2 hxy.2 hyz.2⟩

theorem option_beq_comm (h : ∀ a b : α, (a == b) = (b == a)) (a b : Option α) :
    (a == b) = (b == a) := by
  cases a with
  | none => cases b <;> rfl
  | some a =>
      cases b with
      | none => rfl
      | some b => exact h a b

/-- No two entries are equal, whichever of them comes first. -/
def Unrepeated (xs : List α) : Prop :=
  xs.Pairwise fun a b => (a == b) = false ∧ (b == a) = false

theorem Unrepeated.insertLast (h : ∀ a b : α, (a == b) = (b == a)) {xs : List α}
    (hxs : Unrepeated xs) (x : α) : Unrepeated (insertLast xs x) := by
  unfold SignalFlow.insertLast
  split
  · exact hxs
  · next hnew =>
      refine List.pairwise_append.mpr ⟨hxs, List.pairwise_singleton _ _,
        fun a ha b hb => ?_⟩
      rw [List.mem_singleton.mp hb]
      have hne : (x == a) = false := by
        by_contra heq
        exact hnew (List.contains_iff_exists_mem_beq.mpr ⟨a, ha, by simpa using heq⟩)
      exact ⟨(h a x).trans hne, hne⟩

end Lists

variable {R : Type} [BEq R] [PartialEquivBEq R]

namespace Term

omit [PartialEquivBEq R] in
theorem beqList_eq (ts us : List (Term R)) : beqList ts us = (ts == us) := by
  induction ts generalizing us with
  | nil => cases us <;> rfl
  | cons t ts ih =>
      cases us with
      | nil => rfl
      | cons u us =>
          rw [List.cons_beq_cons, ← ih us]
          rfl

theorem beq_comm (t u : Term R) : (t == u) = (u == t) := by
  change beq t u = beq u t
  induction t generalizing u with
  | num a => cases u <;> simp only [beq, BEq.comm]
  | var x => cases u <;> simp only [beq, BEq.comm]
  | add ts ih => cases u <;> simp only [beq, beqList_eq, list_beq_comm ih]
  | mul ts ih => cases u <;> simp only [beq, beqList_eq, list_beq_comm ih]
  | neg t ih => cases u <;> simp only [beq, ih]
  | div a b iha ihb => cases u <;> simp only [beq, iha, ihb]
  | pow a b iha ihb => cases u <;> simp only [beq, iha, ihb]

theorem beq_trans {t u v : Term R} (htu : (t == u) = true) (huv : (u == v) = true) :
    (t == v) = true := by
  change beq t v = true
  change beq t u = true at htu
  change beq u v = true at huv
  induction t generalizing u v with
  | num a =>
      cases u <;> simp only [beq, Bool.false_eq_true] at htu
      cases v <;> simp only [beq, Bool.false_eq_true] at huv ⊢
      exact PartialEquivBEq.trans htu huv
  | var x =>
      cases u <;> simp only [beq, Bool.false_eq_true] at htu
      cases v <;> simp only [beq, Bool.false_eq_true] at huv ⊢
      exact PartialEquivBEq.trans htu huv
  | add ts ih =>
      cases u <;> simp only [beq, beqList_eq, Bool.false_eq_true] at htu
      cases v <;> simp only [beq, beqList_eq, Bool.false_eq_true] at huv ⊢
      exact list_beq_trans (fun t ht u v => ih t ht) htu huv
  | mul ts ih =>
      cases u <;> simp only [beq, beqList_eq, Bool.false_eq_true] at htu
      cases v <;> simp only [beq, beqList_eq, Bool.false_eq_true] at huv ⊢
      exact list_beq_trans (fun t ht u v => ih t ht) htu huv
  | neg t ih =>
      cases u <;> simp only [beq, Bool.false_eq_true] at htu
      cases v <;> simp only [beq, Bool.false_eq_true] at huv ⊢
      exact ih htu huv
  | div a b iha ihb =>
      cases u <;> simp only [beq, Bool.false_eq_true, Bool.and_eq_true] at htu
      cases v <;> simp only [beq, Bool.false_eq_true, Bool.and_eq_true] at huv ⊢
      exact ⟨iha htu.1 huv.1, ihb htu.2 huv.2⟩
  | pow a b iha ihb =>
      cases u <;> simp only [beq, Bool.false_eq_true, Bool.and_eq_true] at htu
      cases v <;> simp only [beq, Bool.false_eq_true, Bool.and_eq_true] at huv ⊢
      exact ⟨iha htu.1 huv.1, ihb htu.2 huv.2⟩

end Term

theorem Relation.beq_comm (r s : Relation R) : (r == s) = (s == r) := by
  change (r.lhs == s.lhs && (r.op == s.op && r.rhs == s.rhs)) = (s.lhs == r.lhs &&
    (s.op == r.op && s.rhs == r.rhs))
  rw [Term.beq_comm r.lhs, Term.beq_comm r.rhs, BEq.comm (a := r.op)]

namespace Formula

omit [PartialEquivBEq R] in
theorem beqList_eq (ps qs : List (Formula R)) : beqList ps qs = (ps == qs) := by
  induction ps generalizing qs with
  | nil => cases qs <;> rfl
  | cons p ps ih =>
      cases qs with
      | nil => rfl
      | cons q qs =>
          rw [List.cons_beq_cons, ← ih qs]
          rfl

theorem beq_comm (p q : Formula R) : (p == q) = (q == p) := by
  change beq p q = beq q p
  induction p generalizing q with
  | top => cases q <;> rfl
  | bottom => cases q <;> rfl
  | rel r => cases q <;> simp only [beq, Relation.beq_comm]
  | all ps ih => cases q <;> simp only [beq, beqList_eq, list_beq_comm ih]
  | any ps ih => cases q <;> simp only [beq, beqList_eq, list_beq_comm ih]
  | not p ih => cases q <;> simp only [beq, ih]
  | implies a b iha ihb => cases q <;> simp only [beq, iha, ihb]

end Formula

theorem Bound.beq_comm (a b : Bound R) : (a == b) = (b == a) := by
  change (a.value == b.value && a.strict == b.strict) = (b.value == a.value &&
    b.strict == a.strict)
  rw [Term.beq_comm a.value, BEq.comm (a := a.strict)]

theorem Interval.beq_comm (i j : Interval R) : (i == j) = (j == i) := by
  change (i.term == j.term && (i.lower == j.lower && i.upper == j.upper)) =
    (j.term == i.term && (j.lower == i.lower && j.upper == i.upper))
  rw [Term.beq_comm i.term, option_beq_comm Bound.beq_comm i.lower,
    option_beq_comm Bound.beq_comm i.upper]

theorem Constraint.beq_comm (a b : Constraint R) : (a == b) = (b == a) := by
  cases a with
  | interval i =>
      cases b with
      | interval j => exact Interval.beq_comm i j
      | relation s => rfl
  | relation r =>
      cases b with
      | interval j => rfl
      | relation s => exact Relation.beq_comm r s

theorem Boundary.beq_comm (a b : Boundary R) : (a == b) = (b == a) := by
  change (a.items == b.items) = (b.items == a.items)
  exact list_beq_comm fun x _ y => Constraint.beq_comm x y

theorem Guarded.beq_comm (a b : Guarded R) : (a == b) = (b == a) := by
  change (a.antecedent == b.antecedent && a.consequent == b.consequent) =
    (b.antecedent == a.antecedent && b.consequent == a.consequent)
  rw [Formula.beq_comm a.antecedent, Boundary.beq_comm a.consequent]

theorem Fact.beq_comm (p q : Fact R) : (p == q) = (q == p) := by
  cases p with
  | single a =>
      cases q with
      | single b => exact Constraint.beq_comm a b
      | _ => rfl
  | boundary a =>
      cases q with
      | boundary b => exact Boundary.beq_comm a b
      | _ => rfl
  | discrete as =>
      cases q with
      | discrete bs => exact list_beq_comm fun a _ b => Boundary.beq_comm a b
      | _ => rfl
  | control as =>
      cases q with
      | control bs => exact list_beq_comm fun a _ b => Guarded.beq_comm a b
      | _ => rfl
  | data rs =>
      cases q with
      | data ss => exact list_beq_comm fun r _ s => Relation.beq_comm r s
      | _ => rfl

theorem Definition.beq_comm (d e : Definition R) : (d == e) = (e == d) := by
  have hcase : ∀ a b : Formula R × Term R, (a == b) = (b == a) := by
    intro a b
    change (a.1 == b.1 && a.2 == b.2) = (b.1 == a.1 && b.2 == a.2)
    rw [Formula.beq_comm a.1, Term.beq_comm a.2]
  cases d with
  | simple x t =>
      cases e with
      | simple y u => exact congrArg₂ and BEq.comm (Term.beq_comm t u)
      | _ => rfl
  | vector x ts =>
      cases e with
      | vector y us =>
          exact congrArg₂ and BEq.comm (list_beq_comm fun t _ u => Term.beq_comm t u)
      | _ => rfl
  | cases x as =>
      cases e with
      | cases y bs => exact congrArg₂ and BEq.comm (list_beq_comm fun a _ b => hcase a b)
      | _ => rfl
  | width x m =>
      cases e with
      | width y n => exact congrArg₂ and BEq.comm BEq.comm
      | _ => rfl

end SignalFlow
