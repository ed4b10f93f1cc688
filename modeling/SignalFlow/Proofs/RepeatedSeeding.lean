import Mathlib
import SignalFlow.Proofs.LoopRounds
import SignalFlow.Proofs.SignalSubjects
import SignalFlow.Proofs.SymmetricEquality

/-!
# Seeding again

A fact is not added to an edge that carries an equal one, so assumptions that are written a
second time should find themselves there.  They do if they are equal to themselves.  A
literal that is not a number differs from itself, and so does every fact that it occurs in:
such a fact is never found, and is added again with every run.

Bounds are read with a check for numbers, so that they are free of this.  The value of an
equality is read without one, and a document can say that a signal equals what is not a
number.

**Results.**
* `Fact.beq_self_of_beq`: a fact that differs from itself is equal to none.
* `Edge.addFacts_again`: adding facts again adds those that differ from themselves.
* `Assumptions.factCount_seedCounted`: the count that seeding returns is the growth of the
  graph.
* `Assumptions.isRead_of_read`: what documents can say.
* `Assumptions.seed_again_iff`: what a second run adds, and when it changes nothing.
-/

namespace SignalFlow

/-! ### Equality with itself -/

section SelfEquality

theorem list_beq_self_iff {α : Type} [BEq α] {xs : List α} : (xs == xs) = true ↔
      ∀ x ∈ xs, (x == x) = true := by
  induction xs with
  | nil => simp
  | cons x xs ih => rw [List.cons_beq_cons, Bool.and_eq_true, ih, List.forall_mem_cons]

theorem list_beq_self_of_beq {α : Type} [BEq α] {xs ys : List α}
    (h : ∀ x ∈ xs, ∀ y, (x == y) = true → (x == x) = true) (hxy : (xs == ys) = true) :
    (xs == xs) = true := by
  refine list_beq_self_iff.mpr fun x hx => ?_
  obtain ⟨y, _, hbeq⟩ := exists_mem_beq hxy hx
  exact h x hx y hbeq

theorem option_beq_self_of_beq {α : Type} [BEq α]
    (h : ∀ a b : α, (a == b) = true → (a == a) = true) {a b : Option α}
    (hab : (a == b) = true) : (a == a) = true := by
  cases a with
  | none => rfl
  | some a =>
      cases b with
      | none => cases hab
      | some b => exact h a b hab

variable {R : Type} [BEq R] [PartialEquivBEq R]

theorem Term.beq_self_of_beq {t u : Term R} (h : (t == u) = true) : (t == t) = true :=
  beq_trans h (beq_comm t u ▸ h)

theorem Relation.beq_self_of_beq {r s : Relation R} (h : (r == s) = true) :
    (r == r) = true := by
  have hparts : (r.lhs == s.lhs && (r.op == s.op && r.rhs == s.rhs)) = true := h
  rw [Bool.and_eq_true, Bool.and_eq_true] at hparts
  change (r.lhs == r.lhs && (r.op == r.op && r.rhs == r.rhs)) = true
  rw [Term.beq_self_of_beq hparts.1, Term.beq_self_of_beq hparts.2.2,
    beq_self_eq_true r.op]
  rfl

theorem Formula.beq_self_of_beq {p q : Formula R} (h : (p == q) = true) :
    (p == p) = true := by
  change beq p q = true at h
  change beq p p = true
  induction p generalizing q with
  | top => rfl
  | bottom => rfl
  | rel r =>
      cases q <;> simp only [beq, Bool.false_eq_true] at h ⊢
      exact Relation.beq_self_of_beq h
  | all ps ih =>
      cases q <;> simp only [beq, beqList_eq, Bool.false_eq_true] at h ⊢
      exact list_beq_self_of_beq (fun p hp q => ih p hp) h
  | any ps ih =>
      cases q <;> simp only [beq, beqList_eq, Bool.false_eq_true] at h ⊢
      exact list_beq_self_of_beq (fun p hp q => ih p hp) h
  | not p ih =>
      cases q <;> simp only [beq, Bool.false_eq_true] at h ⊢
      exact ih h
  | implies a b iha ihb =>
      cases q <;> simp only [beq, Bool.false_eq_true, Bool.and_eq_true] at h ⊢
      exact ⟨iha h.1, ihb h.2⟩

theorem Bound.beq_self_of_beq (a b : Bound R) (h : (a == b) = true) : (a == a) = true := by
  have hparts : (a.value == b.value && a.strict == b.strict) = true := h
  rw [Bool.and_eq_true] at hparts
  change (a.value == a.value && a.strict == a.strict) = true
  rw [Term.beq_self_of_beq hparts.1, beq_self_eq_true a.strict]
  rfl

theorem Constraint.beq_self_of_beq {a b : Constraint R} (h : (a == b) = true) :
    (a == a) = true := by
  cases a with
  | interval i =>
      cases b with
      | relation s => cases h
      | interval j =>
          have hparts :
            (i.term == j.term && (i.lower == j.lower && i.upper == j.upper)) = true := h
          rw [Bool.and_eq_true, Bool.and_eq_true] at hparts
          change (i.term == i.term && (i.lower == i.lower && i.upper == i.upper)) = true
          rw [Term.beq_self_of_beq hparts.1,
            option_beq_self_of_beq Bound.beq_self_of_beq hparts.2.1,
            option_beq_self_of_beq Bound.beq_self_of_beq hparts.2.2]
          rfl
  | relation r =>
      cases b with
      | interval j => cases h
      | relation s => exact Relation.beq_self_of_beq (r := r) (s := s) h

theorem Boundary.beq_self_of_beq {a b : Boundary R} (h : (a == b) = true) :
    (a == a) = true := by
  change (a.items == b.items) = true at h
  change (a.items == a.items) = true
  exact list_beq_self_of_beq (fun c _ c' => Constraint.beq_self_of_beq) h

theorem Guarded.beq_self_of_beq {a b : Guarded R} (h : (a == b) = true) :
    (a == a) = true := by
  have hparts : (a.antecedent == b.antecedent && a.consequent == b.consequent) = true := h
  rw [Bool.and_eq_true] at hparts
  change (a.antecedent == a.antecedent && a.consequent == a.consequent) = true
  rw [Formula.beq_self_of_beq hparts.1, Boundary.beq_self_of_beq hparts.2]
  rfl

/-- A fact that differs from itself is equal to none. -/
theorem Fact.beq_self_of_beq {p q : Fact R} (h : (p == q) = true) : (p == p) = true := by
  cases p with
  | single a =>
      cases q with
      | single b => exact Constraint.beq_self_of_beq (a := a) (b := b) h
      | _ => cases h
  | boundary a =>
      cases q with
      | boundary b => exact Boundary.beq_self_of_beq (a := a) (b := b) h
      | _ => cases h
  | discrete as =>
      cases q with
      | discrete bs =>
          change (as == bs) = true at h
          change (as == as) = true
          exact list_beq_self_of_beq (fun a _ b => Boundary.beq_self_of_beq) h
      | _ => cases h
  | control as =>
      cases q with
      | control bs =>
          change (as == bs) = true at h
          change (as == as) = true
          exact list_beq_self_of_beq (fun a _ b => Guarded.beq_self_of_beq) h
      | _ => cases h
  | data rs =>
      cases q with
      | data ss =>
          change (rs == ss) = true at h
          change (rs == rs) = true
          exact list_beq_self_of_beq (fun r _ s => Relation.beq_self_of_beq) h
      | _ => cases h

omit [PartialEquivBEq R] in
theorem Fact.beq_self_boundary (ks : List (Constraint R)) :
    (Fact.boundary ⟨ks⟩ == .boundary ⟨ks⟩) = true ↔ ∀ k ∈ ks, (k == k) = true := by
  change (ks == ks) = true ↔ _
  exact list_beq_self_iff

omit [PartialEquivBEq R] in
theorem Fact.beq_self_control (p : Formula R) (ks : List (Constraint R)) :
    (Fact.control [⟨p, ⟨ks⟩⟩] == .control [⟨p, ⟨ks⟩⟩]) = true ↔
      (p == p) = true ∧ ∀ k ∈ ks, (k == k) = true := by
  change ((p == p && ks == ks) && true) = true ↔ _
  rw [Bool.and_true, Bool.and_eq_true, list_beq_self_iff]

namespace Formula

omit [PartialEquivBEq R] in
theorem beq_self_all (ps : List (Formula R)) :
    (Formula.all ps == Formula.all ps) = true ↔ ∀ p ∈ ps, (p == p) = true := by
  change beq (.all ps) (.all ps) = true ↔ _
  rw [beq, beqList_eq, list_beq_self_iff]

/-- Parts that are left out of a conjunction are equal to others, and so to themselves. -/
theorem forall_beq_self_conjParts? {acc ps qs : List (Formula R)}
    (h : conjParts? acc ps = some qs) :
    (∀ q ∈ qs, (q == q) = true) ↔ (∀ q ∈ acc, (q == q) = true) ∧
      ∀ p ∈ ps, (p == p) = true := by
  fun_induction conjParts? acc ps with
  | case1 acc =>
      cases h
      simp
  | case2 acc ps ih =>
      have htop : ((Formula.top : Formula R) == .top) = true := rfl
      rw [ih h, List.forall_mem_cons]
      simp [htop]
  | case3 => simp at h
  | case4 acc rs ps ih =>
      rw [ih h, List.forall_mem_append, List.forall_mem_cons, beq_self_all, and_assoc]
  | case5 acc p ps _ _ _ ih =>
      rw [ih h, List.forall_mem_cons, ← and_assoc]
      refine and_congr_left fun _ => ?_
      unfold insertLast
      split
      · next hcontains =>
          obtain ⟨q, _, hpq⟩ := List.contains_iff_exists_mem_beq.mp hcontains
          exact ⟨fun hacc => ⟨hacc, beq_self_of_beq hpq⟩, fun hacc => hacc.1⟩
      · rw [List.forall_mem_append, List.forall_mem_singleton]

/-- A conjunction is equal to itself if its parts are. -/
theorem beq_self_conj {ps : List (Formula R)} (h : Formula.bottom ∉ ps) :
    (conj ps == conj ps) = true ↔ ∀ p ∈ ps, (p == p) = true := by
  unfold conj
  split
  · next hparts => exact absurd (bottom_mem_of_conjParts? hparts) h
  · next hparts =>
      have hself := (forall_beq_self_conjParts? hparts).mp (by simp)
      exact ⟨fun _ => hself.2, fun _ => rfl⟩
  · next p hparts => simpa using forall_beq_self_conjParts? hparts
  · next qs _ _ hparts =>
      rw [beq_self_all]
      simpa using forall_beq_self_conjParts? hparts

end Formula

end SelfEquality

/-! ### What a statement says -/

section Statements

variable {R : Type} [Scalar R]

namespace Condition

/-- The condition compares with what is not a number. -/
def isUndefined : Condition R → Bool
  | .compare _ (.num a) => Scalar.isUndefined a
  | _ => false

/-- Bounds are defined literals or variables, and other values are literals or
variables. -/
def IsRead : Condition R → Prop
  | .interval lower upper => (∀ b ∈ lower, b.value.IsBound) ∧ ∀ b ∈ upper, b.value.IsBound
  | .compare _ t => (∃ a, t = .num a) ∨ ∃ x, t = .var x

end Condition

/-- The atoms of a statement. -/
def Statement.atoms : Statement R → List (Atom R)
  | .signal atoms => atoms
  | .control conditions consequences => conditions ++ consequences

/-- An atom of the statement compares with what is not a number. -/
def Statement.isUndefined (s : Statement R) : Bool :=
  s.atoms.any fun a => a.condition.isUndefined

/-- All atoms can have been read. -/
def Statement.IsRead (s : Statement R) : Prop :=
  ∀ a ∈ s.atoms, a.condition.IsRead

theorem Term.beq_self_num (a : R) : (Term.num a == .num a) = !Scalar.isUndefined a :=
  (Bool.not_not _).symm

theorem Term.beq_self_var (x : String) : ((Term.var x : Term R) == .var x) = true :=
  beq_self_eq_true x

theorem Term.IsBound.beq_self {t : Term R} (h : t.IsBound) : (t == t) = true := by
  rcases h with ⟨a, rfl, ha⟩ | ⟨x, rfl⟩
  · rw [Term.beq_self_num, ha]
    rfl
  · exact Term.beq_self_var x

theorem option_beq_self_of_isBound {bound : Option (Bound R)}
    (h : ∀ b ∈ bound, b.value.IsBound) : (bound == bound) = true := by
  cases bound with
  | none => rfl
  | some b =>
      change (b.value == b.value && b.strict == b.strict) = true
      rw [(h b rfl).beq_self, beq_self_eq_true b.strict]
      rfl

theorem Relation.beq_self_var (x : String) (c : Comparison) (t : Term R) :
    ((⟨.var x, c, t⟩ : Relation R) == ⟨.var x, c, t⟩) = (t == t) := by
  change (((Term.var x : Term R) == .var x) && (c == c && t == t)) = (t == t)
  rw [Term.beq_self_var, beq_self_eq_true c, Bool.true_and, Bool.true_and]

/-- A constraint is never the false formula: it is true if all relations are. -/
theorem Constraint.toFormula_ne_bottom (k : Constraint R) : k.toFormula ≠ .bottom := by
  intro h
  have hatom : Respects (R := R) fun _ => True := fun _ _ _ => Iff.rfl
  have htrue : k.toFormula.TrueUnder fun _ => True := by
    cases k with
    | interval i =>
        exact (i.trueUnder_toFormula hatom).mpr ⟨fun _ _ => trivial, fun _ _ => trivial⟩
    | relation r => exact (Formula.trueUnder_rel _ r).mpr trivial
  rw [h] at htrue
  exact Formula.not_trueUnder_bottom _ htrue

namespace Condition

/-- The constraint that a condition is at a variable. -/
def constraint (c : Condition R) (x : String) : Constraint R :=
  (Atom.mk (some x) c).constraint (.var x)

/-- A condition that was read is equal to itself unless it compares with what is not a
number. -/
theorem beq_self_constraint {c : Condition R} (h : c.IsRead) (x : String) :
    (c.constraint x == c.constraint x) = !c.isUndefined := by
  cases c with
  | interval lower upper =>
      change (((Term.var x : Term R) == .var x) && (lower == lower && upper == upper)) =
        true
      rw [Term.beq_self_var, option_beq_self_of_isBound h.1,
        option_beq_self_of_isBound h.2]
      rfl
  | compare op t =>
      refine (Relation.beq_self_var x op t).trans ?_
      rcases h with ⟨a, rfl⟩ | ⟨y, rfl⟩
      · exact Term.beq_self_num a
      · exact Term.beq_self_var y

theorem beq_self_toFormula [PartialEquivBEq R] {c : Condition R} (h : c.IsRead)
    (x : String) :
    ((c.constraint x).toFormula == (c.constraint x).toFormula) = !c.isUndefined := by
  cases c with
  | interval lower upper =>
      refine (Formula.beq_self_conj (by simp)).mpr fun p hp => ?_
      rw [List.mem_append] at hp
      rcases hp with hp | hp
      · obtain ⟨r, hr, rfl⟩ := List.mem_map.mp hp
        obtain ⟨b, hb, rfl⟩ := Option.map_eq_some_iff.mp (Option.mem_toList.mp hr)
        exact (Relation.beq_self_var x _ b.value).trans (h.1 b hb).beq_self
      · obtain ⟨r, hr, rfl⟩ := List.mem_map.mp hp
        obtain ⟨b, hb, rfl⟩ := Option.map_eq_some_iff.mp (Option.mem_toList.mp hr)
        exact (Relation.beq_self_var x _ b.value).trans (h.2 b hb).beq_self
  | compare op t => exact beq_self_constraint h x

end Condition

omit [Scalar R] in
theorem Atom.exists_constraint_eq (a : Atom R) (x : String) :
    ∃ y, a.constraint (.var x) = a.condition.constraint y := by
  rcases a with ⟨_ | y, c⟩
  · exact ⟨x, rfl⟩
  · exact ⟨y, rfl⟩

/-- **Statements and themselves.**  The fact that a statement stands for is equal to itself
exactly if no atom compares with what is not a number. -/
theorem Statement.beq_self_fact [PartialEquivBEq R] {s : Statement R} (h : s.IsRead)
    (x : String) : (s.fact (.var x) == s.fact (.var x)) = !s.isUndefined := by
  have hconstraint : ∀ a ∈ s.atoms,
      ((a.constraint (.var x) == a.constraint (.var x)) = true ↔
        ¬ a.condition.isUndefined = true) := fun a ha => by
    obtain ⟨y, hy⟩ := a.exists_constraint_eq x
    rw [hy, Condition.beq_self_constraint (h a ha), Bool.not_eq_true', Bool.not_eq_true]
  rw [Bool.eq_iff_iff, Statement.isUndefined, Bool.not_eq_true', List.any_eq_false]
  cases s with
  | signal atoms =>
      refine (Fact.beq_self_boundary _).trans ?_
      rw [List.forall_mem_map]
      exact forall₂_congr hconstraint
  | control conditions consequences =>
      have hformula : ∀ a ∈ conditions,
          (((a.constraint (.var x)).toFormula == (a.constraint (.var x)).toFormula) =
            true ↔
            ¬ a.condition.isUndefined = true) := fun a ha => by
        obtain ⟨y, hy⟩ := a.exists_constraint_eq x
        rw [hy, Condition.beq_self_toFormula (h a (List.mem_append_left _ ha)),
          Bool.not_eq_true', Bool.not_eq_true]
      have hbottom : Formula.bottom ∉ conditions.map fun a =>
          (a.constraint (.var x)).toFormula := by
        rw [List.mem_map]
        rintro ⟨a, _, ha⟩
        exact Constraint.toFormula_ne_bottom _ ha
      refine (Fact.beq_self_control _ _).trans ?_
      rw [Formula.beq_self_conj hbottom, List.forall_mem_map, List.forall_mem_map,
        Statement.atoms, List.forall_mem_append]
      exact and_congr (forall₂_congr hformula)
        (forall₂_congr fun a ha => hconstraint a (List.mem_append_right _ ha))

end Statements

/-! ### What is read -/

section Reading

variable {R : Type} [Scalar R]

theorem exists_of_bind_eq_ok {α β ε : Type} {x : Except ε α} {f : α → Except ε β} {b : β}
    (h : (x >>= f) = .ok b) : ∃ a, x = .ok a ∧ f a = .ok b := by
  cases x with
  | error fault => cases h
  | ok a => exact ⟨a, rfl, h⟩

theorem exists_of_map_eq_ok {α β ε : Type} {x : Except ε α} {f : α → β} {b : β}
    (h : x.map f = .ok b) : ∃ a, x = .ok a ∧ f a = b := by
  cases x with
  | error fault => cases h
  | ok a => exact ⟨a, rfl, Except.ok.inj h⟩

theorem exists_of_any_toOption {α ε : Type} {x : Except ε α} {p : α → Bool}
    (h : x.toOption.any p = true) : ∃ a, x = .ok a ∧ p a = true := by
  cases x with
  | error fault => cases h
  | ok a => exact ⟨a, rfl, h⟩

/-- What holds of every single result holds of all results together. -/
theorem forall_mem_of_mapM_eq_ok {α β ε : Type} {f : α → Except ε β} {P : β → Prop}
    {xs : List α} {ys : List β} (hf : ∀ x y, f x = .ok y → P y) (h : xs.mapM f = .ok ys) :
    ∀ y ∈ ys, P y := by
  induction xs generalizing ys with
  | nil =>
      rw [List.mapM_nil] at h
      cases h
      simp
  | cons x xs ih =>
      rw [List.mapM_cons] at h
      obtain ⟨y, hy, hrest⟩ := exists_of_bind_eq_ok h
      obtain ⟨ys, hys, hcons⟩ := exists_of_bind_eq_ok hrest
      cases hcons
      exact List.forall_mem_cons.mpr ⟨hf x y hy, ih hys⟩

namespace Assumptions

open Markup (Element)

theorem isBound_of_boundTerm? {text : String} {t : Term R} (h : boundTerm? text = some t) :
    t.IsBound := by
  unfold boundTerm? at h
  simp only [] at h
  split at h
  · cases h
  · split at h
    · next a _ =>
        split at h
        · next hfinite =>
            cases h
            simp only [Scalar.isFinite, Bool.and_eq_true] at hfinite
            exact .inl ⟨a,
              rfl, by rw [Scalar.Defined, Scalar.isUndefined, hfinite.1.1, Bool.not_true]⟩
        · cases h
    · cases h
      exact .inr ⟨_, rfl⟩

theorem isBound_of_mem_bound? {e : Element} {key strictKey : String} {b : Bound R}
    (h : b ∈ (bound? e key strictKey : Option (Bound R))) : b.value.IsBound := by
  obtain ⟨t, ht, rfl⟩ := Option.map_eq_some_iff.mp h
  obtain ⟨text, _, htext⟩ := Option.bind_eq_some_iff.mp ht
  exact isBound_of_boundTerm? htext

theorem isRead_of_atom {e : Element} {a : Atom R} (h : atom e = .ok a) :
    a.condition.IsRead := by
  unfold atom at h
  split at h
  · cases h
    exact ⟨fun _ => isBound_of_mem_bound?, fun _ => isBound_of_mem_bound?⟩
  · split at h
    · split at h
      · cases h
      · simp only [] at h
        split at h
        · cases h
        · cases h
          unfold valueTerm
          simp only []
          split
          · exact .inl ⟨_, rfl⟩
          · exact .inr ⟨_, rfl⟩
    · cases h

theorem isRead_of_atoms {e : Element} {as : List (Atom R)} (h : atoms e = .ok as) :
    ∀ a ∈ as, a.condition.IsRead :=
  forall_mem_of_mapM_eq_ok (fun _ _ => isRead_of_atom) h

theorem isRead_of_part {e : Element} {name : String} {as : List (Atom R)}
    (h : part e name = .ok as) : ∀ a ∈ as, a.condition.IsRead := by
  unfold part at h
  split at h
  · exact isRead_of_atoms h
  · cases h
    simp

theorem isRead_of_statements {e : Element} {ss : List (Statement R)}
    (h : statements e = .ok ss) : ∀ s ∈ ss, s.IsRead := by
  unfold statements at h
  split at h
  · obtain ⟨as, has, rfl⟩ := exists_of_map_eq_ok h
    exact List.forall_mem_singleton.mpr (isRead_of_atoms has)
  · split at h
    · obtain ⟨as, has, rfl⟩ := exists_of_map_eq_ok h
      exact List.forall_mem_map.mpr fun a ha =>
        List.forall_mem_singleton.mpr (isRead_of_atoms has a ha)
    · split at h
      · obtain ⟨conditions, hconditions, hrest⟩ := exists_of_bind_eq_ok h
        obtain ⟨consequences, hconsequences, hcontrol⟩ := exists_of_bind_eq_ok hrest
        split at hcontrol
        · cases hcontrol
        · cases hcontrol
          exact List.forall_mem_singleton.mpr
            (List.forall_mem_append.mpr ⟨isRead_of_part hconditions,
              isRead_of_part hconsequences⟩)
      · split at h
        · obtain ⟨a, ha, rfl⟩ := exists_of_map_eq_ok h
          exact List.forall_mem_singleton.mpr
            (List.forall_mem_singleton.mpr (isRead_of_atom ha))
        · cases h

theorem isRead_of_pin {e : Element} {p : PinAssumption R} (h : pin e = .ok p) :
    ∀ s ∈ p.statements, s.IsRead := by
  unfold pin at h
  split at h
  · cases h
  · obtain ⟨ss, hss, rfl⟩ := exists_of_map_eq_ok h
    intro s hs
    obtain ⟨group, hgroup, hs⟩ := List.mem_flatten.mp hs
    exact forall_mem_of_mapM_eq_ok (fun _ _ => isRead_of_statements) hss group hgroup s hs

theorem isRead_of_block {e : Element} {a : BlockAssumption R} (h : block e = .ok a) :
    ∀ p ∈ a.pins, ∀ s ∈ p.statements, s.IsRead := by
  obtain ⟨selected, _, hrest⟩ := exists_of_bind_eq_ok h
  obtain ⟨pins, hpins, hblock⟩ := exists_of_bind_eq_ok hrest
  cases hblock
  exact forall_mem_of_mapM_eq_ok (fun _ _ => isRead_of_pin) hpins

/-- What documents can say: bounds are numbers or names, and only the value of a comparison
may be a literal that is not a number. -/
theorem isRead_of_read {text : String} {as : Assumptions R} (h : read text = .ok as) :
    ∀ a ∈ as, ∀ p ∈ a.pins, ∀ s ∈ p.statements, s.IsRead := by
  unfold read at h
  split at h
  · cases h
  · next e _ =>
      unfold ofElement at h
      split at h
      · cases hblocks : (e.childrenNamed "block").mapM (block (R := R)) with
        | error fault => simp [hblocks, Except.mapError] at h
        | ok as' =>
            rw [hblocks] at h
            cases h
            exact forall_mem_of_mapM_eq_ok (fun _ _ => isRead_of_block) hblocks
      · cases h

theorem isRead_of_mem_statementsAt {as : Assumptions R}
    (h : ∀ a ∈ as, ∀ p ∈ a.pins, ∀ s ∈ p.statements, s.IsRead) {d : Diagram}
    {g : FlowGraph R} {e : Edge R} {s : Statement R} (hs : s ∈ as.statementsAt d g e) :
    s.IsRead := by
  obtain ⟨a, ha, hs⟩ := List.mem_flatMap.mp hs
  split at hs
  · obtain ⟨p, hp, hs⟩ := List.mem_flatMap.mp hs
    exact h a ha p (List.mem_of_mem_filter hp) s hs
  · cases hs

end Assumptions

end Reading

/-! ### Adding facts again -/

section Edges

variable {R : Type} [Scalar R]

namespace Edge

/-- Append facts, whatever facts there are. -/
def append (e : Edge R) (ps : List (Fact R)) : Edge R :=
  { e with facts := e.facts ++ ps, consumed := e.consumed ++ ps.map fun _ => false }

omit [Scalar R] in
@[simp] theorem append_nil (e : Edge R) : e.append [] = e := by
  simp [append]

omit [Scalar R] in
@[simp] theorem append_append (e : Edge R) (ps qs : List (Fact R)) :
    (e.append ps).append qs = e.append (ps ++ qs) := by
  simp [append]

theorem addFact_of_not_carries {e : Edge R} {p : Fact R} (h : ¬ e.carries p = true) :
    e.addFact p = e.append [p] :=
  if_neg h

theorem length_facts_addFacts (e : Edge R) (ps : List (Fact R)) :
    (e.addFacts ps).facts.length = e.facts.length + e.countNew ps := by
  induction ps generalizing e with
  | nil => rfl
  | cons p ps ih =>
      refine (ih (e.addFact p)).trans ?_
      by_cases hcarried : e.carries p = true
      · rw [countNew, addFact, if_pos hcarried, if_pos hcarried]
      · have hlength : (e.addFact p).facts.length = e.facts.length + 1 := by
          simp [addFact_of_not_carries hcarried, append]
        rw [countNew, if_neg hcarried, hlength]
        omega

theorem carries_of_facts_subset {e e' : Edge R} (h : e.facts ⊆ e'.facts) {p : Fact R}
    (hp : e.carries p = true) : e'.carries p = true := by
  obtain ⟨q, hq, hpq⟩ := List.contains_iff_exists_mem_beq.mp hp
  exact List.contains_iff_exists_mem_beq.mpr ⟨q, h hq, hpq⟩

/-- Facts that are equal to themselves are found once they have been added. -/
theorem carries_addFacts (e : Edge R) {ps : List (Fact R)} {p : Fact R} (hmem : p ∈ ps)
    (hp : (p == p) = true) : (e.addFacts ps).carries p = true := by
  obtain ⟨before, after, rfl⟩ := List.append_of_mem hmem
  have hadded : ((e.addFacts before).addFact p).carries p = true := by
    unfold addFact
    split
    · next hcarried => exact hcarried
    · exact List.contains_iff_exists_mem_beq.mpr ⟨p, by simp, hp⟩
  have hsplit : e.addFacts (before ++ p :: after) =
      ((e.addFacts before).addFact p).addFacts after := by
    simp [addFacts]
  rw [hsplit]
  exact carries_of_facts_subset (prefix_addFacts _ after).subset hadded

variable [PartialEquivBEq R]

theorem beq_self_of_carries {e : Edge R} {p : Fact R} (h : e.carries p = true) :
    (p == p) = true := by
  obtain ⟨q, _, hpq⟩ := List.contains_iff_exists_mem_beq.mp h
  exact Fact.beq_self_of_beq hpq

/-- If all facts that are equal to themselves are carried, exactly the others are added. -/
theorem addFacts_of_carries (e : Edge R) {ps : List (Fact R)}
    (h : ∀ p ∈ ps, (p == p) = true → e.carries p = true) :
    e.addFacts ps = e.append (ps.filter fun p => !(p == p)) := by
  induction ps generalizing e with
  | nil => simp [addFacts]
  | cons p ps ih =>
      change (e.addFact p).addFacts ps = _
      have hrest : ∀ q ∈ ps, (q == q) = true →
          (e.addFact p).carries q = true := fun q hq hself =>
        carries_of_facts_subset (e.prefix_addFact p).subset
          (h q (List.mem_cons_of_mem _ hq) hself)
      rw [ih (e.addFact p) hrest]
      by_cases hcarried : e.carries p = true
      · rw [addFact, if_pos hcarried,
          List.filter_cons_of_neg (by simp [beq_self_of_carries hcarried])]
      · have hself : (p == p) = false := by
          rw [← Bool.not_eq_true]
          exact fun hself => hcarried (h p List.mem_cons_self hself)
        rw [addFact_of_not_carries hcarried, List.filter_cons_of_pos (by simp [hself]),
          append_append]
        rfl

/-- **Adding facts again** adds those that differ from themselves. -/
theorem addFacts_again (e : Edge R) (ps : List (Fact R)) :
    (e.addFacts ps).addFacts ps = (e.addFacts ps).append (ps.filter fun p => !(p == p)) :=
  (e.addFacts ps).addFacts_of_carries fun _ hp => e.carries_addFacts hp

end Edge

end Edges

/-! ### Counting -/

section Counting

variable {R : Type} [Scalar R]

/-- The number of facts on all edges. -/
def FlowGraph.factCount (g : FlowGraph R) : Nat :=
  (g.edges.map fun e => e.facts.length).sum

theorem sum_map_modify {α : Type} {size growth : α → Nat} {f : α → α}
    (h : ∀ a, size (f a) = size a + growth a) (xs : List α) (i : Nat) :
    ((xs.modify i f).map size).sum = (xs.map size).sum + (xs[i]?.map growth).getD 0 := by
  induction xs generalizing i with
  | nil => simp
  | cons x xs ih =>
      cases i with
      | zero =>
          simp [h]
          omega
      | succ i =>
          simp [ih]
          omega

theorem Edge.length_facts_assume (e : Edge R) (ss : List (Statement R)) :
    (e.assume ss).facts.length = e.facts.length + e.countNew (ss.map fun s =>
      s.fact e.term) :=
  e.length_facts_addFacts _

theorem FlowGraph.factCount_assume (g : FlowGraph R) (i : EdgeId)
    (ss : List (Statement R)) :
    (g.modifyEdge i (Edge.assume ss)).factCount = g.factCount + g.countNew i ss := by
  refine (sum_map_modify (fun e => e.length_facts_assume ss) g.edges i).trans ?_
  unfold countNew factCount
  cases g.edges[i]? <;> rfl

namespace Assumptions

/-- The number of facts is `base` together with what has been counted. -/
def Counts (base : Nat) (s : Nat × FlowGraph R) : Prop :=
  s.2.factCount = base + s.1

theorem Counts.seedPin {base : Nat} {s : Nat × FlowGraph R} (h : Counts base s)
    (n : NodeId) (p : PinAssumption R) : Counts base (seedPinCounted n s p) :=
  List.foldlRecOn _ _ h fun _ hs i _ => by
    unfold Counts at hs ⊢
    rw [FlowGraph.factCount_assume, hs, Nat.add_assoc]

theorem Counts.seedBlock {base : Nat} {s : Nat × FlowGraph R} (h : Counts base s)
    (d : Diagram) (a : BlockAssumption R) : Counts base (seedBlockCounted d s a) := by
  unfold seedBlockCounted
  split
  · exact h
  · exact List.foldlRecOn _ _ h fun s hs p _ => hs.seedPin _ p

/-- The count that seeding returns is the number of facts by which the graph grows. -/
theorem factCount_seedCounted (as : Assumptions R) (d : Diagram) (g : FlowGraph R) :
    (as.seedCounted d g).2.factCount = g.factCount + (as.seedCounted d g).1 :=
  List.foldlRecOn (motive := Counts g.factCount) as _ rfl fun _ hs a _ => hs.seedBlock d a

theorem snd_seedPinCounted (n : NodeId) (s : Nat × FlowGraph R) (p : PinAssumption R) :
    (seedPinCounted n s p).2 = seedPin n s.2 p :=
  (List.foldl_hom Prod.snd fun _ _ => rfl).symm

theorem snd_seedBlockCounted (d : Diagram) (s : Nat × FlowGraph R)
    (a : BlockAssumption R) : (seedBlockCounted d s a).2 = seedBlock d s.2 a := by
  unfold seedBlockCounted seedBlock
  cases selectedNode? d s.2 a.selector with
  | none => rfl
  | some n =>
      exact (List.foldl_hom Prod.snd fun s p => (snd_seedPinCounted n s p).symm).symm

/-- Counting does not change what is written. -/
theorem snd_seedCounted (as : Assumptions R) (d : Diagram) (g : FlowGraph R) :
    (as.seedCounted d g).2 = as.seed d g :=
  (List.foldl_hom Prod.snd fun s a => (snd_seedBlockCounted d s a).symm).symm

end Assumptions

end Counting

/-! ### The second run -/

section SecondRun

variable {R : Type} [Scalar R]

/-- Append the facts of the statements that compare with what is not a number. -/
def Edge.appendUndefined (ss : List (Statement R)) (e : Edge R) : Edge R :=
  e.append ((ss.filter Statement.isUndefined).map fun s => s.fact e.term)

theorem Edge.appendUndefined_eq_self {ss : List (Statement R)}
    (h : ∀ s ∈ ss, s.isUndefined = false) (e : Edge R) : e.appendUndefined ss = e := by
  have hnone : ss.filter Statement.isUndefined = [] :=
    List.filter_eq_nil_iff.mpr fun s hs => Bool.eq_false_iff.mp (h s hs)
  rw [appendUndefined, hnone, List.map_nil, append_nil]

theorem Edge.length_facts_appendUndefined (ss : List (Statement R)) (e : Edge R) :
    (e.appendUndefined ss).facts.length = e.facts.length +
      ss.countP Statement.isUndefined := by
  rw [appendUndefined, append, List.length_append, List.length_map,
    List.countP_eq_length_filter]

theorem Edge.assume_again [PartialEquivBEq R] (e : Edge R) {ss : List (Statement R)}
    (h : ∀ s ∈ ss, s.IsRead) :
    (e.assume ss).assume ss = (e.assume ss).appendUndefined ss := by
  have hbare : (e.assume ss).bare.term = e.bare.term :=
    congrArg Edge.term (e.bare_assume ss)
  have hterm : (e.assume ss).term = e.term := hbare
  have hfilter : (ss.map fun s => s.fact e.term).filter (fun p => !(p == p)) =
      (ss.filter Statement.isUndefined).map fun s => s.fact e.term := by
    rw [List.filter_map]
    refine congrArg (List.map _) (List.filter_congr fun s hs => ?_)
    rw [Function.comp_apply, Edge.term, Statement.beq_self_fact (h s hs), Bool.not_not]
  have hagain := e.addFacts_again (ss.map fun s => s.fact e.term)
  rw [hfilter] at hagain
  unfold appendUndefined
  rw [hterm]
  unfold assume at hterm ⊢
  rw [hterm]
  exact hagain

namespace Assumptions

/-- What is said about an edge depends on where it leaves from only. -/
theorem statementsAt_assume (as : Assumptions R) (d : Diagram) (g : FlowGraph R)
    (ss : List (Statement R)) (e : Edge R) :
    as.statementsAt d g (e.assume ss) = as.statementsAt d g e := by
  unfold statementsAt
  rw [Edge.source_of_bare (e.bare_assume ss)]

/-- A second run appends to every edge the statements that compare with what is not a
number. -/
theorem seed_again [PartialEquivBEq R] {as : Assumptions R}
    (has : ∀ a ∈ as, ∀ p ∈ a.pins, ∀ s ∈ p.statements, s.IsRead) (d : Diagram)
    {g : FlowGraph R} (hg : g.Indexed) :
    as.seed d (as.seed d g) = (as.seed d g).mapEdges fun e =>
      e.appendUndefined (as.statementsAt d g e) := by
  have hindexed : (as.seed d g).Indexed := by
    rw [seed_eq hg]
    exact hg.of_layout (FlowGraph.layout_mapEdges (fun e => e.bare_assume _) g)
  rw [seed_eq hindexed, seed_eq hg]
  simp only [FlowGraph.mapEdges, List.map_map]
  congr 1
  refine List.map_congr_left fun e _ => ?_
  change (e.assume (as.statementsAt d g e)).assume
    (as.statementsAt d g (e.assume (as.statementsAt d g e))) =
    (e.assume (as.statementsAt d g e)).appendUndefined
      (as.statementsAt d g (e.assume (as.statementsAt d g e)))
  rw [statementsAt_assume]
  exact e.assume_again fun s hs => isRead_of_mem_statementsAt has hs

/-- The number of facts that a second run appends. -/
theorem factCount_seed_again (as : Assumptions R) (d : Diagram) {g : FlowGraph R}
    (hg : g.Indexed) :
    ((as.seed d g).mapEdges fun e => e.appendUndefined (as.statementsAt d g e)).factCount =
      (as.seed d g).factCount + (g.edges.map fun e =>
        (as.statementsAt d g e).countP Statement.isUndefined).sum := by
  rw [seed_eq hg]
  simp only [FlowGraph.factCount, FlowGraph.mapEdges, List.map_map]
  rw [← List.sum_map_add]
  refine congrArg List.sum (List.map_congr_left fun e _ => ?_)
  refine (Edge.length_facts_appendUndefined _ _).trans (congrArg _ ?_)
  rw [statementsAt_assume]

/-- **Seeding again.**  For every document that is read and every diagram: the first run
returns the number of facts by which the graph grows.  The second run appends to each edge,
and counts, the statements about its pin that compare with what is not a number.  So it
adds nothing and changes nothing exactly if no statement written to an edge does. -/
theorem seed_again_iff [PartialEquivBEq R] {text : String} {as : Assumptions R}
    (hread : read text = .ok as) (d : Diagram) (order : RunOrder) {g g₁ g₂ : FlowGraph R}
    {n₁ n₂ : Nat} (hg : g = .ofDiagram d order) (hfirst : as.seedCounted d g = (n₁, g₁))
    (hsecond : as.seedCounted d g₁ = (n₂, g₂)) :
    g₁.factCount = g.factCount + n₁ ∧
      n₂ = (g.edges.map fun e =>
        (as.statementsAt d g e).countP Statement.isUndefined).sum ∧
      g₂ = g₁.mapEdges (fun e => e.appendUndefined (as.statementsAt d g e)) ∧
      (n₂ = 0 ∧ g₂ = g₁ ↔ ∀ e ∈ g.edges, ∀ s ∈ as.statementsAt d g e,
        s.isUndefined = false) := by
  have hindexed : g.Indexed := hg ▸ .ofDiagram d order
  have has := isRead_of_read hread
  have hgrown := as.factCount_seedCounted d g
  have hgrown' := as.factCount_seedCounted d g₁
  have hseed := as.snd_seedCounted d g
  have hseed' := as.snd_seedCounted d g₁
  rw [hfirst] at hgrown hseed
  rw [hsecond] at hgrown' hseed'
  have hagain : g₂ = g₁.mapEdges fun e => e.appendUndefined (as.statementsAt d g e) := by
    have h := seed_again has d hindexed
    rw [← hseed, ← hseed'] at h
    exact h
  have hcount : n₂ = (g.edges.map fun e =>
      (as.statementsAt d g e).countP Statement.isUndefined).sum := by
    have h := as.factCount_seed_again d hindexed
    rw [← hseed, ← hagain] at h
    exact Nat.add_left_cancel (hgrown'.symm.trans h)
  have hzero : n₂ = 0 ↔ ∀ e ∈ g.edges, ∀ s ∈ as.statementsAt d g e,
      s.isUndefined = false := by
    rw [hcount, List.sum_eq_zero_iff, List.forall_mem_map]
    refine forall₂_congr fun e _ => ?_
    simp only [List.countP_eq_zero, Bool.not_eq_true]
  refine ⟨hgrown, hcount, hagain, fun h => hzero.mp h.1, fun h => ⟨hzero.mpr h, ?_⟩⟩
  have hedges : ∀ e ∈ g₁.edges, e.appendUndefined (as.statementsAt d g e) = e := by
    have hseeded : g₁ = as.seed d g := hseed
    rw [hseeded, seed_eq hindexed, FlowGraph.mapEdges, List.forall_mem_map]
    intro e he
    rw [statementsAt_assume]
    exact Edge.appendUndefined_eq_self (h e he) _
  rw [hagain, FlowGraph.mapEdges, List.map_congr_left hedges, List.map_id']

/-- A bound of a signal, and an equation with a literal that is not a number. -/
def equatedWithNaN : String :=
  "<invariants><block id=\"1\"><port index=\"1\"><interval upper=\"1\"/>" ++
    "<equality value=\"NaN\"/></port></block></invariants>"

/-- A signal from an input to an output. -/
def wire : Diagram where
  name := "wire"
  blocks := [⟨1, "A", "Inport", 0, 1, []⟩, ⟨2, "Y", "Outport", 1, 0, []⟩]
  signals := [⟨1, ⟨1, 0⟩, ⟨2, 0⟩⟩]

/-- The document is accepted.  The first run adds both facts, and the second run adds the
equation again. -/
theorem seed_again_equatedWithNaN :
    ∃ as : Assumptions Float, read equatedWithNaN = .ok as ∧
      ∃ g₁ g₂, as.seedCounted wire (.ofDiagram wire wire.runOrder) = (2, g₁) ∧
        as.seedCounted wire g₁ = (1, g₂) ∧
        g₁.factCount = (FlowGraph.ofDiagram wire wire.runOrder : FlowGraph Float).factCount
          + 2 ∧
        ¬ ∀ e ∈ (FlowGraph.ofDiagram wire wire.runOrder : FlowGraph Float).edges,
          ∀ s ∈ as.statementsAt wire (.ofDiagram wire wire.runOrder) e,
            s.isUndefined = false := by
  have hread : ((read equatedWithNaN : Except _ (Assumptions Float)).toOption.any fun as =>
      (as.seedCounted wire (.ofDiagram wire wire.runOrder)).1 == 2 &&
        (as.seedCounted wire (as.seedCounted wire (.ofDiagram wire wire.runOrder)).2).1 ==
        1) = true := by
    decide +kernel
  obtain ⟨as, has, hcounts⟩ := exists_of_any_toOption hread
  rw [Bool.and_eq_true, beq_iff_eq, beq_iff_eq] at hcounts
  have hfirst := Prod.ext
    (y := (2, (as.seedCounted wire (.ofDiagram wire wire.runOrder)).2)) hcounts.1 rfl
  have hsecond := Prod.ext
    (y := (1, (as.seedCounted wire
      (as.seedCounted wire (.ofDiagram wire wire.runOrder)).2).2)) hcounts.2 rfl
  obtain ⟨hgrown, _, _, hagain⟩ := seed_again_iff has wire wire.runOrder rfl hfirst hsecond
  refine ⟨as, has, _, _, hfirst, hsecond, hgrown, fun hdefined => ?_⟩
  exact absurd (hagain.mpr hdefined).1 Nat.one_ne_zero

end Assumptions

end SecondRun
end SignalFlow
