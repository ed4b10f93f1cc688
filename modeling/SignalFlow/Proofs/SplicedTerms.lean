import Mathlib.Data.List.Forall2
import SignalFlow.Proofs.SymmetricEquality

/-!
# Spliced terms

Sums and products are built with the operands of their direct operands spliced in.  A term
is spliced if all of its sums and products could have been built so: they have two operands
at least, and none that should have been spliced in.

Replacing variables rebuilds sums and products on the way, and what is put in place of a
variable may be spliced in.  Written as a replacement of all variables at once, two
replacements after each other are one, as long as what they put in is spliced; this is what
makes the order of replacements irrelevant.

Sums and products are treated alike, as the two kinds of compounds: `Compound.splice`
builds either from the parts that its operands are taken apart into.

**Results.**
* `Compound.map_splice`: a map that rebuilds compounds commutes with splicing.
* `spliced_substAll`: replacing variables by spliced terms gives a spliced term.
* `substAll_substAll`: two replacements after each other are one.
* `beq_substAll`: replacing variables in equal terms by equal terms gives equal terms.
-/

namespace SignalFlow
namespace Term

variable {R : Type}

/-- Every sum has two operands at least, none of which is a sum, and likewise for
products. -/
inductive Spliced : Term R → Prop
  | num (value : R) : Spliced (.num value)
  | var (name : String) : Spliced (.var name)
  | add {ts : List (Term R)} (hlength : 2 ≤ ts.length) (hflat : ∀ us, Term.add us ∉ ts)
      (hts : ∀ t ∈ ts, Spliced t) :
      Spliced (.add ts)
  | mul {ts : List (Term R)} (hlength : 2 ≤ ts.length) (hflat : ∀ us, Term.mul us ∉ ts)
      (hts : ∀ t ∈ ts, Spliced t) :
      Spliced (.mul ts)
  | neg {t : Term R} (ht : Spliced t) : Spliced (.neg t)
  | div {t u : Term R} (ht : Spliced t) (hu : Spliced u) : Spliced (.div t u)
  | pow {t u : Term R} (ht : Spliced t) (hu : Spliced u) : Spliced (.pow t u)

theorem Spliced.ite_var {r : Term R} (hr : r.Spliced) (x y : String) :
    (if y == x then r else .var y : Term R).Spliced := by
  split
  · exact hr
  · exact .var y

/-- The kinds of terms with any number of operands. -/
inductive Compound where
  | sum
  | product

namespace Compound

/-- The compound of its operands, as it is written. -/
def whole : Compound → List (Term R) → Term R
  | .sum => .add
  | .product => .mul

/-- The operands of a compound; any other term stands for itself. -/
def parts : Compound → Term R → List (Term R)
  | .sum => summands
  | .product => factors

/-- A single part, or a compound of two single parts or more. -/
def SplicedIn (c : Compound) (t : Term R) : Prop :=
  c.parts t = [t] ∨ ∃ ts, t = c.whole ts ∧ 2 ≤ ts.length ∧ ∀ p ∈ ts, c.parts p = [p]

variable {c : Compound} {t p : Term R} {ts us : List (Term R)}

@[simp] theorem parts_whole (c : Compound) (ts : List (Term R)) :
    c.parts (c.whole ts) = ts := by
  cases c <;> rfl

theorem parts_eq_singleton (h : ∀ us, t ≠ c.whole us) : c.parts t = [t] := by
  cases c with
  | sum =>
      cases t with
      | add us => exact absurd rfl (h us)
      | _ => rfl
  | product =>
      cases t with
      | mul us => exact absurd rfl (h us)
      | _ => rfl

theorem spliced_whole_iff : (c.whole ts).Spliced ↔
    2 ≤ ts.length ∧ (∀ us, c.whole us ∉ ts) ∧ ∀ t ∈ ts, t.Spliced := by
  cases c with
  | sum =>
      exact ⟨fun h => by
      cases h with | add hlength hflat hts => exact ⟨hlength, hflat, hts⟩,
      fun h => .add h.1 h.2.1 h.2.2⟩
  | product =>
      exact ⟨fun h => by
      cases h with | mul hlength hflat hts => exact ⟨hlength, hflat, hts⟩,
      fun h => .mul h.1 h.2.1 h.2.2⟩

theorem splicedIn_of_spliced (c : Compound) (h : t.Spliced) : c.SplicedIn t := by
  by_cases hwhole : ∃ us, t = c.whole us
  · obtain ⟨us, rfl⟩ := hwhole
    obtain ⟨hlength, hflat, _⟩ := spliced_whole_iff.mp h
    exact Or.inr ⟨us, rfl, hlength, fun p hp => parts_eq_singleton fun vs hvs =>
      hflat vs (hvs ▸ hp)⟩
  · exact Or.inl (parts_eq_singleton fun us hus => hwhole ⟨us, hus⟩)

theorem spliced_of_mem_parts (h : t.Spliced) (hp : p ∈ c.parts t) :
    p.Spliced ∧ ∀ us, p ≠ c.whole us := by
  by_cases hwhole : ∃ us, t = c.whole us
  · obtain ⟨us, rfl⟩ := hwhole
    obtain ⟨_, hflat, hts⟩ := spliced_whole_iff.mp h
    rw [parts_whole] at hp
    exact ⟨hts p hp, fun vs hvs => hflat vs (hvs ▸ hp)⟩
  · have hne : ∀ us, t ≠ c.whole us := fun us hus => hwhole ⟨us, hus⟩
    rw [parts_eq_singleton hne] at hp
    obtain rfl := List.mem_singleton.mp hp
    exact ⟨h, hne⟩

theorem SplicedIn.parts_ne_nil (h : c.SplicedIn t) : c.parts t ≠ [] := by
  rcases h with h | ⟨ts, rfl, hlength, _⟩
  · simp [h]
  · rw [parts_whole]
    exact List.ne_nil_of_length_pos (by omega)

theorem flatMap_parts_ne_nil (hts : ∀ t ∈ ts, c.SplicedIn t) (hne : ts ≠ []) :
    ts.flatMap c.parts ≠ [] := by
  obtain ⟨t, ht⟩ := List.exists_mem_of_ne_nil ts hne
  exact fun hnil => (hts t ht).parts_ne_nil (List.flatMap_eq_nil_iff.mp hnil t ht)

section Splicing

variable [Scalar R]

/-- What a compound without operands is. -/
def unit : Compound → Term R
  | .sum => .num 0
  | .product => .num 1

/-- The compound of the parts of all terms; a single part stands for itself. -/
def splice (c : Compound) (ts : List (Term R)) : Term R :=
  match ts.flatMap c.parts with
  | [] => c.unit
  | [t] => t
  | flat => c.whole flat

theorem splice_of_two_le (h : 2 ≤ (ts.flatMap c.parts).length) :
    c.splice ts = c.whole (ts.flatMap c.parts) := by
  unfold splice
  split
  · next heq => simp [heq] at h
  · next heq => simp [heq] at h
  · rfl

/-- A spliced compound is what its operands are spliced to. -/
theorem splice_of_spliced (h : (c.whole ts).Spliced) : c.splice ts = c.whole ts := by
  obtain ⟨hlength, hflat, _⟩ := spliced_whole_iff.mp h
  have hsingle : ∀ p ∈ ts, c.parts p = [p] := fun p hp => parts_eq_singleton fun us hus =>
    hflat us (hus ▸ hp)
  have heq : ts.flatMap c.parts = ts := by
    rw [List.flatMap_congr hsingle, List.flatMap_singleton']
  rw [splice_of_two_le (by rw [heq]; exact hlength), heq]

theorem SplicedIn.splice_singleton (h : c.SplicedIn t) : c.splice [t] = t := by
  rcases h with h | ⟨ts, rfl, hlength, _⟩
  · simp [splice, h]
  · rw [splice_of_two_le (by simpa using hlength)]
    simp

/-- What splicing gives: nothing to splice, one term, or a compound. -/
theorem splice_cases (hts : ∀ t ∈ ts, c.SplicedIn t) :
    (ts = [] ∧ c.splice ts = c.unit) ∨ (∃ t, ts = [t] ∧ c.splice ts = t) ∨
      (2 ≤ (ts.flatMap c.parts).length ∧ c.splice ts = c.whole (ts.flatMap c.parts)) := by
  match ts with
  | [] => exact Or.inl ⟨rfl, rfl⟩
  | [t] => exact Or.inr (Or.inl ⟨t, rfl, (hts t (by simp)).splice_singleton⟩)
  | t :: u :: rest =>
      have hlength : 2 ≤ ((t :: u :: rest).flatMap c.parts).length := by
        have ht := List.length_pos_of_ne_nil (hts t (by simp)).parts_ne_nil
        have hu := List.length_pos_of_ne_nil (hts u (by simp)).parts_ne_nil
        simp only [List.flatMap_cons, List.length_append]
        omega
      exact Or.inr (Or.inr ⟨hlength, splice_of_two_le hlength⟩)

/-- Splicing neither adds nor loses a part. -/
theorem parts_splice (hts : ∀ t ∈ ts, c.SplicedIn t) (hne : ts ≠ []) :
    c.parts (c.splice ts) = ts.flatMap c.parts := by
  rcases splice_cases hts with ⟨hnil, _⟩ | ⟨t, rfl, heq⟩ | ⟨_, heq⟩
  · exact absurd hnil hne
  · rw [heq]
    simp
  · rw [heq, parts_whole]

theorem spliced_splice (hts : ∀ t ∈ ts, t.Spliced) : (c.splice ts).Spliced := by
  rcases splice_cases fun t ht => c.splicedIn_of_spliced (hts t ht) with
    ⟨_, heq⟩ | ⟨t, rfl, heq⟩ | ⟨hlength, heq⟩
  · rw [heq]
    cases c <;> exact .num _
  · rw [heq]
    exact hts t (by simp)
  · have hmem : ∀ p ∈ ts.flatMap c.parts, p.Spliced ∧ ∀ us, p ≠ c.whole us := by
      intro p hp
      obtain ⟨t, ht, hp⟩ := List.mem_flatMap.mp hp
      exact spliced_of_mem_parts (hts t ht) hp
    rw [heq]
    exact spliced_whole_iff.mpr ⟨hlength, fun us hus => (hmem _ hus).2 us rfl, fun p hp =>
      (hmem p hp).1⟩

/-- A map that rebuilds compounds commutes with splicing. -/
theorem map_splice {f : Term R → Term R} (hunit : f c.unit = c.unit)
    (hwhole : ∀ ts, f (c.whole ts) = c.splice (ts.map f)) (hf : ∀ t, c.SplicedIn (f t))
    (hts : ∀ t ∈ ts, c.SplicedIn t) : f (c.splice ts) = c.splice (ts.map f) := by
  have heach : ∀ t ∈ ts, ((c.parts t).map f).flatMap c.parts = c.parts (f t) := by
    intro t ht
    rcases hts t ht with hone | ⟨us, rfl, hlength, _⟩
    · simp [hone]
    · have hne : us.map f ≠ [] :=
        List.ne_nil_of_length_pos (by rw [List.length_map]; omega)
      rw [hwhole, parts_whole, parts_splice (List.forall_mem_map.mpr fun u _ => hf u) hne]
  rcases splice_cases hts with ⟨rfl, heq⟩ | ⟨t, rfl, heq⟩ | ⟨_, heq⟩
  · rw [heq, hunit]
    rfl
  · rw [heq]
    exact (hf t).splice_singleton.symm
  · have hflat : ((ts.flatMap c.parts).map f).flatMap c.parts =
        (ts.map f).flatMap c.parts := by
      rw [List.map_flatMap, List.flatMap_assoc, List.flatMap_map]
      exact List.flatMap_congr heach
    rw [heq, hwhole, splice, splice, hflat]

end Splicing

end Compound

section Substitution

variable [Scalar R]

mutual

/-- Replace every variable, and rebuild sums and products on the way. -/
def substAll (σ : String → Term R) : Term R → Term R
  | .num v => .num v
  | .var x => σ x
  | .add ts => sum (substAllList σ ts)
  | .mul ts => product (substAllList σ ts)
  | .neg t => .neg (substAll σ t)
  | .div a b => .div (substAll σ a) (substAll σ b)
  | .pow a b => .pow (substAll σ a) (substAll σ b)

/-- The operands with every variable replaced in each. -/
def substAllList (σ : String → Term R) : List (Term R) → List (Term R)
  | [] => []
  | t :: ts => substAll σ t :: substAllList σ ts

end

variable {σ τ : String → Term R} {t u : Term R} {ts : List (Term R)}

theorem substAllList_eq_map (σ : String → Term R) (ts : List (Term R)) :
    substAllList σ ts = ts.map (substAll σ) := by
  induction ts with
  | nil => rfl
  | cons t ts ih => rw [substAllList, ih, List.map_cons]

@[simp] theorem substAll_num (σ : String → Term R) (v : R) :
    (Term.num v).substAll σ = .num v := by
  rw [substAll]

@[simp] theorem substAll_var (σ : String → Term R) (x : String) :
    (Term.var x).substAll σ = σ x := by
  rw [substAll]

@[simp] theorem substAll_add (σ : String → Term R) (ts : List (Term R)) :
    (Term.add ts).substAll σ = sum (ts.map (substAll σ)) := by
  rw [substAll, substAllList_eq_map]

@[simp] theorem substAll_mul (σ : String → Term R) (ts : List (Term R)) :
    (Term.mul ts).substAll σ = product (ts.map (substAll σ)) := by
  rw [substAll, substAllList_eq_map]

@[simp] theorem substAll_neg (σ : String → Term R) (t : Term R) :
    (Term.neg t).substAll σ = .neg (t.substAll σ) := by
  rw [substAll]

@[simp] theorem substAll_div (σ : String → Term R) (t u : Term R) :
    (Term.div t u).substAll σ = .div (t.substAll σ) (u.substAll σ) := by
  rw [substAll]

@[simp] theorem substAll_pow (σ : String → Term R) (t u : Term R) :
    (Term.pow t u).substAll σ = .pow (t.substAll σ) (u.substAll σ) := by
  rw [substAll]

/-- Replacing one variable is to keep all others. -/
theorem subst_eq_substAll (t : Term R) (x : String) (r : Term R) :
    t.subst x r = t.substAll fun y => if y == x then r else .var y := by
  induction t with
  | num v => simp [subst]
  | var y => simp [subst]
  | add ts ih => rw [subst, substList_eq_map, substAll_add, List.map_congr_left ih]
  | mul ts ih => rw [subst, substList_eq_map, substAll_mul, List.map_congr_left ih]
  | neg t ih => rw [subst, substAll_neg, ih]
  | div a b iha ihb => rw [subst, substAll_div, iha, ihb]
  | pow a b iha ihb => rw [subst, substAll_pow, iha, ihb]

/-- Only the variables of a term matter. -/
theorem substAll_congr (h : ∀ x, t.mentions x = true → σ x = τ x) :
    t.substAll σ = t.substAll τ := by
  induction t with
  | num v => simp
  | var y => simpa using h y (by simp)
  | add ts ih =>
      rw [substAll_add, substAll_add, List.map_congr_left fun t ht =>
        ih t ht fun x hx => h x ?_]
      exact mentions_add x ts ▸ List.any_eq_true.mpr ⟨t, ht, hx⟩
  | mul ts ih =>
      rw [substAll_mul, substAll_mul, List.map_congr_left fun t ht =>
        ih t ht fun x hx => h x ?_]
      exact mentions_mul x ts ▸ List.any_eq_true.mpr ⟨t, ht, hx⟩
  | neg t ih => rw [substAll_neg, substAll_neg, ih fun x hx => h x (by simpa using hx)]
  | div a b iha ihb =>
      rw [substAll_div, substAll_div, iha fun x hx => h x (by simp [hx]), ihb fun x hx =>
        h x (by simp [hx])]
  | pow a b iha ihb =>
      rw [substAll_pow, substAll_pow, iha fun x hx => h x (by simp [hx]), ihb fun x hx =>
        h x (by simp [hx])]

/-- Spliced terms in place of variables give a spliced term. -/
theorem spliced_substAll (hσ : ∀ x, (σ x).Spliced) (t : Term R) :
    (t.substAll σ).Spliced := by
  induction t with
  | num v => rw [substAll_num]; exact .num v
  | var x => rw [substAll_var]; exact hσ x
  | add ts ih =>
      rw [substAll_add]; exact Compound.sum.spliced_splice (List.forall_mem_map.mpr ih)
  | mul ts ih =>
      rw [substAll_mul]; exact Compound.product.spliced_splice (List.forall_mem_map.mpr ih)
  | neg t ih => rw [substAll_neg]; exact .neg ih
  | div a b iha ihb => rw [substAll_div]; exact .div iha ihb
  | pow a b iha ihb => rw [substAll_pow]; exact .pow iha ihb

theorem Spliced.subst {r : Term R} (hr : r.Spliced) (t : Term R) (x : String) :
    (t.subst x r).Spliced := by
  rw [subst_eq_substAll]
  exact spliced_substAll (hr.ite_var x) t

theorem substAll_whole (σ : String → Term R) (c : Compound) (ts : List (Term R)) :
    (c.whole ts).substAll σ = c.splice (ts.map (substAll σ)) := by
  cases c with
  | sum => exact substAll_add σ ts
  | product => exact substAll_mul σ ts

theorem substAll_splice (c : Compound) (hτ : ∀ x, (τ x).Spliced)
    (hts : ∀ t ∈ ts, t.Spliced) :
    (c.splice ts).substAll τ = c.splice (ts.map (substAll τ)) := by
  refine c.map_splice ?_ (substAll_whole τ c)
    (fun t => c.splicedIn_of_spliced (spliced_substAll hτ t))
    fun t ht => c.splicedIn_of_spliced (hts t ht)
  cases c <;> exact substAll_num τ _

/-- Two replacements by spliced terms after each other are one. -/
theorem substAll_substAll (hσ : ∀ x, (σ x).Spliced) (hτ : ∀ x, (τ x).Spliced)
    (t : Term R) : (t.substAll σ).substAll τ = t.substAll fun x => (σ x).substAll τ := by
  -- a compound: its operands, with their variables replaced, are spliced, and so can be
  -- taken one by one
  have hcompound : ∀ (c : Compound) (ts : List (Term R)),
      (∀ t ∈ ts, (t.substAll σ).substAll τ = t.substAll fun x => (σ x).substAll τ) →
        ((c.whole ts).substAll σ).substAll τ = (c.whole ts).substAll fun x =>
          (σ x).substAll τ := by
    intro c ts ih
    rw [substAll_whole, substAll_splice c hτ (List.forall_mem_map.mpr fun t _ =>
      spliced_substAll hσ t), List.map_map, substAll_whole]
    exact congrArg c.splice (List.map_congr_left ih)
  induction t with
  | num v => simp
  | var x => simp
  | add ts ih => exact hcompound .sum ts ih
  | mul ts ih => exact hcompound .product ts ih
  | neg t ih => simp [ih]
  | div a b iha ihb => simp [iha, ihb]
  | pow a b iha ihb => simp [iha, ihb]

/-- Variables in place of themselves leave a spliced term as it is. -/
theorem Spliced.substAll_var (h : t.Spliced) : t.substAll .var = t := by
  induction h with
  | num v => simp
  | var x => simp
  | add hlength hflat hts ih =>
      rw [substAll_add, List.map_congr_left ih, List.map_id']
      exact Compound.sum.splice_of_spliced (.add hlength hflat hts)
  | mul hlength hflat hts ih =>
      rw [substAll_mul, List.map_congr_left ih, List.map_id']
      exact Compound.product.splice_of_spliced (.mul hlength hflat hts)
  | neg _ ih => rw [substAll_neg, ih]
  | div _ _ iht ihu => rw [substAll_div, iht, ihu]
  | pow _ _ iht ihu => rw [substAll_pow, iht, ihu]

end Substitution

section Equality

theorem list_beq_iff {α : Type} [BEq α] {as bs : List α} :
    (as == bs) = true ↔ List.Forall₂ (fun a b => (a == b) = true) as bs := by
  induction as generalizing bs with
  | nil => cases bs <;> simp
  | cons a as ih =>
      cases bs with
      | nil => simp
      | cons b bs => rw [List.cons_beq_cons, Bool.and_eq_true, ih, List.forall₂_cons]

theorem div_beq_div [BEq R] (t u t' u' : Term R) :
    (Term.div t u == .div t' u') = (t == t' && u == u') := rfl

theorem pow_beq_pow [BEq R] (t u t' u' : Term R) :
    (Term.pow t u == .pow t' u') = (t == t' && u == u') := rfl

namespace Compound

theorem whole_beq_whole [BEq R] (c : Compound) (ts us : List (Term R)) :
    (c.whole ts == c.whole us) = (ts == us) := by
  cases c <;> exact beqList_eq ts us

theorem exists_of_whole_beq [BEq R] {c : Compound} {ts : List (Term R)} {u : Term R}
    (h : (c.whole ts == u) = true) : ∃ us, u = c.whole us ∧ (ts == us) = true := by
  cases c with
  | sum =>
      cases u with
      | add us => exact ⟨us, rfl, (whole_beq_whole .sum ts us).symm.trans h⟩
      | _ => exact absurd h Bool.false_ne_true
  | product =>
      cases u with
      | mul us => exact ⟨us, rfl, (whole_beq_whole .product ts us).symm.trans h⟩
      | _ => exact absurd h Bool.false_ne_true

theorem parts_beq [BEq R] [PartialEquivBEq R] (c : Compound) {t u : Term R}
    (h : (t == u) = true) : (c.parts t == c.parts u) = true := by
  by_cases ht : ∃ ts, t = c.whole ts
  · obtain ⟨ts, rfl⟩ := ht
    obtain ⟨us, rfl, htu⟩ := exists_of_whole_beq h
    rw [parts_whole, parts_whole]
    exact htu
  · have hu : ∀ us, u ≠ c.whole us := by
      rintro us rfl
      obtain ⟨ts, hts, _⟩ := exists_of_whole_beq ((beq_comm _ _).trans h)
      exact ht ⟨ts, hts⟩
    rw [parts_eq_singleton fun ts hts => ht ⟨ts, hts⟩, parts_eq_singleton hu]
    exact (Bool.and_true _).trans h

variable [Scalar R] [PartialEquivBEq R]

/-- Equal terms are spliced to equal compounds. -/
theorem splice_beq (c : Compound) {ts us : List (Term R)} (hne : ts.flatMap c.parts ≠ [])
    (h : (ts == us) = true) : (c.splice ts == c.splice us) = true := by
  have hflat : (ts.flatMap c.parts == us.flatMap c.parts) = true := by
    rw [list_beq_iff] at h ⊢
    exact List.rel_flatMap h fun t u htu => list_beq_iff.mp (c.parts_beq htu)
  unfold splice
  generalize ts.flatMap c.parts = as at hne hflat ⊢
  generalize us.flatMap c.parts = bs at hflat ⊢
  match as, bs with
  | [], _ => exact absurd rfl hne
  | _ :: _, [] => simp at hflat
  | [a], [b] => simpa using hflat
  | [_], _ :: _ :: _ => simp at hflat
  | _ :: _ :: _, [_] => simp at hflat
  | _ :: _ :: _, _ :: _ :: _ => exact (c.whole_beq_whole _ _).trans hflat

end Compound

variable [Scalar R] [PartialEquivBEq R] {σ τ : String → Term R} {t u : Term R}

theorem beq_substAll_whole (c : Compound) {ts : List (Term R)} (hσ : ∀ x, (σ x).Spliced)
    (hne : ts ≠ [])
    (ih : ∀ t ∈ ts, ∀ u, (t == u) = true → (t.substAll σ == u.substAll τ) = true)
    (h : (c.whole ts == u) = true) : ((c.whole ts).substAll σ == u.substAll τ) = true := by
  obtain ⟨us, rfl, hts⟩ := Compound.exists_of_whole_beq h
  have hmap : (ts.map (substAll σ) == us.map (substAll τ)) = true := by
    rw [list_beq_iff] at hts ⊢
    rw [List.forall₂_map_left_iff, List.forall₂_map_right_iff]
    have hboth := (List.forall₂_and_left ts us).mpr ⟨ih, hts⟩
    exact hboth.imp fun t u htu => htu.1 u htu.2
  have hspliced : ∀ t ∈ ts.map (substAll σ), c.SplicedIn t :=
    List.forall_mem_map.mpr fun t _ => c.splicedIn_of_spliced (spliced_substAll hσ t)
  rw [substAll_whole, substAll_whole]
  exact c.splice_beq (Compound.flatMap_parts_ne_nil hspliced (by simpa using hne)) hmap

/-- Equal terms in place of the variables of equal terms give equal terms. -/
theorem beq_substAll (ht : t.Spliced) (hσ : ∀ x, (σ x).Spliced) (htu : (t == u) = true)
    (h : ∀ x, t.mentions x = true → (σ x == τ x) = true) :
    (t.substAll σ == u.substAll τ) = true := by
  induction ht generalizing u with
  | num v =>
      cases u with
      | num w => simpa using htu
      | _ => exact absurd htu Bool.false_ne_true
  | var x =>
      cases u with
      | var y =>
          obtain rfl : x = y := LawfulBEq.eq_of_beq htu
          simpa using h x (by simp)
      | _ => exact absurd htu Bool.false_ne_true
  | @add ts hlength _ _ ih =>
      refine beq_substAll_whole .sum hσ (List.ne_nil_of_length_pos (by omega))
        (fun t ht u htu => ?_) htu
      refine ih t ht htu fun x hx => h x ?_
      rw [mentions_add]
      exact List.any_eq_true.mpr ⟨t, ht, hx⟩
  | @mul ts hlength _ _ ih =>
      refine beq_substAll_whole .product hσ (List.ne_nil_of_length_pos (by omega))
        (fun t ht u htu => ?_) htu
      refine ih t ht htu fun x hx => h x ?_
      rw [mentions_mul]
      exact List.any_eq_true.mpr ⟨t, ht, hx⟩
  | neg _ ih =>
      cases u with
      | neg u =>
          rw [substAll_neg, substAll_neg]
          exact ih htu fun x hx => h x (by simpa using hx)
      | _ => exact absurd htu Bool.false_ne_true
  | div _ _ iht ihu =>
      cases u with
      | div a b =>
          rw [div_beq_div, Bool.and_eq_true] at htu
          rw [substAll_div, substAll_div, div_beq_div, Bool.and_eq_true]
          exact ⟨iht htu.1 fun x hx => h x (by simp [hx]), ihu htu.2 fun x hx =>
            h x (by simp [hx])⟩
      | _ => exact absurd htu Bool.false_ne_true
  | pow _ _ iht ihu =>
      cases u with
      | pow a b =>
          rw [pow_beq_pow, Bool.and_eq_true] at htu
          rw [substAll_pow, substAll_pow, pow_beq_pow, Bool.and_eq_true]
          exact ⟨iht htu.1 fun x hx => h x (by simp [hx]), ihu htu.2 fun x hx =>
            h x (by simp [hx])⟩
      | _ => exact absurd htu Bool.false_ne_true

end Equality

end Term
end SignalFlow
