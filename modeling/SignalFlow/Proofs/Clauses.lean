import SignalFlow.Proofs.Truth
import SignalFlow.Satisfiability.NormalForm

/-!
# Clauses of a formula

The normal form with negations inside the relations is true where the formula is, or is not
if it is taken for the negation.  What it is built from is kept track of by `Positive`: a
formula of relations with a given property, joined by conjunction and disjunction only.

Spreading such a formula into clauses is described without a limit first (`spread`).  The
limit is compared with the numbers of clauses that turn up on the way, and `peak` is the
greatest of them.  It can be greater than the number of clauses in the end, since a false
part of a conjunction leaves no clause.

**Results.**
* `trueUnder_nnf`: the normal form means the formula or its negation.
* `clauses?_eq`: the clauses are those of `spread`, if `peak` stays within the limit.
* `exists_mem_spread`: a formula is true if all relations of one of its clauses are.
-/

namespace SignalFlow
namespace Formula

variable {R : Type}

mutual

/-- The relations of a formula, from left to right. -/
def relations : Formula R → List (Relation R)
  | .top => []
  | .bottom => []
  | .rel r => [r]
  | .all ps => relationsList ps
  | .any ps => relationsList ps
  | .not p => relations p
  | .implies p q => relations p ++ relations q

/-- The relations of all parts. -/
def relationsList : List (Formula R) → List (Relation R)
  | [] => []
  | p :: ps => relations p ++ relationsList ps

end

theorem relationsList_eq_flatMap (ps : List (Formula R)) :
    relationsList ps = ps.flatMap relations := by
  induction ps with
  | nil => simp [relationsList]
  | cons p ps ih => simp [relationsList, ih]

/-- Built by conjunction and disjunction from relations that are `good`. -/
inductive Positive (good : Relation R → Prop) : Formula R → Prop
  | top : Positive good .top
  | bottom : Positive good .bottom
  | rel {r : Relation R} (h : good r) : Positive good (.rel r)
  | all {ps : List (Formula R)} (h : ∀ p ∈ ps, Positive good p) : Positive good (.all ps)
  | any {ps : List (Formula R)} (h : ∀ p ∈ ps, Positive good p) : Positive good (.any ps)

variable {good : Relation R → Prop}

theorem Positive.of_all {ps : List (Formula R)} (h : Positive good (.all ps)) :
    ∀ p ∈ ps, Positive good p := by
  cases h with
  | all h => exact h

theorem Positive.of_any {ps : List (Formula R)} (h : Positive good (.any ps)) :
    ∀ p ∈ ps, Positive good p := by
  cases h with
  | any h => exact h

section NormalForm

variable [BEq R]

theorem positive_of_mem_insertLast {acc : List (Formula R)} {p : Formula R}
    (hacc : ∀ q ∈ acc, Positive good q) (hp : Positive good p) :
    ∀ q ∈ insertLast acc p, Positive good q := by
  intro q hq
  rcases mem_or_mem_of_mem_insertLast hq with hq | rfl
  · exact hacc q hq
  · exact hp

theorem positive_of_conjParts? {acc ps qs : List (Formula R)}
    (hacc : ∀ q ∈ acc, Positive good q) (hps : ∀ p ∈ ps, Positive good p)
    (h : conjParts? acc ps = some qs) : ∀ q ∈ qs, Positive good q := by
  fun_induction conjParts? acc ps with
  | case1 acc =>
      cases h
      exact hacc
  | case2 acc ps ih => exact ih hacc (fun p hp => hps p (by simp [hp])) h
  | case3 => cases h
  | case4 acc rs ps ih =>
      refine ih ?_ (fun p hp => hps p (by simp [hp])) h
      rw [List.forall_mem_append]
      exact ⟨hacc, (hps _ (by simp)).of_all⟩
  | case5 acc p ps _ _ _ ih =>
      exact ih (positive_of_mem_insertLast hacc (hps p (by simp)))
        (fun q hq => hps q (by simp [hq])) h

theorem positive_of_disjParts? {acc ps qs : List (Formula R)}
    (hacc : ∀ q ∈ acc, Positive good q) (hps : ∀ p ∈ ps, Positive good p)
    (h : disjParts? acc ps = some qs) : ∀ q ∈ qs, Positive good q := by
  fun_induction disjParts? acc ps with
  | case1 acc =>
      cases h
      exact hacc
  | case2 acc ps ih => exact ih hacc (fun p hp => hps p (by simp [hp])) h
  | case3 => cases h
  | case4 acc rs ps ih =>
      refine ih ?_ (fun p hp => hps p (by simp [hp])) h
      rw [List.forall_mem_append]
      exact ⟨hacc, (hps _ (by simp)).of_any⟩
  | case5 acc p ps _ _ _ ih =>
      exact ih (positive_of_mem_insertLast hacc (hps p (by simp)))
        (fun q hq => hps q (by simp [hq])) h

theorem positive_conj {ps : List (Formula R)} (h : ∀ p ∈ ps, Positive good p) :
    Positive good (conj ps) := by
  unfold conj
  split
  · exact .bottom
  · exact .top
  · next p hp => exact positive_of_conjParts? (by simp) h hp p (by simp)
  · next qs _ _ hp => exact .all (positive_of_conjParts? (by simp) h hp)

theorem positive_disj {ps : List (Formula R)} (h : ∀ p ∈ ps, Positive good p) :
    Positive good (disj ps) := by
  unfold disj
  split
  · exact .top
  · exact .bottom
  · next p hp => exact positive_of_disjParts? (by simp) h hp p (by simp)
  · next qs _ _ hp => exact .any (positive_of_disjParts? (by simp) h hp)

theorem nnfList_eq_map (negated : Bool) (ps : List (Formula R)) :
    nnfList negated ps = ps.map (nnf negated) := by
  induction ps with
  | nil => simp [nnfList]
  | cons p ps ih => simp [nnfList, ih]

/-- Negations end up inside the relations. -/
theorem positive_nnf (p : Formula R) (h : ∀ r ∈ p.relations, good r ∧ good r.negate)
    (negated : Bool) : Positive good (p.nnf negated) := by
  induction p generalizing negated with
  | top =>
      cases negated <;> simp only [nnf, Bool.false_eq_true, if_true, if_false] <;>
        constructor
  | bottom =>
      cases negated <;> simp only [nnf, Bool.false_eq_true, if_true, if_false] <;>
        constructor
  | rel r =>
      have hr := h r (by simp [relations])
      cases negated with
      | false => simpa [nnf] using Positive.rel hr.1
      | true => simpa [nnf] using Positive.rel hr.2
  | all ps ih =>
      have hparts : ∀ q ∈ ps.map (nnf negated), Positive good q := by
        rw [List.forall_mem_map]
        intro p hp
        refine ih p hp (fun r hr => h r ?_) negated
        rw [relations, relationsList_eq_flatMap]
        exact List.mem_flatMap.mpr ⟨p, hp, hr⟩
      rw [nnf, nnfList_eq_map]
      split
      · exact positive_disj hparts
      · exact positive_conj hparts
  | any ps ih =>
      have hparts : ∀ q ∈ ps.map (nnf negated), Positive good q := by
        rw [List.forall_mem_map]
        intro p hp
        refine ih p hp (fun r hr => h r ?_) negated
        rw [relations, relationsList_eq_flatMap]
        exact List.mem_flatMap.mpr ⟨p, hp, hr⟩
      rw [nnf, nnfList_eq_map]
      split
      · exact positive_conj hparts
      · exact positive_disj hparts
  | not p ih =>
      rw [nnf]
      exact ih (fun r hr => h r (by simpa [relations] using hr)) _
  | implies p q ihp ihq =>
      have hp : ∀ r ∈ p.relations, good r ∧ good r.negate :=
        fun r hr => h r (by simp [relations, hr])
      have hq : ∀ r ∈ q.relations, good r ∧ good r.negate :=
        fun r hr => h r (by simp [relations, hr])
      rw [nnf]
      split
      · exact positive_conj (by simp [ihp hp, ihq hq])
      · exact positive_disj (by simp [ihp hp, ihq hq])

/-- The normal form is true where the formula is, or where it is not if the negation was
asked for. -/
theorem trueUnder_nnf {atom : Relation R → Prop} (hatom : Respects atom)
    (hneg : ∀ r, atom r.negate ↔ ¬atom r) (p : Formula R) (negated : Bool) :
    (p.nnf negated).TrueUnder atom ↔ (negated = false ↔ p.TrueUnder atom) := by
  induction p generalizing negated with
  | top => cases negated <;> simp [nnf]
  | bottom => cases negated <;> simp [nnf]
  | rel r => cases negated <;> simp [nnf, hneg]
  | all ps ih =>
      rw [nnf, nnfList_eq_map]
      cases negated with
      | false =>
          simp only [Bool.false_eq_true, if_false, trueUnder_conj hatom,
            List.forall_mem_map, trueUnder_all, true_iff]
          exact forall₂_congr fun p hp => by simp [ih p hp]
      | true =>
          simp only [if_true, trueUnder_disj hatom, List.mem_map, exists_exists_and_eq_and,
            trueUnder_all, Bool.true_eq_false, false_iff, not_forall, exists_prop]
          exact exists_congr fun p => and_congr_right fun hp => by simp [ih p hp]
  | any ps ih =>
      rw [nnf, nnfList_eq_map]
      cases negated with
      | false =>
          simp only [Bool.false_eq_true, if_false, trueUnder_disj hatom, List.mem_map,
            exists_exists_and_eq_and, trueUnder_any, true_iff]
          exact exists_congr fun p => and_congr_right fun hp => by simp [ih p hp]
      | true =>
          simp only [if_true, trueUnder_conj hatom, List.forall_mem_map, trueUnder_any,
            Bool.true_eq_false, false_iff, not_exists, not_and]
          exact forall₂_congr fun p hp => by simp [ih p hp]
  | not p ih => cases negated <;> simp [nnf, ih]
  | implies p q ihp ihq =>
      cases negated with
      | false => simp [nnf, trueUnder_disj hatom, ihp, ihq, imp_iff_not_or]
      | true => simp [nnf, trueUnder_conj hatom, ihp, ihq]

end NormalForm

/-! ### Spreading -/

mutual

/-- The clauses of a formula without negation and implication, however many there are. -/
def spread : Formula R → List (Clause R)
  | .top => [[]]
  | .bottom => []
  | .rel r => [[r]]
  | .any ps => spreadAny ps
  | .all ps => spreadAll [[]] ps
  | .not _ => []
  | .implies _ _ => []

/-- The clauses of all parts. -/
def spreadAny : List (Formula R) → List (Clause R)
  | [] => []
  | p :: ps => spread p ++ spreadAny ps

/-- The clauses of `acc`, each joined to a clause of every part. -/
def spreadAll (acc : List (Clause R)) : List (Formula R) → List (Clause R)
  | [] => acc
  | p :: ps => spreadAll (acc.flatMap fun left => (spread p).map (left ++ ·)) ps

end

mutual

/-- The greatest number of clauses at any moment of the spreading. -/
def peak : Formula R → Nat
  | .top => 1
  | .bottom => 0
  | .rel _ => 1
  | .any ps => peakAny 0 ps
  | .all ps => peakAll 1 ps
  | .not _ => 0
  | .implies _ _ => 0

/-- The greatest number of clauses while those of the parts are added to `n` clauses. -/
def peakAny (n : Nat) : List (Formula R) → Nat
  | [] => n
  | p :: ps => max n (max (peak p) (peakAny (n + (spread p).length) ps))

/-- The greatest number of clauses while those of the parts are joined to `n` clauses. -/
def peakAll (n : Nat) : List (Formula R) → Nat
  | [] => n
  | p :: ps => max n (max (peak p) (peakAll (n * (spread p).length) ps))

end

theorem le_peakAny (n : Nat) (ps : List (Formula R)) : n ≤ peakAny n ps := by
  cases ps with
  | nil => simp [peakAny]
  | cons p ps =>
      rw [peakAny]
      omega

theorem le_peakAll (n : Nat) (ps : List (Formula R)) : n ≤ peakAll n ps := by
  cases ps with
  | nil => simp [peakAll]
  | cons p ps =>
      rw [peakAll]
      omega

variable {limit : Nat}

theorem anyClauses?_eq [BEq R] {ps : List (Formula R)}
    (ih : ∀ p ∈ ps, clauses? limit p = if p.peak ≤ limit then some p.spread else none)
    {acc : List (Clause R)} (hacc : acc.length ≤ limit) :
    anyClauses? limit acc ps =
      if peakAny acc.length ps ≤ limit then some (acc ++ spreadAny ps) else none := by
  induction ps generalizing acc with
  | nil => simp [anyClauses?, peakAny, spreadAny, hacc]
  | cons p ps ihps =>
      rw [anyClauses?, ih p (by simp)]
      by_cases hp : p.peak ≤ limit
      · rw [if_pos hp]
        by_cases hlen : (acc ++ p.spread).length ≤ limit
        · have hrest := ihps (fun q hq => ih q (by simp [hq])) hlen
          rw [List.length_append] at hrest
          simp only [Nat.not_lt.mpr hlen, if_false, hrest, peakAny, spreadAny,
            Nat.max_le, hacc, hp, true_and, List.append_assoc]
        · have hpeak := le_peakAny (acc.length + p.spread.length) ps
          rw [List.length_append] at hlen
          have hfar : ¬peakAny acc.length (p :: ps) ≤ limit := by
            rw [peakAny]
            omega
          simp [hfar, Nat.lt_of_not_le hlen]
      · have hfar : ¬peakAny acc.length (p :: ps) ≤ limit := by
          rw [peakAny]
          omega
        simp [hp, hfar]

theorem allClauses?_eq [BEq R] {ps : List (Formula R)}
    (ih : ∀ p ∈ ps, clauses? limit p = if p.peak ≤ limit then some p.spread else none)
    {acc : List (Clause R)} (hacc : acc.length ≤ limit) :
    allClauses? limit acc ps =
      if peakAll acc.length ps ≤ limit then some (spreadAll acc ps) else none := by
  induction ps generalizing acc with
  | nil => simp [allClauses?, peakAll, spreadAll, hacc]
  | cons p ps ihps =>
      have hjoined : (acc.flatMap fun left => p.spread.map (left ++ ·)).length =
          acc.length * p.spread.length := by
        simp [List.length_flatMap]
      rw [allClauses?, ih p (by simp)]
      by_cases hp : p.peak ≤ limit
      · rw [if_pos hp]
        by_cases hlen : acc.length * p.spread.length ≤ limit
        · have hrest := ihps (fun q hq => ih q (by simp [hq])) (hjoined ▸ hlen)
          rw [hjoined] at hrest
          simp only [Nat.not_lt.mpr hlen, if_false, hrest, peakAll, spreadAll,
            Nat.max_le, hacc, hp, true_and]
        · have hpeak := le_peakAll (acc.length * p.spread.length) ps
          have hfar : ¬peakAll acc.length (p :: ps) ≤ limit := by
            rw [peakAll]
            omega
          simp [hfar, Nat.lt_of_not_le hlen]
      · have hfar : ¬peakAll acc.length (p :: ps) ≤ limit := by
          rw [peakAll]
          omega
        simp [hp, hfar]

/-- The clauses are those of `spread`, unless there are too many on the way. -/
theorem clauses?_eq [BEq R] (hlimit : 1 ≤ limit) {p : Formula R} (hp : Positive good p) :
    clauses? limit p = if p.peak ≤ limit then some p.spread else none := by
  induction hp with
  | top => simp [clauses?, peak, spread, hlimit]
  | bottom => simp [clauses?, peak, spread]
  | rel h => simp [clauses?, peak, spread, hlimit]
  | all h ih =>
      rw [clauses?, allClauses?_eq ih (by simpa using hlimit), peak, spread]
      rfl
  | any h ih =>
      rw [clauses?, anyClauses?_eq ih (by simp), peak, spread]
      rfl

theorem mem_spreadAny {c : Clause R} {ps : List (Formula R)} :
    c ∈ spreadAny ps ↔ ∃ p ∈ ps, c ∈ p.spread := by
  induction ps with
  | nil => simp [spreadAny]
  | cons p ps ih => simp [spreadAny, ih]

/-- A clause of a conjunction is made of one clause of every part. -/
theorem exists_mem_spreadAll {atom : Relation R → Prop} {ps : List (Formula R)}
    {acc : List (Clause R)} :
    (∃ c ∈ spreadAll acc ps, ∀ r ∈ c, atom r) ↔
      (∃ c ∈ acc, ∀ r ∈ c, atom r) ∧ ∀ p ∈ ps, ∃ c ∈ p.spread, ∀ r ∈ c, atom r := by
  induction ps generalizing acc with
  | nil => simp [spreadAll]
  | cons p ps ih =>
      rw [spreadAll, ih, List.forall_mem_cons, ← and_assoc]
      refine and_congr_left fun _ => ?_
      constructor
      · rintro ⟨c, hc, hall⟩
        obtain ⟨left, hleft, hc⟩ := List.mem_flatMap.mp hc
        obtain ⟨right, hright, rfl⟩ := List.mem_map.mp hc
        rw [List.forall_mem_append] at hall
        exact ⟨⟨left, hleft, hall.1⟩, right, hright, hall.2⟩
      · rintro ⟨⟨left, hleft, hl⟩, right, hright, hr⟩
        refine ⟨left ++ right, ?_, List.forall_mem_append.mpr ⟨hl, hr⟩⟩
        exact List.mem_flatMap.mpr ⟨left, hleft, List.mem_map.mpr ⟨right, hright, rfl⟩⟩

/-- A formula is true if all relations of one of its clauses are. -/
theorem exists_mem_spread {atom : Relation R → Prop} {p : Formula R}
    (hp : Positive good p) : (∃ c ∈ p.spread, ∀ r ∈ c, atom r) ↔ p.TrueUnder atom := by
  induction hp with
  | top => simp [spread]
  | bottom => simp [spread]
  | rel h => simp [spread]
  | all h ih =>
      rw [spread, exists_mem_spreadAll, trueUnder_all]
      simpa using forall₂_congr ih
  | any h ih =>
      rw [spread, trueUnder_any]
      constructor
      · rintro ⟨c, hc, hall⟩
        obtain ⟨p, hp, hc⟩ := mem_spreadAny.mp hc
        exact ⟨p, hp, (ih p hp).mp ⟨c, hc, hall⟩⟩
      · rintro ⟨p, hp, htrue⟩
        obtain ⟨c, hc, hall⟩ := (ih p hp).mpr htrue
        exact ⟨c, mem_spreadAny.mpr ⟨p, hp, hc⟩, hall⟩

theorem good_of_mem_spreadAll {ps : List (Formula R)} {acc : List (Clause R)}
    (hacc : ∀ c ∈ acc, ∀ r ∈ c, good r) (hps : ∀ p ∈ ps, ∀ c ∈ p.spread, ∀ r ∈ c, good r) :
    ∀ c ∈ spreadAll acc ps, ∀ r ∈ c, good r := by
  induction ps generalizing acc with
  | nil => simpa [spreadAll] using hacc
  | cons p ps ih =>
      rw [spreadAll]
      refine ih ?_ (fun q hq => hps q (by simp [hq]))
      intro c hc
      obtain ⟨left, hleft, hc⟩ := List.mem_flatMap.mp hc
      obtain ⟨right, hright, rfl⟩ := List.mem_map.mp hc
      exact List.forall_mem_append.mpr ⟨hacc left hleft, hps p (by simp) right hright⟩

/-- The relations of the clauses are those that the formula is built from. -/
theorem good_of_mem_spread {p : Formula R} (hp : Positive good p) :
    ∀ c ∈ p.spread, ∀ r ∈ c, good r := by
  induction hp with
  | top => simp [spread]
  | bottom => simp [spread]
  | rel h => simpa [spread] using h
  | all h ih =>
      rw [spread]
      exact good_of_mem_spreadAll (by simp) ih
  | any h ih =>
      rw [spread]
      intro c hc
      obtain ⟨p, hp, hc⟩ := mem_spreadAny.mp hc
      exact ih p hp c hc

end Formula
end SignalFlow
