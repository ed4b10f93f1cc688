import Mathlib.Data.List.Chain
import SignalFlow.Proofs.ClosureIdempotence

/-!
# Which faults are reported

Closing refuses a list of definitions that gives a name two meanings, or in which
definitions depend on each other in a circle.  Both faults are stated here without the
search: two entries of the same kind have the same name, and a position is connected to
itself by dependencies.

The search for a circle goes along a path of positions, each of which depends on the next.
It reports the part of the path from the position that it meets again, so that what it
reports is closed.

**Results.**
* `conflict?_eq_some_iff`: a conflict is found if and only if two entries clash.
* `checkFrom_error`, `checkAll_some`: what a search reports is a closed chain of
  dependencies.
* `close_error_iff`: closing reports a conflict, or else a cycle, exactly where there is
  one.
-/

open Relation (TransGen ReflTransGen)

namespace SignalFlow
namespace Definition

variable {R : Type}

section Conflicts

variable [BEq R]

/-- Two different entries that are both widths, or both not, have the same name. -/
def Clashes (ds : List (Definition R)) : Prop :=
  ∃ (i j : Nat) (d e : Definition R), i < j ∧ ds[i]? = some d ∧ ds[j]? = some e ∧
    (d == e) = false ∧ d.isWidth = e.isWidth ∧ d.name = e.name

theorem conflicts_eq_true {d e : Definition R} :
    conflicts d e = true ↔ (d == e) = false ∧ d.isWidth = e.isWidth ∧ d.name = e.name := by
  simp only [conflicts, Bool.and_eq_true, beq_iff_eq, Bool.not_eq_true']
  tauto

theorem clashes_cons {d : Definition R} {ds : List (Definition R)} :
    Clashes (d :: ds) ↔ (∃ e ∈ ds, conflicts d e = true) ∨ Clashes ds := by
  constructor
  · rintro ⟨i, j, d', e, hlt, hi, hj, hclash⟩
    obtain ⟨j, rfl⟩ : ∃ j', j = j' + 1 := ⟨j - 1, by omega⟩
    rw [List.getElem?_cons_succ] at hj
    cases i with
    | zero =>
        obtain rfl : d = d' := by simpa using hi
        exact Or.inl ⟨e, List.mem_of_getElem? hj, conflicts_eq_true.mpr hclash⟩
    | succ i => exact Or.inr ⟨i, j, d', e, by omega, by simpa using hi, hj, hclash⟩
  · rintro (⟨e, he, hclash⟩ | ⟨i, j, d', e, hlt, hi, hj, hclash⟩)
    · obtain ⟨j, hj⟩ := List.mem_iff_getElem?.mp he
      exact ⟨0, j + 1, d, e, by omega, rfl, by simpa using hj, conflicts_eq_true.mp hclash⟩
    · exact ⟨i + 1, j + 1, d', e, by omega, by simpa using hi, by simpa using hj, hclash⟩

/-- A conflict is found if and only if two entries clash. -/
theorem conflict?_eq_some_iff {ds : List (Definition R)} : (∃ x, conflict? ds = some x) ↔
      Clashes ds := by
  induction ds with
  | nil =>
      refine iff_of_false (by simp [conflict?]) ?_
      rintro ⟨i, j, d, e, _, hi, _⟩
      simp at hi
  | cons d ds ih =>
      rw [clashes_cons, ← ih]
      cases hany : ds.any (conflicts d) with
      | true =>
          refine iff_of_true ⟨d.name, by simp [conflict?, hany]⟩ (Or.inl ?_)
          exact List.any_eq_true.mp hany
      | false =>
          have hno : ¬ ∃ e ∈ ds, conflicts d e = true := by
            rw [← List.any_eq_true, hany]
            simp
          simp only [conflict?, hany, Bool.false_eq_true, if_false, hno, false_or]

end Conflicts

section Cycles

/-- The definition at position `j` depends on the one at position `i`. -/
def DependsAt (ds : List (Definition R)) (j i : Nat) : Prop :=
  ∃ d e, ds[j]? = some d ∧ ds[i]? = some e ∧ d.dependsOn e = true

/-- Positions of which each depends on the next, and that end where they start. -/
structure ClosedChain (ds : List (Definition R)) (positions : List Nat) : Prop where
  chain : positions.IsChain (DependsAt ds)
  length : 2 ≤ positions.length
  closed : positions.head? = positions.getLast?

variable {ds : List (Definition R)}

theorem ClosedChain.exists_transGen {positions : List Nat} (h : ClosedChain ds positions) :
    ∃ i, TransGen (DependsAt ds) i i := by
  obtain ⟨hchain, hlength, hclosed⟩ := h
  match positions with
  | [] => simp at hlength
  | [_] => simp at hlength
  | i :: j :: rest =>
      rw [List.isChain_cons_cons] at hchain
      have hlast : (j :: rest).getLast (by simp) = i := by
        simpa [List.getLast?_eq_some_getLast] using hclosed.symm
      have hreach : ∀ k ∈ j :: rest, ReflTransGen (DependsAt ds) k i :=
        hchain.2.backwards_induction (fun k => ReflTransGen (DependsAt ds) k i) _
          (fun _ _ hstep hrest => ReflTransGen.head hstep hrest) fun _ =>
            hlast ▸ ReflTransGen.refl
      exact ⟨i, TransGen.head' hchain.1 (hreach j (by simp))⟩

/-- The path from a position that is met again, up to that position. -/
theorem closedChain_of_mem {path : List Nat} {i j : Nat}
    (hpath : path.IsChain (DependsAt ds)) (hlast : path.getLast? = some j)
    (hdep : DependsAt ds j i) (hi : i ∈ path) :
    ClosedChain ds (path.dropWhile (fun k => k != i) ++ [i]) := by
  obtain ⟨before, after, rfl, hdrop⟩ := exists_eq_append_dropWhile hi
  rw [hdrop]
  refine ⟨?_, by simp, by rw [List.getLast?_concat]; rfl⟩
  refine List.isChain_append.mpr ⟨(List.isChain_append.mp hpath).2.1,
    List.isChain_singleton i, ?_⟩
  have hlast' : (i :: after).getLast? = some j := by simpa using hlast
  simpa [hlast'] using hdep

theorem checkEach_error {descend : Nat → List Nat → List Nat →
      Except (List Nat) (List Nat)} {path : List Nat} {j : Nat}
    (hpath : path.IsChain (DependsAt ds)) (hlast : path.getLast? = some j)
    (hdescend : ∀ i clear cycle, DependsAt ds j i → descend i path clear = .error cycle →
      ClosedChain ds cycle)
    {todo clear cycle : List Nat} (htodo : ∀ i ∈ todo, DependsAt ds j i)
    (h : checkEach descend path todo clear = .error cycle) : ClosedChain ds cycle := by
  induction todo generalizing clear with
  | nil => cases h
  | cons i rest ih =>
      have hrest : ∀ k ∈ rest, DependsAt ds j k := fun k hk =>
        htodo k (List.mem_cons_of_mem _ hk)
      simp only [checkEach] at h
      split at h
      · exact ih hrest h
      · split at h
        · next hi =>
            cases h
            exact closedChain_of_mem hpath hlast (htodo i (by simp)) (by simpa using hi)
        · split at h
          · next hfirst =>
              cases h
              exact hdescend i clear _ (htodo i (by simp)) hfirst
          · exact ih hrest h

/-- A search reports a closed chain, whatever path of dependencies leads to its start. -/
theorem checkFrom_error {depth j : Nat} {path clear cycle : List Nat}
    (hpath : (path ++ [j]).IsChain (DependsAt ds))
    (h : checkFrom ds depth j path clear = .error cycle) : ClosedChain ds cycle := by
  induction depth generalizing j path clear cycle with
  | zero => cases h
  | succ depth ih =>
      simp only [checkFrom] at h
      split at h
      · next heach =>
          cases h
          refine checkEach_error hpath (by simp) ?_
            (fun i hi => mem_dependencies.mp hi) heach
          intro i clear' cycle' hdep hfrom
          refine ih ?_ hfrom
          exact List.isChain_append.mpr
            ⟨hpath, List.isChain_singleton i, by simpa using hdep⟩
      · cases h

theorem checkAll_some {todo clear cycle : List Nat}
    (h : checkAll ds todo clear = some cycle) : ClosedChain ds cycle := by
  induction todo generalizing clear with
  | nil => cases h
  | cons j rest ih =>
      simp only [checkAll] at h
      split at h
      · exact ih h
      · split at h
        · next hfrom =>
            cases h
            exact checkFrom_error (List.isChain_singleton j) hfrom
        · exact ih h

/-- Where something falls along every dependency, nothing depends on itself. -/
theorem not_transGen_of_falls (f : Nat → Nat)
    (hf : ∀ j i, DependsAt ds j i → f i < f j) (i : Nat) :
    ¬ TransGen (DependsAt ds) i i := by
  have hfalls : ∀ {j k}, TransGen (DependsAt ds) j k → f k < f j := by
    intro j k hjk
    induction hjk with
    | single hstep => exact hf _ _ hstep
    | tail _ hstep ih => exact lt_trans (hf _ _ hstep) ih
  exact fun hloop => Nat.lt_irrefl _ (hfalls hloop)

theorem not_transGen_of_cycle? (h : cycle? ds = none) (i : Nat) :
    ¬ TransGen (DependsAt ds) i i := by
  obtain ⟨rank, hrank⟩ := exists_rank_of_cycle? h
  refine not_transGen_of_falls rank (fun j i hdep => ?_) i
  obtain ⟨d, e, hd, he, hde⟩ := hdep
  exact hrank i j d e hd he hde

/-- A rank of names that falls along every dependency rules out a cycle. -/
theorem cycle?_eq_none_of_rank (rank : String → Nat)
    (h : ∀ d ∈ ds, ∀ e ∈ ds, d.dependsOn e = true → rank e.name < rank d.name) :
    cycle? ds = none := by
  by_contra hsome
  obtain ⟨names, hnames⟩ := Option.ne_none_iff_exists'.mp hsome
  obtain ⟨positions, hpositions, _⟩ := Option.map_eq_some_iff.mp hnames
  obtain ⟨i, hloop⟩ := (checkAll_some hpositions).exists_transGen
  refine not_transGen_of_falls (fun i => rank (ds.getD i default).name)
    (fun j i hdep => ?_) i hloop
  obtain ⟨d, e, hd, he, hde⟩ := hdep
  simpa [hd, he] using h d (List.mem_of_getElem? hd) e (List.mem_of_getElem? he) hde

theorem ClosedChain.lt {positions : List Nat} (h : ClosedChain ds positions) :
    ∀ i ∈ positions, i < ds.length := by
  obtain ⟨hchain, hlength, _⟩ := h
  refine hchain.induction (fun i => i < ds.length) _ ?_ fun hne => ?_
  · rintro j i ⟨_, _, _, hi, _⟩ _
    exact (List.getElem?_eq_some_iff.mp hi).1
  · match positions with
    | [] => simp at hlength
    | [_] => simp at hlength
    | i :: j :: rest =>
        obtain ⟨_, _, hi, _⟩ := (List.isChain_cons_cons.mp hchain).1
        exact (List.getElem?_eq_some_iff.mp hi).1

/-- The names that are reported are those of definitions that depend on each other in
turn. -/
theorem exists_members_of_cycle? {names : List String} (h : cycle? ds = some names) :
    ∃ members : List (Definition R), members ⊆ ds ∧ names = members.map name ∧
      2 ≤ members.length ∧
      members.head? = members.getLast? ∧ members.IsChain fun d e =>
        d.dependsOn e = true := by
  obtain ⟨positions, hpositions, rfl⟩ := Option.map_eq_some_iff.mp h
  have hclosed := checkAll_some hpositions
  have hget : ∀ i ∈ positions, ds[i]? = some (ds.getD i default) := by
    intro i hi
    simp [hclosed.lt i hi]
  refine ⟨positions.map fun i => ds.getD i default, ?_, ?_, ?_, ?_, ?_⟩
  · intro d hd
    obtain ⟨i, hi, rfl⟩ := List.mem_map.mp hd
    exact List.mem_of_getElem? (hget i hi)
  · rw [List.map_map, ← List.filterMap_eq_map]
    refine List.filterMap_congr fun i hi => ?_
    rw [hget i hi]
    rfl
  · simpa using hclosed.length
  · simp [hclosed.closed]
  · rw [List.isChain_map]
    refine hclosed.chain.imp_of_mem_imp fun j i hj hi hdep => ?_
    obtain ⟨d, e, hd, he, hde⟩ := hdep
    rw [hget j hj, Option.some.injEq] at hd
    rw [hget i hi, Option.some.injEq] at he
    rw [hd, he]
    exact hde

end Cycles

variable [Scalar R]

theorem close_eq_conflict_iff {ds : List (Definition R)} {x : String} :
    close ds = .error (.conflict x) ↔ conflict? (distinct ds) = some x := by
  simp only [close]
  split
  · next heq => simp [heq]
  · next heq =>
      split <;> simp [heq]

theorem close_eq_cycle_iff {ds : List (Definition R)} {names : List String} :
    close ds = .error (.cycle names) ↔ conflict? (distinct ds) = none ∧
      cycle? (distinct ds) = some names := by
  simp only [close]
  split
  · next heq => simp [heq]
  · next heq =>
      split
      · next hcycle => simp [heq, hcycle]
      · next hcycle => simp [heq, hcycle]

/-- **Faults are reported exactly.**  Repetitions apart, closing reports a conflict if and
only if two definitions clash.  If none do, it reports a cycle if and only if some
definition depends on itself, also through others.  The reported names are those of
definitions each of which depends on the next; there are two at least, and the first is
repeated at the end. -/
theorem close_error_iff (ds : List (Definition R)) :
    ((∃ x, close ds = .error (.conflict x)) ↔ Clashes (distinct ds)) ∧
      (¬ Clashes (distinct ds) →
        ((∃ names, close ds = .error (.cycle names)) ↔
          ∃ i, TransGen (DependsAt (distinct ds)) i i)) ∧
      ∀ names, close ds = .error (.cycle names) →
        2 ≤ names.length ∧ names.head? = names.getLast? ∧
          ∃ members : List (Definition R), members ⊆ distinct ds ∧
            names = members.map name ∧
            members.IsChain fun d e => d.dependsOn e = true := by
  refine ⟨?_, fun hclear => ?_, fun names h => ?_⟩
  · simp only [close_eq_conflict_iff, conflict?_eq_some_iff]
  · have hnone : conflict? (distinct ds) = none := by
      rw [← conflict?_eq_some_iff] at hclear
      exact Option.eq_none_iff_forall_ne_some.mpr fun x hx => hclear ⟨x, hx⟩
    simp only [close_eq_cycle_iff, hnone, true_and]
    constructor
    · rintro ⟨names, h⟩
      obtain ⟨positions, hpositions, _⟩ := Option.map_eq_some_iff.mp h
      exact (checkAll_some hpositions).exists_transGen
    · rintro ⟨i, hi⟩
      refine Option.ne_none_iff_exists'.mp fun h => ?_
      exact not_transGen_of_cycle? h i hi
  · obtain ⟨members, hsub, rfl, hlength, hclosed, hchain⟩ :=
      exists_members_of_cycle? (close_eq_cycle_iff.mp h).2
    exact ⟨by simpa using hlength, by simp [hclosed], members, hsub, rfl, hchain⟩

/-- A circle through a guard and an element of a vector, with a width and a repeated
definition beside it. -/
def crossed : List (Definition Float) :=
  [.simple "a" (.add [.var "b", .num 1]),
    .cases "b" [(.compare (.element "c" 1) .lt (.num 0), .num 0),
      (.compare (.element "c" 1) .ge (.num 0), .num 1)],
    .vector "c" [.num 0, .neg (.var "a")], .width "c" 2,
      .simple "a" (.add [.var "b", .num 1])]

theorem close_error_iff_crossed :
    close crossed = .error (.cycle ["a", "b", "c", "a"]) ∧ ¬ Clashes (distinct crossed) ∧
      (∃ i, TransGen (DependsAt (distinct crossed)) i i) ∧
      (∃ members : List (Definition Float), members ⊆ distinct crossed ∧
        ["a", "b", "c", "a"] = members.map name ∧
        members.IsChain fun d e => d.dependsOn e = true) ∧
      Clashes (distinct (.simple "c" (.num 0) :: crossed)) := by
  have hcycle : close crossed = .error (.cycle ["a", "b", "c", "a"]) :=
    close_eq_cycle_iff.mpr ⟨by decide +kernel, by decide +kernel⟩
  obtain ⟨hconflict, hiff, hreport⟩ := close_error_iff crossed
  have hclear : ¬ Clashes (distinct crossed) := by
    rw [← hconflict]
    rintro ⟨x, hx⟩
    rw [hcycle] at hx
    cases hx
  refine ⟨hcycle, hclear, (hiff hclear).mp ⟨_, hcycle⟩, (hreport _ hcycle).2.2, ?_⟩
  exact (close_error_iff _).1.mp ⟨"c", close_eq_conflict_iff.mpr (by decide +kernel)⟩

end Definition
end SignalFlow
