import Mathlib
import SignalFlow.Proofs.ClosureMeaning
import SignalFlow.Proofs.SymmetricEquality

/-!
# Closing closed definitions

Closing drops repetitions, looks for conflicts and for cycles, lifts names to vectors and
inlines.  On its own result, for definitions without vectors, each of these stages does
nothing: the names are distinct, so there is no repetition and no conflict; no definition
uses a defined name, so there is no cycle and nothing to inline.

**Results.**
* `map_name_close`: the closed form defines every name once, in the order of first
  occurrence.
* `cycle?_of_independent`: definitions that do not depend on each other have no cycle.
* `close_closed`: the closed form is independent, and closing it again leaves it as it is.
-/

namespace SignalFlow

section FirstOccurrences

variable {α β : Type} [BEq α] [BEq β]

theorem prefix_foldl_insertLast (xs ys : List α) : ys <+: xs.foldl insertLast ys := by
  induction xs generalizing ys with
  | nil => exact List.prefix_refl ys
  | cons x xs ih =>
      refine List.IsPrefix.trans ?_ (ih (insertLast ys x))
      unfold insertLast
      split
      · exact List.prefix_refl ys
      · exact List.prefix_append ys [x]

/-- First occurrences, counted on top of those that are there. -/
theorem foldl_insertLast_eq_append [LawfulBEq α] (xs ys : List α) :
    xs.foldl insertLast ys = ys ++ (xs.filter fun x => !ys.contains x).eraseDups := by
  induction xs generalizing ys with
  | nil => simp
  | cons x xs ih =>
      rw [List.foldl_cons, ih]
      cases hx : ys.contains x with
      | true => rw [insertLast_of_contains hx, List.filter_cons_of_neg (by rw [hx]; simp)]
      | false =>
          rw [insertLast_of_not_contains hx, List.filter_cons_of_pos (by rw [hx]; rfl),
            List.eraseDups_cons, List.filter_filter, List.append_assoc,
            List.singleton_append]
          congr 3
          refine List.filter_congr fun y _ => ?_
          rw [Bool.eq_iff_iff]
          simp [and_comm]

theorem distinct_eq_eraseDups [LawfulBEq α] (xs : List α) :
    distinct xs = xs.eraseDups := by
  rw [distinct, foldl_insertLast_eq_append]
  simp

theorem Unrepeated.distinct (h : ∀ a b : α, (a == b) = (b == a)) (xs : List α) :
    Unrepeated (distinct xs) := by
  have hfold : ∀ ys, Unrepeated ys → Unrepeated (xs.foldl SignalFlow.insertLast ys) := by
    induction xs with
    | nil => exact fun ys hys => hys
    | cons x xs ih => exact fun ys hys => ih _ (hys.insertLast h x)
  exact hfold [] List.Pairwise.nil

theorem distinct_of_unrepeated {xs : List α} (h : Unrepeated xs) : distinct xs = xs := by
  have hfold : ∀ ys, Unrepeated (ys ++ xs) → xs.foldl insertLast ys = ys ++ xs := by
    induction xs with
    | nil => simp
    | cons x xs ih =>
        intro ys hys
        have hnew : ys.contains x = false := by
          by_contra hx
          obtain ⟨y, hy, hxy⟩ := List.contains_iff_exists_mem_beq.mp (by simpa using hx)
          have hne := (List.pairwise_append.mp hys).2.2 y hy x (by simp)
          simp [hne.2] at hxy
        rw [List.foldl_cons, insertLast_of_not_contains hnew,
          ih (List.Pairwise.of_cons h) _ (by simpa using hys)]
        simp
  exact hfold [] h

/-- Where first occurrences have distinct values, they are the first occurrences of the
values. -/
theorem map_distinct [LawfulBEq β] {f : α → β} (hf : ∀ a b, (a == b) = true → f a = f b)
    {xs : List α} (hnodup : ((distinct xs).map f).Nodup) :
    (distinct xs).map f = distinct (xs.map f) := by
  have hfold : ∀ ys, ((xs.foldl insertLast ys).map f).Nodup →
      (xs.foldl insertLast ys).map f = (xs.map f).foldl insertLast (ys.map f) := by
    clear hnodup
    induction xs with
    | nil => exact fun ys _ => rfl
    | cons x xs ih =>
        intro ys hys
        rw [List.map_cons, List.foldl_cons, List.foldl_cons, ih _ hys]
        congr 1
        cases hx : ys.contains x with
        | true =>
            obtain ⟨y, hy, hxy⟩ := List.contains_iff_exists_mem_beq.mp hx
            have hmem : (ys.map f).contains (f x) = true := by
              simpa using ⟨y, hy, (hf x y hxy).symm⟩
            rw [insertLast_of_contains hx, insertLast_of_contains hmem]
        | false =>
            rw [List.foldl_cons, insertLast_of_not_contains hx] at hys
            have hsub := (prefix_foldl_insertLast xs (ys ++ [x])).sublist.map f
            have hnew : f x ∉ ys.map f := by
              have hnodup := hys.sublist hsub
              rw [List.map_append, List.map_singleton] at hnodup
              exact fun hmem => (List.nodup_append.mp hnodup).2.2 _ hmem _ (by simp) rfl
            rw [insertLast_of_not_contains hx,
              insertLast_of_not_contains (by simpa using hnew), List.map_append,
              List.map_singleton]
  exact hfold [] hnodup

end FirstOccurrences

namespace Definition

variable {R : Type}

section Independence

/-- A search finds no cycle among definitions that do not depend on each other. -/
theorem cycle?_of_independent {ds : List (Definition R)}
    (h : ∀ d ∈ ds, ∀ e ∈ ds, d.dependsOn e = false) : cycle? ds = none := by
  have hdeps : ∀ j, dependencies ds j = [] := by
    intro j
    refine List.eq_nil_iff_forall_not_mem.mpr fun i hi => ?_
    obtain ⟨d, e, hd, he, hdep⟩ := mem_dependencies.mp hi
    rw [h d (List.mem_of_getElem? hd) e (List.mem_of_getElem? he)] at hdep
    cases hdep
  have hfrom : ∀ depth j clear, ∃ clear', checkFrom ds depth j [] clear = .ok clear' := by
    intro depth j clear
    cases depth with
    | zero => exact ⟨clear, rfl⟩
    | succ depth => exact ⟨clear ++ [j], by simp [checkFrom, hdeps, checkEach]⟩
  have hall : ∀ todo clear, checkAll ds todo clear = none := by
    intro todo
    induction todo with
    | nil => exact fun _ => rfl
    | cons j rest ih =>
        intro clear
        obtain ⟨clear', hok⟩ := hfrom ds.length j clear
        simp only [checkAll, hok, ih, ite_self]
  rw [cycle?, hall, Option.map_none]

end Independence

section Names

variable [BEq R]

theorem conflict?_of_nodup {ds : List (Definition R)} (h : (ds.map name).Nodup) :
    conflict? ds = none := by
  induction ds with
  | nil => rfl
  | cons d ds ih =>
      rw [List.map_cons, List.nodup_cons] at h
      have hno : ds.any (conflicts d) = false := by
        rw [List.any_eq_false]
        intro e he
        have hne : d.name ≠ e.name := fun heq => h.1 (heq ▸ List.mem_map_of_mem he)
        simp [conflicts, hne]
      simp [conflict?, hno, ih h.2]

theorem unrepeated_of_nodup {ds : List (Definition R)} (h : (ds.map name).Nodup) :
    Unrepeated ds := by
  refine (List.pairwise_map.mp h).imp fun {d e} hne => ⟨?_, ?_⟩
  · exact Bool.eq_false_iff.mpr fun heq => hne (name_eq_of_beq heq)
  · exact Bool.eq_false_iff.mpr fun heq => hne (name_eq_of_beq heq).symm

end Names

variable [Scalar R]

/-- Distinct definitions without conflicts have distinct names. -/
theorem nodup_name_distinct [PartialEquivBEq R] {ds : List (Definition R)}
    (hscalar : ∀ d ∈ ds, d.IsScalar) (hconflict : conflict? (distinct ds) = none) :
    ((distinct ds).map name).Nodup := by
  refine List.pairwise_map.mpr ?_
  have hpairs :=
    (pairwise_of_conflict? hconflict).and (Unrepeated.distinct Definition.beq_comm ds)
  refine hpairs.imp_of_mem fun {d e} hd he hde heq => ?_
  obtain ⟨hno, hne, _⟩ := hde
  have hd' := isWidth_of_isScalar (hscalar d (mem_of_mem_distinct hd))
  have he' := isWidth_of_isScalar (hscalar e (mem_of_mem_distinct he))
  simp [conflicts, hd', he', heq, hne] at hno

/-- A closed form has the names of the list, each once and in the order of first
occurrence. -/
theorem map_name_close [PartialEquivBEq R] {ds closed : List (Definition R)}
    (hscalar : ∀ d ∈ ds, d.IsScalar) (hname : ∀ d ∈ ds, PlainName d.name)
    (h : close ds = .ok closed) :
    (closed.map name).Nodup ∧ closed.map name = (ds.map name).eraseDups ∧
      closeStep? closed = none := by
  have hnodup := nodup_name_distinct hscalar (close_eq_ok h).1
  obtain ⟨last, rank, _, hnone, rfl, hlast⟩ := exists_last_of_close hscalar hname h
  have hlastNodup : (last.map name).Nodup := hlast.names_eq ▸ hnodup
  rw [distinct_of_unrepeated (unrepeated_of_nodup hlastNodup)]
  refine ⟨hlastNodup, ?_, hnone⟩
  rw [hlast.names_eq, map_distinct (fun _ _ => name_eq_of_beq) hnodup,
    distinct_eq_eraseDups]

/-- **Closing is idempotent.**  The closed form of definitions without vectors defines each
of their names once, in the order of first occurrence.  Its definitions depend on none of
each other and use none of the names.  Closing it again finds no fault and has no step to
take. -/
theorem close_closed [PartialEquivBEq R] {ds closed : List (Definition R)}
    (hscalar : ∀ d ∈ ds, d.IsScalar) (hname : ∀ d ∈ ds, PlainName d.name)
    (h : close ds = .ok closed) :
    closed.map name = (ds.map name).eraseDups ∧
      (∀ d ∈ closed, ∀ e ∈ closed, d.dependsOn e = false) ∧
      (∀ d ∈ closed, ∀ x ∈ ds.map name, d.mentions x = false) ∧
      closeStep? closed = none ∧ close closed = .ok closed := by
  obtain ⟨_, _, _, hform⟩ := closedForm_of_close hscalar hname h
  obtain ⟨hnodup, hnames, hnone⟩ := map_name_close hscalar hname h
  have hindependent : ∀ d ∈ closed, ∀ e ∈ closed, d.dependsOn e = false := by
    intro d hd e he
    rw [dependsOn_of_isScalar (hform.scalar d hd) (hform.scalar e he)]
    exact hform.not_mentions d hd e.name
      ((hform.mem_names_iff e.name).mp (List.mem_map_of_mem he))
  have hplain : ∀ d ∈ closed, PlainName d.name := by
    intro d hd
    obtain ⟨e, he, heq⟩ :=
      List.mem_map.mp ((hform.mem_names_iff d.name).mp (List.mem_map_of_mem hd))
    exact heq ▸ hname e he
  refine ⟨hnames, hindependent, hform.not_mentions, hnone, ?_⟩
  have hdistinct : distinct closed = closed :=
    distinct_of_unrepeated (unrepeated_of_nodup hnodup)
  have hclose : closeAll closed = closed := exhaust_of_exhaust? (exhaust?_of_none hnone)
  rw [close_of_wellFormed, hdistinct, liftAll_of_isScalar hform.scalar hplain,
    hclose, hdistinct]
  · rw [hdistinct]
    exact conflict?_of_nodup hnodup
  · rw [hdistinct]
    exact cycle?_of_independent hindependent

/-- A list with a repeated definition. -/
theorem close_closed_selectedSum :
    close (selectedSum ++ selectedSum) = .ok selectedSumClosed ∧
      selectedSumClosed.map name = ["y", "s", "g"] ∧
        close selectedSumClosed = .ok selectedSumClosed := by
  have hscalar : ∀ d ∈ selectedSum ++ selectedSum, d.IsScalar := by
    simp [selectedSum, IsScalar]
  have hname : ∀ d ∈ selectedSum ++ selectedSum, PlainName d.name := by decide
  have hclose : close (selectedSum ++ selectedSum) = .ok selectedSumClosed :=
    close_selectedSum
  obtain ⟨hnames, _, _, _, hagain⟩ := close_closed hscalar hname hclose
  exact ⟨hclose, rfl, hagain⟩

end Definition
end SignalFlow
