/-!
# Lists without repetition

Facts, obligations and definitions are collected in the order of their first occurrence.
-/

namespace SignalFlow

variable {α : Type} [BEq α]

/-- Append `x`, unless an equal element is already there. -/
def insertLast (xs : List α) (x : α) : List α :=
  if xs.contains x then xs else xs ++ [x]

/-- The elements of a list in the order of their first occurrence. -/
def distinct (xs : List α) : List α :=
  xs.foldl insertLast []

theorem mem_insertLast_of_mem {xs : List α} {x y : α} (h : y ∈ xs) :
    y ∈ insertLast xs x := by
  unfold insertLast
  split
  · exact h
  · exact List.mem_append_left _ h

theorem insertLast_of_contains {xs : List α} {x : α} (h : xs.contains x = true) :
    insertLast xs x = xs := by
  unfold insertLast
  rw [if_pos h]

theorem insertLast_of_not_contains {xs : List α} {x : α} (h : xs.contains x = false) :
    insertLast xs x = xs ++ [x] := by
  unfold insertLast
  rw [if_neg (by simp [h])]

theorem mem_or_mem_of_mem_insertLast {xs : List α} {x y : α} (h : y ∈ insertLast xs x) :
    y ∈ xs ∨ y = x := by
  unfold insertLast at h
  split at h
  · exact Or.inl h
  · simpa using h

/-- The inserted element is there, or an equal one. -/
theorem exists_mem_insertLast_self (xs : List α) (x : α) :
    ∃ y ∈ insertLast xs x, y = x ∨ (x == y) = true := by
  unfold insertLast
  split
  · next h =>
      obtain ⟨y, hy, hxy⟩ := List.contains_iff_exists_mem_beq.mp h
      exact ⟨y, hy, Or.inr hxy⟩
  · exact ⟨x, by simp, Or.inl rfl⟩

theorem mem_foldl_insertLast_of_mem {xs ys : List α} {y : α} (h : y ∈ ys) :
    y ∈ xs.foldl insertLast ys := by
  induction xs generalizing ys with
  | nil => exact h
  | cons x xs ih => exact ih (mem_insertLast_of_mem h)

theorem mem_or_mem_of_mem_foldl_insertLast {xs ys : List α} {y : α}
    (h : y ∈ xs.foldl insertLast ys) : y ∈ ys ∨ y ∈ xs := by
  induction xs generalizing ys with
  | nil => exact Or.inl h
  | cons x xs ih =>
      rcases ih h with hy | hy
      · rcases mem_or_mem_of_mem_insertLast hy with hy | rfl
        · exact Or.inl hy
        · exact Or.inr (by simp)
      · exact Or.inr (List.mem_cons_of_mem _ hy)

theorem mem_of_mem_distinct {xs : List α} {x : α} (h : x ∈ distinct xs) : x ∈ xs := by
  simpa using mem_or_mem_of_mem_foldl_insertLast h

theorem foldl_insertLast_sublist (xs ys : List α) :
    (xs.foldl insertLast ys).Sublist (ys ++ xs) := by
  induction xs generalizing ys with
  | nil => simp
  | cons x xs ih =>
      have hinsert : (insertLast ys x).Sublist (ys ++ [x]) := by
        unfold insertLast
        split
        · exact List.sublist_append_left ys [x]
        · exact List.Sublist.refl _
      have hrest := (ih (insertLast ys x)).trans (hinsert.append_right xs)
      simpa using hrest

theorem distinct_sublist (xs : List α) : (distinct xs).Sublist xs :=
  foldl_insertLast_sublist xs []

/-- Every element that is inserted is there in the end, or an equal one is. -/
theorem exists_mem_foldl_insertLast {xs : List α} {x : α} (h : x ∈ xs) (ys : List α) :
    ∃ y ∈ xs.foldl insertLast ys, y = x ∨ (x == y) = true := by
  obtain ⟨before, after, rfl⟩ := List.append_of_mem h
  obtain ⟨y, hy, hxy⟩ := exists_mem_insertLast_self (before.foldl insertLast ys) x
  refine ⟨y, ?_, hxy⟩
  rw [List.foldl_append, List.foldl_cons]
  exact mem_foldl_insertLast_of_mem hy

/-- Every element of a list is among the distinct ones, or an equal one is. -/
theorem exists_mem_distinct {xs : List α} {x : α} (h : x ∈ xs) :
    ∃ y ∈ distinct xs, y = x ∨ (x == y) = true :=
  exists_mem_foldl_insertLast h []

end SignalFlow
