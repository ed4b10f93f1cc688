import SignalFlow.Proofs.Lifting
import SignalFlow.Proofs.ScalarClosure

/-!
# Lifting ends

A definition that is lifted gives way to at most as many definitions as the vector has
elements, and none of them uses the vector any more.  Elements are no names of the given
list, so every result uses fewer of these names than the definition did; and no vector
grows wider than those that were given.

**Measure.**  A definition that uses `k` of the given names weighs `(N + 2) ^ k`, where `N`
bounds the widths.

**Results.**
* `Bounded.step`: a step of lifting keeps the bound of the widths.
* `exists_lifted`: lifting comes to its end.
-/

namespace SignalFlow
namespace Definition

variable {R : Type}

theorem lt_countLimit_of_elementOf? {x y : String} {i : Nat}
    (h : elementOf? y = some (x, i)) : i < Text.countLimit := by
  have hdigits : ∀ {cs : List Char} {n : Nat},
      Text.readDigits? Text.countLimit cs = some n →
      n < Text.countLimit := by
    intro cs n hn
    unfold Text.readDigits? at hn
    split at hn
    · cases hn
    · split at hn
      · next hlt =>
          cases hn
          exact hlt
      · cases hn
  unfold elementOf? at h
  simp only at h
  split at h
  · cases h
  · split at h
    · obtain ⟨n, hn, heq⟩ := Option.map_eq_some_iff.mp h
      cases heq
      unfold Text.readNat? at hn
      split at hn
      · exact hdigits hn
      · exact hdigits hn
    · cases h

/-- No definition tells of a vector with more than `N` elements. -/
def Bounded (N : Nat) (ds : List (Definition R)) : Prop :=
  ∀ d ∈ ds, ∀ x n, d.widthNote? = some (x, n) → n ≤ N

theorem exists_bounded (ds : List (Definition R)) :
    ∃ N, Text.countLimit ≤ N ∧ Bounded N ds := by
  refine ⟨Text.countLimit + ((ds.filterMap widthNote?).map Prod.snd).sum,
    Nat.le_add_right _ _, ?_⟩
  intro d hd x n hn
  have hmem : n ∈ (ds.filterMap widthNote?).map Prod.snd :=
    List.mem_map.mpr ⟨(x, n), List.mem_filterMap.mpr ⟨d, hd, hn⟩, rfl⟩
  exact le_trans (List.le_sum_of_mem hmem) (Nat.le_add_left _ _)

theorem Bounded.le_of_mem_widths {N : Nat} {ds : List (Definition R)} (h : Bounded N ds)
    {v : String} {n : Nat} (hv : (v, n) ∈ widths ds) : n ≤ N :=
  forall_mem_widths (P := fun n => n ≤ N) (fun _ _ hm hn => max_le hm hn) h (v, n) hv

theorem VectorValued.mem_names {ds : List (Definition R)} {x : String}
    (h : VectorValued ds x) : x ∈ ds.map name := by
  cases h with
  | vector _ ts mem => exact List.mem_map_of_mem mem
  | width _ n mem => exact List.mem_map_of_mem mem
  | uses d v mem => exact List.mem_map_of_mem mem

variable [Scalar R]

/-- A step of lifting keeps the bound of the widths. -/
theorem Bounded.step {N : Nat} {ds next : List (Definition R)} (h : Bounded N ds)
    (hlimit : Text.countLimit ≤ N) (hstep : liftStep? ds = some next) :
    Bounded N next := by
  obtain ⟨d, v, n, hrep, hv, _⟩ := liftStep?_eq_some hstep
  intro e he x m hm
  rcases hrep.new e he with he | he
  · exact h e he x m hm
  · cases d with
    | simple y t =>
        rw [List.mem_singleton.mp he] at hm
        cases hm
        simpa using h.le_of_mem_widths hv
    | vector y ts =>
        rw [List.mem_singleton.mp he] at hm
        cases hm
        simpa using h _ hrep.mem _ _ rfl
    | cases y cs =>
        obtain ⟨i, _, rfl⟩ := List.mem_map.mp he
        obtain ⟨⟨z, j⟩, hz, hzx⟩ := Option.map_eq_some_iff.mp hm
        cases hzx
        exact le_trans (lt_countLimit_of_elementOf? hz) hlimit
    | width y k =>
        rw [List.mem_singleton.mp he] at hm
        exact h _ hrep.mem x m hm

/-- A definition that uses many of the names can be lifted often. -/
def liftWeight (N : Nat) (names : List String) (d : Definition R) : Nat :=
  (N + 2) ^ (usedNames names d).card

theorem card_usedNames_of_mem_lift {names : List String} {d e : Definition R}
    {v : String} {n : Nat} (hplain : ∀ x ∈ names, PlainName x) (hv : v ∈ names)
    (hm : d.mentions v = true) (he : e ∈ d.lift v n) :
    (usedNames names e).card + 1 ≤ (usedNames names d).card := by
  have hused : v ∈ usedNames names d := mem_usedNames.mpr ⟨hv, hm⟩
  have hsub : usedNames names e ⊆ (usedNames names d).erase v := by
    intro x hx
    obtain ⟨hx, hex⟩ := mem_usedNames.mp hx
    rw [Finset.mem_erase, mem_usedNames]
    rcases mentions_of_mem_lift he hex with ⟨hdx, hne⟩ | ⟨i, rfl⟩
    · exact ⟨hne, hx, hdx⟩
    · exact absurd (hplain _ hx) (not_plain_elementName v i)
  have hle := Finset.card_le_card hsub
  have hpos := Finset.card_pos.mpr ⟨v, hused⟩
  rw [Finset.card_erase_of_mem hused] at hle
  omega

theorem length_lift_le {N n : Nat} (d : Definition R) (v : String) (hn : n ≤ N) :
    (d.lift v n).length ≤ N + 1 := by
  cases d with
  | simple y t => simp [lift]
  | vector y ts => simp [lift]
  | cases y cs =>
      simp only [lift, List.length_map, List.length_range]
      omega
  | width y k => simp [lift]

/-- Lifting lowers the weight. -/
theorem sum_liftWeight_lt {N n : Nat} {names : List String} {d : Definition R} {v : String}
    (hplain : ∀ x ∈ names, PlainName x) (hv : v ∈ names) (hm : d.mentions v = true)
    (hn : n ≤ N) : ((d.lift v n).map (liftWeight N names)).sum < liftWeight N names d := by
  obtain ⟨k, hk⟩ : ∃ k, (usedNames names d).card = k + 1 :=
    Nat.exists_eq_succ_of_ne_zero (Finset.card_ne_zero_of_mem (mem_usedNames.mpr ⟨hv, hm⟩))
  have hle : ∀ w ∈ (d.lift v n).map (liftWeight N names), w ≤ (N + 2) ^ k := by
    intro w hw
    obtain ⟨e, he, rfl⟩ := List.mem_map.mp hw
    have hcard := card_usedNames_of_mem_lift hplain hv hm he
    exact Nat.pow_le_pow_right (by omega) (by omega)
  have hpos : 0 < (N + 2) ^ k := Nat.pow_pos (by omega)
  calc ((d.lift v n).map (liftWeight N names)).sum
      ≤ ((d.lift v n).map (liftWeight N names)).length * (N + 2) ^ k :=
      List.sum_le_card_nsmul _ _ hle
    _ ≤ (N + 1) * (N + 2) ^ k := by
        rw [List.length_map]
        exact Nat.mul_le_mul_right _ (length_lift_le d v hn)
    _ < (N + 2) * (N + 2) ^ k := Nat.mul_lt_mul_of_pos_right (by omega) hpos
    _ = liftWeight N names d := by rw [liftWeight, hk, Nat.pow_succ, Nat.mul_comm]

/-- Lifting comes to its end. -/
theorem exists_lifted {given : List (Definition R)}
    (hplain : ∀ d ∈ given, PlainName d.name) (htidy : Tidy given) :
    ∃ lifted, exhaust? liftStep? given = some lifted := by
  obtain ⟨N, hlimit, hbounded⟩ := exists_bounded given
  have hnames : ∀ x ∈ given.map name, PlainName x := by
    intro x hx
    obtain ⟨d, hd, rfl⟩ := List.mem_map.mp hx
    exact hplain d hd
  refine exists_exhaust? (P := fun ds => Lifted given ds ∧ Bounded N ds)
    (fun ds => (ds.map (liftWeight N (given.map name))).sum) ?_
    ⟨Lifted.start hplain htidy, hbounded⟩
  rintro ds next ⟨hlifted, hds⟩ hstep
  refine ⟨⟨hlifted.step hstep, hds.step hlimit hstep⟩, ?_⟩
  obtain ⟨before, d, after, v, n, rfl, huse, rfl⟩ := liftFirst?_eq_some hstep
  obtain ⟨hmem, _, hm⟩ := wholeUse?_eq_some huse
  have hvector : IsVectorName (before ++ d :: after) v :=
    mem_map_fst_widths.mp (List.mem_map_of_mem hmem)
  have hlt := sum_liftWeight_lt hnames (hlifted.vectorValued v hvector).mem_names hm
    (hds.le_of_mem_widths hmem)
  simp only [List.map_append, List.map_cons, List.sum_append, List.sum_cons]
  omega

end Definition
end SignalFlow
