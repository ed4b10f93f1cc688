import Mathlib.Algebra.BigOperators.Group.Finset.Basic
import Mathlib.Algebra.GroupWithZero.Nat
import Mathlib.Algebra.Order.BigOperators.Group.Finset
import SignalFlow.Proofs.Dependency
import SignalFlow.Proofs.Inlining
import SignalFlow.Proofs.Iteration
import SignalFlow.Proofs.VariableNames

/-!
# Closing definitions without vectors

A list of definitions without a cycle has a rank of names that falls along every use.
Inlining keeps it: what comes in place of a name has a lower rank than the name.  So
closing ends, and at its end no definition uses a name that the list defines.

**Measure.**  A use of a name of rank `r` weighs `(n + 1) ^ r`, where `n` is the number of
names.  Inlining the name replaces this weight by that of at most `n` names of lower rank.

**Results.**
* `Layered.step`: a step of closing keeps the names and the ranks, and lowers the measure.
* `closedForm_of_close`: closing ends, and no definition of its result uses a defined name.
-/

namespace SignalFlow
namespace Definition

variable {R : Type}

/-- Definitions of `names` without vectors, each of which uses names of lower rank only. -/
structure Layered (rank : String → Nat) (names : List String) (ds : List (Definition R)) :
    Prop where
  scalar : ∀ d ∈ ds, d.IsScalar
  names_eq : ds.map name = names
  lower : ∀ d ∈ ds, ∀ x ∈ names, d.mentions x = true → rank x < rank d.name

theorem isWidth_of_isScalar {d : Definition R} (hd : d.IsScalar) : d.isWidth = false := by
  cases d with
  | simple x t => rfl
  | vector x ts => exact hd.elim
  | cases x cs => rfl
  | width x n => exact hd.elim

/-- The names that a definition uses. -/
def usedNames (names : List String) (d : Definition R) : Finset String :=
  names.toFinset.filter fun x => d.mentions x = true

/-- Weight of the uses of names in a definition. -/
def useWeight (rank : String → Nat) (names : List String) (d : Definition R) : Nat :=
  ∑ x ∈ usedNames names d, (names.length + 1) ^ rank x

theorem mem_usedNames {names : List String} {d : Definition R} {x : String} :
    x ∈ usedNames names d ↔ x ∈ names ∧ d.mentions x = true := by
  simp [usedNames]

/-- Names of lower rank weigh less than one name. -/
theorem useWeight_lt {rank : String → Nat} {names : List String}
    {d : Definition R} {r : Nat} (h : ∀ x ∈ names, d.mentions x = true → rank x < r) :
    useWeight rank names d < (names.length + 1) ^ r := by
  cases r with
  | zero =>
      have hempty : usedNames names d = ∅ := by
        rw [Finset.eq_empty_iff_forall_notMem]
        intro x hx
        obtain ⟨hx, hm⟩ := mem_usedNames.mp hx
        exact absurd (h x hx hm) (Nat.not_lt_zero _)
      simp [useWeight, hempty]
  | succ r =>
      have hterm : ∀ x ∈ usedNames names d,
          (names.length + 1) ^ rank x ≤ (names.length + 1) ^ r := by
        intro x hx
        obtain ⟨hx, hm⟩ := mem_usedNames.mp hx
        have hlt := h x hx hm
        exact Nat.pow_le_pow_right (Nat.succ_pos _) (by omega)
      have hcard : (usedNames names d).card ≤ names.length :=
        le_trans (Finset.card_filter_le _ _) (List.toFinset_card_le names)
      have hpos : 0 < (names.length + 1) ^ r := Nat.pow_pos (Nat.succ_pos _)
      calc useWeight rank names d
          ≤ (usedNames names d).card * (names.length + 1) ^ r :=
            Finset.sum_le_card_nsmul _ _ _ hterm
        _ ≤ names.length * (names.length + 1) ^ r := Nat.mul_le_mul_right _ hcard
        _ < (names.length + 1) * (names.length + 1) ^ r :=
            Nat.mul_lt_mul_of_pos_right (Nat.lt_succ_self _) hpos
        _ = (names.length + 1) ^ (r + 1) := by rw [Nat.pow_succ, Nat.mul_comm]

/-- Names of lower rank weigh less than the name that they come in place of. -/
theorem useWeight_lt_of_subset {rank : String → Nat} {names : List String}
    {e d r : Definition R} (hname : d.name ∈ names) (hm : e.mentions d.name = true)
    (hlower : ∀ x ∈ names, d.mentions x = true → rank x < rank d.name)
    (hsub : usedNames names r ⊆ (usedNames names e).erase d.name ∪ usedNames names d) :
    useWeight rank names r < useWeight rank names e := by
  have hused : d.name ∈ usedNames names e := mem_usedNames.mpr ⟨hname, hm⟩
  calc useWeight rank names r
      ≤ ∑ x ∈ (usedNames names e).erase d.name ∪ usedNames names d,
          (names.length + 1) ^ rank x := Finset.sum_le_sum_of_subset hsub
    _ ≤ ∑ x ∈ (usedNames names e).erase d.name, (names.length + 1) ^ rank x
          + useWeight rank names d := by
        have hunion : (∑ x ∈ (usedNames names e).erase d.name ∪ usedNames names d,
              (names.length + 1) ^ rank x) +
            (∑ x ∈ (usedNames names e).erase d.name ∩ usedNames names d,
              (names.length + 1) ^ rank x) =
            (∑ x ∈ (usedNames names e).erase d.name, (names.length + 1) ^ rank x) +
              useWeight rank names d := Finset.sum_union_inter
        omega
    _ < ∑ x ∈ (usedNames names e).erase d.name, (names.length + 1) ^ rank x
          + (names.length + 1) ^ rank d.name := Nat.add_lt_add_left (useWeight_lt hlower) _
    _ = useWeight rank names e := Finset.sum_erase_add _ _ hused

variable [Scalar R]

/-- Inlining a name that uses only names of lower rank lowers the weight. -/
theorem useWeight_inlineScalar_lt {rank : String → Nat} {names : List String}
    {e d : Definition R} (he : e.IsScalar) (hd : d.IsScalar) (hname : d.name ∈ names)
    (hm : e.mentions d.name = true)
    (hlower : ∀ x ∈ names, d.mentions x = true → rank x < rank d.name) :
    useWeight rank names (e.inlineScalar d) < useWeight rank names e := by
  refine useWeight_lt_of_subset hname hm hlower fun x hx => ?_
  obtain ⟨hx, hmx⟩ := mem_usedNames.mp hx
  rw [Finset.mem_union, Finset.mem_erase, mem_usedNames, mem_usedNames]
  rcases mentions_inlineScalar he hd hmx with ⟨hne, hex⟩ | hdx
  · exact Or.inl ⟨hne, hx, hex⟩
  · exact Or.inr ⟨hx, hdx⟩

/-- Weight of all uses of names in a list. -/
def totalWeight (rank : String → Nat) (names : List String)
    (ds : List (Definition R)) : Nat :=
  (ds.map (useWeight rank names)).sum

/-- A step of closing keeps names and ranks, and lowers the weight. -/
theorem Layered.step {rank : String → Nat} {names : List String}
    {ds next : List (Definition R)} (h : Layered rank names ds)
    (hstep : closeStep? ds = some next) :
    Layered rank names next ∧ totalWeight rank names next < totalWeight rank names ds := by
  have hscalar : ∀ f ∈ next, f.IsScalar := forall_mem_of_closeStep? h.scalar hstep h.scalar
    fun e d he hd _ _ => isScalar_inlineScalar he hd
  obtain ⟨before, e, after, d, rfl, _, hdmem, hm, rfl⟩ :=
    closeStep?_of_isScalar h.scalar hstep
  have hrep := replacedBy_append before after [e.inlineScalar d] e
  have hes := h.scalar e hrep.mem
  have hds := h.scalar d hdmem
  have hname : d.name ∈ names := h.names_eq ▸ List.mem_map_of_mem hdmem
  refine ⟨⟨hscalar, ?_, ?_⟩, ?_⟩
  · rw [← h.names_eq]
    simp [name_inlineScalar]
  · intro f hf x hx hfx
    rcases hrep.new f hf with hf | hf
    · exact h.lower f hf x hx hfx
    · rw [List.mem_singleton.mp hf] at hfx ⊢
      rw [name_inlineScalar]
      rcases mentions_inlineScalar hes hds hfx with ⟨_, hex⟩ | hdx
      · exact h.lower e hrep.mem x hx hex
      · exact lt_trans (h.lower d hdmem x hx hdx) (h.lower e hrep.mem d.name hname hm)
  · have hlt := useWeight_inlineScalar_lt hes hds hname hm (h.lower d hdmem)
    simp only [totalWeight, List.append_assoc, List.singleton_append, List.map_append,
      List.map_cons, List.sum_append, List.sum_cons]
    omega

/-- Closing definitions with a rank ends. -/
theorem Layered.exists_closed {rank : String → Nat} {names : List String}
    {ds : List (Definition R)} (h : Layered rank names ds) :
    ∃ closed, exhaust? closeStep? ds = some closed :=
  exists_exhaust? (totalWeight rank names) (fun _ _ h hstep => h.step hstep) h

/-- Where no step is left, no definition uses a defined name. -/
theorem Layered.not_mentions {rank : String → Nat} {names : List String}
    {ds : List (Definition R)} (h : Layered rank names ds) (hnone : closeStep? ds = none)
    {d : Definition R} (hd : d ∈ ds) {x : String} (hx : x ∈ names) :
    d.mentions x = false := by
  rw [← h.names_eq] at hx
  obtain ⟨e, he, rfl⟩ := List.mem_map.mp hx
  refine not_mentions_of_closeStep?_none hnone he (h.scalar e he) ?_ hd
  by_contra hm
  have hlt := h.lower e he e.name (h.names_eq ▸ List.mem_map_of_mem he) (by simpa using hm)
  exact Nat.lt_irrefl _ hlt

theorem pairwise_of_conflict? {ds : List (Definition R)} (h : conflict? ds = none) :
    ds.Pairwise fun d e => conflicts d e = false := by
  induction ds with
  | nil => exact List.Pairwise.nil
  | cons d ds ih =>
      simp only [conflict?] at h
      split at h
      · cases h
      · next hany =>
          refine List.pairwise_cons.mpr ⟨?_, ih h⟩
          intro e he
          simp only [List.any_eq_true, not_exists, not_and, Bool.not_eq_true] at hany
          exact hany e he

omit [Scalar R] in
/-- Equal definitions depend on the same definitions, and the same ones depend on them. -/
theorem dependsOn_congr [BEq R] {d d₀ e e₀ : Definition R} (hd : d₀ = d ∨ (d₀ == d) = true)
    (he : e₀ = e ∨ (e₀ == e) = true) : d₀.dependsOn e₀ = d.dependsOn e := by
  have hwidth : ∀ {a b : Definition R}, a = b ∨ (a == b) = true →
      a.isWidth = b.isWidth := by
    rintro a b (rfl | h)
    · rfl
    · rcases parts_of_beq h with ⟨_, _, _, rfl, rfl, _⟩ | ⟨_, _, _, rfl, rfl, _⟩ |
        ⟨_, _, _, rfl, rfl, _⟩ | ⟨_, _, rfl, rfl⟩ <;> rfl
  have hmentions : ∀ x, d₀.mentions x = d.mentions x := by
    intro x
    rcases hd with rfl | hd
    · rfl
    · exact mentions_eq_of_beq x hd
  have hname : e₀.name = e.name := by
    rcases he with rfl | he
    · rfl
    · exact name_eq_of_beq he
  have helements : e₀.elementNames = e.elementNames := by
    rcases he with rfl | he
    · rfl
    · rcases parts_of_beq he with ⟨_, _, _, rfl, rfl, _⟩ | ⟨_, ts, us, rfl, rfl, hts⟩ |
        ⟨_, _, _, rfl, rfl, _⟩ | ⟨_, _, rfl, rfl⟩
      · rfl
      · have hlength : ts.length = us.length := List.length_eq_of_beq hts
        simp only [elementNames, hlength]
      · rfl
      · rfl
  simp only [dependsOn, hwidth hd, hwidth he, hname, helements, hmentions]

/-- Well-formed definitions have a rank of names that falls along every dependency. -/
theorem exists_rank_of_wellFormed {ds : List (Definition R)}
    (hconflict : conflict? ds = none) (hcycle : cycle? ds = none) :
    ∃ rank : String → Nat, ∀ d ∈ ds, ∀ e ∈ ds, d.dependsOn e = true →
      rank e.name < rank d.name := by
  obtain ⟨rank, hrank⟩ := exists_rank_of_cycle? hcycle
  -- A name has the rank of the first position that defines it.
  let first := fun x : String => ds.findIdx fun d => !d.isWidth && d.name == x
  have hfirst : ∀ d ∈ ds, d.isWidth = false →
      ∃ d₀, ds[first d.name]? = some d₀ ∧ (d₀ = d ∨ (d₀ == d) = true) := by
    intro d hd hwidth
    obtain ⟨j, hj, rfl⟩ := List.mem_iff_getElem.mp hd
    have hlt : first ds[j].name < ds.length :=
      List.findIdx_lt_length_of_exists ⟨ds[j], hd, by simp [hwidth]⟩
    have hdefines : ds[first ds[j].name].isWidth = false ∧
        ds[first ds[j].name].name = ds[j].name := by
      simpa using List.findIdx_getElem (w := hlt)
    refine ⟨ds[first ds[j].name], List.getElem?_eq_getElem hlt, ?_⟩
    have hle : first ds[j].name ≤ j := by
      by_contra hlt'
      have hno := List.not_of_lt_findIdx (Nat.lt_of_not_le hlt')
      simp [hwidth] at hno
    rcases Nat.lt_or_eq_of_le hle with hlt' | heq
    · have hno :=
        List.pairwise_iff_getElem.mp (pairwise_of_conflict? hconflict) _ _ hlt hj hlt'
      rw [conflicts, hdefines.1, hwidth, hdefines.2] at hno
      exact Or.inr (by simpa using hno)
    · exact Or.inl (by simp only [heq])
  refine ⟨fun x => rank (first x), ?_⟩
  intro d hd e he hdep
  have hwidths : d.isWidth = false ∧ e.isWidth = false := by
    simp only [dependsOn, Bool.and_eq_true, Bool.not_eq_true'] at hdep
    exact hdep.1
  obtain ⟨d₀, hd₀, hdd₀⟩ := hfirst d hd hwidths.1
  obtain ⟨e₀, he₀, hee₀⟩ := hfirst e he hwidths.2
  exact hrank _ _ d₀ e₀ hd₀ he₀ ((dependsOn_congr hdd₀ hee₀).trans hdep)

/-- Definitions without vectors that are well-formed have a rank of names. -/
theorem exists_layered {ds : List (Definition R)} (hscalar : ∀ d ∈ ds, d.IsScalar)
    (hconflict : conflict? ds = none) (hcycle : cycle? ds = none) :
    ∃ rank, Layered rank (ds.map name) ds := by
  obtain ⟨rank, hrank⟩ := exists_rank_of_wellFormed hconflict hcycle
  refine ⟨rank, hscalar, rfl, ?_⟩
  intro d hd x hx hm
  obtain ⟨e, he, rfl⟩ := List.mem_map.mp hx
  refine hrank d hd e he ?_
  rw [dependsOn_of_isScalar (hscalar d hd) (hscalar e he)]
  exact hm

omit [Scalar R] in
/-- Definitions of plain names speak of no vector. -/
theorem widths_of_isScalar {ds : List (Definition R)} (hscalar : ∀ d ∈ ds, d.IsScalar)
    (hname : ∀ d ∈ ds, PlainName d.name) : widths ds = [] := by
  have hnotes : ds.filterMap widthNote? = [] := by
    rw [List.filterMap_eq_nil_iff]
    intro d hd
    have hs := hscalar d hd
    have hn := hname d hd
    cases d with
    | simple x t =>
        have he : elementOf? x = none := elementOf?_of_plain hn
        simp [widthNote?, he]
    | cases x cs =>
        have he : elementOf? x = none := elementOf?_of_plain hn
        simp [widthNote?, he]
    | vector x ts => exact hs.elim
    | width x n => exact hs.elim
  simp [widths, hnotes]

theorem liftAll_of_isScalar {ds : List (Definition R)} (hscalar : ∀ d ∈ ds, d.IsScalar)
    (hname : ∀ d ∈ ds, PlainName d.name) : liftAll ds = ds := by
  have hnone : ∀ es : List (Definition R), liftFirst? [] es = none := by
    intro es
    induction es with
    | nil => rfl
    | cons e es ih => simp [liftFirst?, wholeUse?, ih]
  have hstep : liftStep? ds = none := by
    rw [liftStep?, widths_of_isScalar hscalar hname, hnone]
  exact exhaust_of_exhaust? (exhaust?_of_none hstep)

/-- Definitions of the names of `ds` that use none of these names. -/
structure ClosedForm (ds closed : List (Definition R)) : Prop where
  scalar : ∀ d ∈ closed, d.IsScalar
  names_sublist : (closed.map name).Sublist (ds.map name)
  mem_names_iff : ∀ x, x ∈ closed.map name ↔ x ∈ ds.map name
  not_mentions : ∀ d ∈ closed, ∀ x ∈ ds.map name, d.mentions x = false

theorem mem_map_name_distinct {ds : List (Definition R)} {x : String} :
    x ∈ (distinct ds).map name ↔ x ∈ ds.map name := by
  simp only [List.mem_map]
  constructor
  · rintro ⟨d, hd, rfl⟩
    exact ⟨d, mem_of_mem_distinct hd, rfl⟩
  · rintro ⟨d, hd, rfl⟩
    obtain ⟨e, he, rfl | hde⟩ := exists_mem_distinct hd
    · exact ⟨e, he, rfl⟩
    · exact ⟨e, he, (name_eq_of_beq hde).symm⟩

/-- In a list that can be closed, names are used by names of higher rank only. -/
theorem exists_rank_of_close {ds closed : List (Definition R)}
    (hscalar : ∀ d ∈ ds, d.IsScalar) (h : close ds = .ok closed) :
    ∃ rank : String → Nat, ∀ d ∈ ds, ∀ x ∈ ds.map name, d.mentions x = true →
      rank x < rank d.name := by
  obtain ⟨hconflict, hcycle, _⟩ := close_eq_ok h
  obtain ⟨rank, hlayer⟩ :=
    exists_layered (fun d hd => hscalar d (mem_of_mem_distinct hd)) hconflict hcycle
  refine ⟨rank, ?_⟩
  intro d hd x hx hm
  obtain ⟨e, he, heq⟩ := exists_mem_distinct hd
  have hsame : e.name = d.name ∧ e.mentions x = d.mentions x := by
    rcases heq with rfl | hde
    · exact ⟨rfl, rfl⟩
    · exact ⟨(name_eq_of_beq hde).symm, (mentions_eq_of_beq x hde).symm⟩
  rw [← hsame.1]
  exact hlayer.lower e he x (mem_map_name_distinct.mpr hx) (hsame.2.trans hm)

/-- Well-formed definitions of plain names without vectors: closing ends, and keeps the
names and their ranks. -/
theorem exists_last_of_close {ds closed : List (Definition R)}
    (hscalar : ∀ d ∈ ds, d.IsScalar) (hname : ∀ d ∈ ds, PlainName d.name)
    (h : close ds = .ok closed) :
    ∃ last rank, exhaust? closeStep? (distinct ds) = some last ∧ closeStep? last = none ∧
      closed = distinct last ∧ Layered rank ((distinct ds).map name) last := by
  obtain ⟨hconflict, hcycle, rfl⟩ := close_eq_ok h
  have hscalar' : ∀ d ∈ distinct ds, d.IsScalar := fun d hd =>
    hscalar d (mem_of_mem_distinct hd)
  have hlift : liftAll (distinct ds) = distinct ds :=
    liftAll_of_isScalar hscalar' fun d hd => hname d (mem_of_mem_distinct hd)
  obtain ⟨rank, hlayer⟩ := exists_layered hscalar' hconflict hcycle
  obtain ⟨last, hlast⟩ := hlayer.exists_closed
  obtain ⟨hreach, hnone⟩ := reaches_of_exhaust? hlast
  have heq : closeAll (distinct ds) = last := exhaust_of_exhaust? hlast
  rw [hlift, heq]
  exact ⟨last, rank, hlast, hnone, rfl,
    hreach.invariant (fun _ _ hes hstep => (hes.step hstep).1) hlayer⟩

/-- Well-formed definitions of plain names without vectors: closing ends, in a closed
form. -/
theorem closedForm_of_close {ds closed : List (Definition R)}
    (hscalar : ∀ d ∈ ds, d.IsScalar) (hname : ∀ d ∈ ds, PlainName d.name)
    (h : close ds = .ok closed) :
    ∃ last, exhaust? closeStep? (distinct ds) = some last ∧ closed = distinct last ∧
      ClosedForm ds closed := by
  obtain ⟨last, rank, hlast, hnone, rfl, hend⟩ := exists_last_of_close hscalar hname h
  refine ⟨last, hlast, rfl, ?_, ?_, ?_, ?_⟩
  · intro d hd
    exact hend.scalar d (mem_of_mem_distinct hd)
  · have hlastNames : ((distinct last).map name).Sublist ((distinct ds).map name) :=
      hend.names_eq ▸ (distinct_sublist last).map name
    exact hlastNames.trans ((distinct_sublist ds).map name)
  · intro x
    rw [mem_map_name_distinct, hend.names_eq, mem_map_name_distinct]
  · intro d hd x hx
    exact hend.not_mentions hnone (mem_of_mem_distinct hd) (mem_map_name_distinct.mpr hx)

end Definition
end SignalFlow
