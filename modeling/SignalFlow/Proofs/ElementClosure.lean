import Mathlib.Data.List.Forall2
import SignalFlow.Proofs.ScalarClosure
import SignalFlow.Proofs.VectorClosure

/-!
# Closing definitions element by element

A vector is a list of definitions of its elements.  Seen in this way a list of definitions
has *parts*, each of which defines a single name, and a step of closing inlines the parts
of one definition, one after the other, into the parts of another.  If the names of the
parts have a rank that falls along every use, each of these inlinings lowers the weight of
a part or leaves it alone.

**Results.**
* `absorbs_parts`: a step of closing, part by part.
* `AbsorbsAll.useWeight_lt`: inlining parts lowers the weight.
* `LayeredParts.exists_closed`: closing ends if its parts have a rank.
-/

namespace SignalFlow
namespace Definition

variable {R : Type}

/-- The definitions of single names that a definition is made of. -/
def parts : Definition R → List (Definition R)
  | .simple x t => [.simple x t]
  | .vector x ts => ts.zipIdx.map fun (t, i) => .simple (Term.elementName x i) t
  | .cases x cs => [.cases x cs]
  | .width _ _ => []

theorem parts_of_isScalar {d : Definition R} (h : d.IsScalar) : d.parts = [d] := by
  cases d with
  | simple x t => rfl
  | vector x ts => exact h.elim
  | cases x cs => rfl
  | width x n => exact h.elim

theorem flatMap_parts_of_isScalar {ds : List (Definition R)} (h : ∀ d ∈ ds, d.IsScalar) :
    ds.flatMap parts = ds := by
  induction ds with
  | nil => rfl
  | cons d ds ih =>
      rw [List.forall_mem_cons] at h
      rw [List.flatMap_cons, parts_of_isScalar h.1, ih h.2, List.singleton_append]

theorem isScalar_of_mem_parts {d p : Definition R} (h : p ∈ d.parts) : p.IsScalar := by
  cases d with
  | simple x t => rw [List.mem_singleton.mp h]; trivial
  | vector x ts =>
      obtain ⟨_, _, rfl⟩ := List.mem_map.mp h
      trivial
  | cases x cs => rw [List.mem_singleton.mp h]; trivial
  | width x n => cases h

theorem mem_parts_vector {x : String} {ts : List (Term R)} {p : Definition R} :
    p ∈ (Definition.vector x ts).parts ↔ ∃ t i, ts[i]? = some t ∧
      p = .simple (Term.elementName x i) t := by
  simp only [parts, List.mem_map, Prod.exists, List.mem_zipIdx_iff_getElem?, eq_comm]

/-- What a definition uses is used by one of its parts. -/
theorem mentions_iff_parts {d : Definition R} {y : String} :
    d.mentions y = true ↔ ∃ p ∈ d.parts, p.mentions y = true := by
  cases d with
  | simple x t => simp [parts]
  | vector x ts =>
      constructor
      · intro hm
        obtain ⟨t, ht, hm⟩ := List.any_eq_true.mp hm
        obtain ⟨i, hi⟩ := List.mem_iff_getElem?.mp ht
        exact ⟨_, mem_parts_vector.mpr ⟨t, i, hi, rfl⟩, hm⟩
      · rintro ⟨p, hp, hm⟩
        obtain ⟨t, i, hi, rfl⟩ := mem_parts_vector.mp hp
        exact List.any_eq_true.mpr ⟨t, List.mem_of_getElem? hi, hm⟩
  | cases x cs => simp [parts]
  | width x n => simp [parts, mentions]

/-- The elements of a vector are the names of its parts. -/
theorem mem_elementNames_vector {x y : String} {ts : List (Term R)} :
    y ∈ (Definition.vector x ts).elementNames ↔ ∃ p ∈ (Definition.vector x ts).parts,
      p.name = y := by
  simp only [elementNames, List.mem_map, List.mem_range]
  constructor
  · rintro ⟨i, hi, rfl⟩
    exact ⟨_, mem_parts_vector.mpr ⟨ts[i], i, List.getElem?_eq_getElem hi, rfl⟩, rfl⟩
  · rintro ⟨p, hp, rfl⟩
    obtain ⟨t, i, hi, rfl⟩ := mem_parts_vector.mp hp
    exact ⟨i, (List.getElem?_eq_some_iff.mp hi).1, rfl⟩

section Absorption

/-- What inlining the definition `q` of a name makes of the definition `p`. -/
structure Absorbs (p q p' : Definition R) : Prop where
  name : p'.name = p.name
  mentions : ∀ y, p'.mentions y = true →
    (y ≠ q.name ∧ p.mentions y = true) ∨ (p.mentions q.name = true ∧ q.mentions y = true)

/-- What inlining definitions of names makes of `p`, one after the other. -/
def AbsorbsAll (p : Definition R) : List (Definition R) → Definition R → Prop
  | [], p' => p' = p
  | q :: qs, p' => ∃ p₁, Absorbs p q p₁ ∧ AbsorbsAll p₁ qs p'

variable {rank : String → Nat} {names : List String} {p q p' : Definition R}
  {qs : List (Definition R)}

theorem absorbsAll_singleton : AbsorbsAll p [q] p' ↔ Absorbs p q p' := by
  constructor
  · rintro ⟨_, h, rfl⟩
    exact h
  · intro h
    exact ⟨p', h, rfl⟩

/-- A definition uses names of lower rank only. -/
def UsesLower (rank : String → Nat) (names : List String) (p : Definition R) : Prop :=
  ∀ x ∈ names, p.mentions x = true → rank x < rank p.name

theorem Absorbs.usesLower (h : Absorbs p q p') (hq : q.name ∈ names)
    (hp : UsesLower rank names p) (hlower : UsesLower rank names q) :
    UsesLower rank names p' := by
  intro x hx hm
  rw [h.name]
  rcases h.mentions x hm with ⟨_, hpx⟩ | ⟨hpq, hqx⟩
  · exact hp x hx hpx
  · exact lt_trans (hlower x hx hqx) (hp q.name hq hpq)

theorem AbsorbsAll.usesLower (h : AbsorbsAll p qs p')
    (hqs : ∀ q ∈ qs, q.name ∈ names ∧ UsesLower rank names q)
    (hp : UsesLower rank names p) : UsesLower rank names p' := by
  induction qs generalizing p with
  | nil =>
      obtain rfl := h
      exact hp
  | cons q qs ih =>
      obtain ⟨p₁, hfirst, hrest⟩ := h
      rw [List.forall_mem_cons] at hqs
      exact ih hrest hqs.2 (hfirst.usesLower hqs.1.1 hp hqs.1.2)

theorem AbsorbsAll.name_eq (h : AbsorbsAll p qs p') : p'.name = p.name := by
  induction qs generalizing p with
  | nil => rw [show p' = p from h]
  | cons q qs ih =>
      obtain ⟨p₁, hfirst, hrest⟩ := h
      rw [ih hrest, hfirst.name]

/-- A used name that is left out lowers the weight. -/
theorem useWeight_lt_of_erase {x : String} (hx : x ∈ usedNames names p)
    (hsub : usedNames names p' ⊆ (usedNames names p).erase x) :
    useWeight rank names p' < useWeight rank names p := by
  have hle : useWeight rank names p' ≤ ∑ y ∈ (usedNames names p).erase x,
      (names.length + 1) ^ rank y :=
    Finset.sum_le_sum_of_subset hsub
  have hsum : _ = useWeight rank names p := Finset.sum_erase_add (usedNames names p) _ hx
  have hpos : 0 < (names.length + 1) ^ rank x := Nat.pow_pos (Nat.succ_pos _)
  omega

/-- Inlining a used name lowers the weight. -/
theorem Absorbs.useWeight_lt (h : Absorbs p q p') (hq : q.name ∈ names)
    (hlower : UsesLower rank names q) (hm : p.mentions q.name = true) :
    useWeight rank names p' < useWeight rank names p := by
  refine useWeight_lt_of_subset hq hm hlower fun x hx => ?_
  obtain ⟨hx, hmx⟩ := mem_usedNames.mp hx
  rw [Finset.mem_union, Finset.mem_erase, mem_usedNames, mem_usedNames]
  rcases h.mentions x hmx with ⟨hne, hpx⟩ | ⟨_, hqx⟩
  · exact Or.inl ⟨hne, hx, hpx⟩
  · exact Or.inr ⟨hx, hqx⟩

theorem Absorbs.usedNames_subset (h : Absorbs p q p') (hm : p.mentions q.name = false) :
    usedNames names p' ⊆ usedNames names p := by
  intro x hx
  obtain ⟨hx, hmx⟩ := mem_usedNames.mp hx
  rcases h.mentions x hmx with ⟨_, hpx⟩ | ⟨hpq, _⟩
  · exact mem_usedNames.mpr ⟨hx, hpx⟩
  · rw [hm] at hpq
    cases hpq

theorem AbsorbsAll.useWeight_le (h : AbsorbsAll p qs p')
    (hqs : ∀ q ∈ qs, q.name ∈ names ∧ UsesLower rank names q) :
    useWeight rank names p' ≤ useWeight rank names p := by
  induction qs generalizing p with
  | nil => rw [show p' = p from h]
  | cons q qs ih =>
      obtain ⟨p₁, hfirst, hrest⟩ := h
      rw [List.forall_mem_cons] at hqs
      refine le_trans (ih hrest hqs.2) ?_
      cases hm : p.mentions q.name with
      | true => exact le_of_lt (hfirst.useWeight_lt hqs.1.1 hqs.1.2 hm)
      | false => exact Finset.sum_le_sum_of_subset (hfirst.usedNames_subset hm)

/-- Inlining a name that is used lowers the weight. -/
theorem AbsorbsAll.useWeight_lt (h : AbsorbsAll p qs p')
    (hqs : ∀ q ∈ qs, q.name ∈ names ∧ UsesLower rank names q)
    (hused : ∃ q ∈ qs, p.mentions q.name = true) :
    useWeight rank names p' < useWeight rank names p := by
  induction qs generalizing p with
  | nil =>
      obtain ⟨_, hq, _⟩ := hused
      cases hq
  | cons q qs ih =>
      obtain ⟨p₁, hfirst, hrest⟩ := h
      rw [List.forall_mem_cons] at hqs
      cases hm : p.mentions q.name with
      | true =>
          exact lt_of_le_of_lt (hrest.useWeight_le hqs.2)
            (hfirst.useWeight_lt hqs.1.1 hqs.1.2 hm)
      | false =>
          have hsub : usedNames names p₁ ⊆ usedNames names p := hfirst.usedNames_subset hm
          obtain ⟨q', hq', hm'⟩ := hused
          have hq' : q' ∈ qs := by
            rcases List.mem_cons.mp hq' with rfl | hq'
            · rw [hm] at hm'
              cases hm'
            · exact hq'
          -- The name is still used when its turn comes, or it has gone before.
          cases hm₁ : p₁.mentions q'.name with
          | true =>
              exact lt_of_lt_of_le (ih hrest hqs.2 ⟨q', hq', hm₁⟩)
                (Finset.sum_le_sum_of_subset hsub)
          | false =>
              refine lt_of_le_of_lt (hrest.useWeight_le hqs.2)
                (useWeight_lt_of_erase (mem_usedNames.mpr ⟨(hqs.2 q' hq').1, hm'⟩)
                  fun x hx => ?_)
              refine Finset.mem_erase.mpr ⟨?_, hsub hx⟩
              rintro rfl
              rw [(mem_usedNames.mp hx).2] at hm₁
              cases hm₁

end Absorption

section Parts

variable [Scalar R]

/-- Replacing variables in a term, as inlining of terms. -/
theorem absorbsAll_simple (x : String) (pairs : List (String × Term R)) (t : Term R) :
    AbsorbsAll (.simple x t) (pairs.map fun e => .simple e.1 e.2)
      (.simple x (substEach Term.subst pairs t)) := by
  induction pairs generalizing t with
  | nil => rfl
  | cons e pairs ih =>
      refine ⟨.simple x (t.subst e.1 e.2), ⟨rfl, fun y hy => ?_⟩, ih (t.subst e.1 e.2)⟩
      exact (Term.mentions_subst t e.1 y e.2).mp hy

/-- Replacing variables in cases, as inlining of terms. -/
theorem absorbsAll_cases (x : String) (pairs : List (String × Term R))
    (cs : List (Formula R × Term R)) :
    AbsorbsAll (.cases x cs) (pairs.map fun e => .simple e.1 e.2)
      (.cases x (cs.map fun c =>
        (substEach Formula.subst pairs c.1, substEach Term.subst pairs c.2))) := by
  induction pairs generalizing cs with
  | nil => simp [AbsorbsAll, substEach]
  | cons e pairs ih =>
      have hrest := ih (cs.map fun c => (c.1.subst e.1 e.2, c.2.subst e.1 e.2))
      rw [List.map_map] at hrest
      refine ⟨.cases x (cs.map fun c => (c.1.subst e.1 e.2, c.2.subst e.1 e.2)),
        ⟨rfl, fun y hy => ?_⟩, hrest⟩
      obtain ⟨b, hb, hy⟩ := (mentions_cases y x _).mp hy
      obtain ⟨c, hc, rfl⟩ := List.mem_map.mp hb
      rw [Formula.mentions_subst, Term.mentions_subst] at hy
      have hcase : ∀ z, c.1.mentions z = true ∨ c.2.mentions z = true →
          (Definition.cases x cs).mentions z = true := fun z hz =>
            (mentions_cases z x cs).mpr ⟨c, hc, hz⟩
      rcases hy with (⟨hne, hy⟩ | ⟨hx, hy⟩) | (⟨hne, hy⟩ | ⟨hx, hy⟩)
      · exact Or.inl ⟨hne, hcase y (Or.inl hy)⟩
      · exact Or.inr ⟨hcase e.1 (Or.inl hx), hy⟩
      · exact Or.inl ⟨hne, hcase y (Or.inr hy)⟩
      · exact Or.inr ⟨hcase e.1 (Or.inr hx), hy⟩

omit [Scalar R] in
/-- The parts of a vector are its replacements. -/
theorem parts_vector (x : String) (ts : List (Term R)) :
    (Definition.vector x ts).parts = (Definition.vector x ts).replacements.map fun e =>
      .simple e.1 e.2 := by
  simp [parts, replacements, Function.comp_def]

/-- Replacing what `d` defines by terms, part by part. -/
theorem absorbs_parts_plain {e d : Definition R}
    (hd : d.parts = d.replacements.map fun q => .simple q.1 q.2)
    (hwhole : ∀ y us, d = .vector y us → e.mentions y = false) :
    List.Forall₂ (fun p p' => AbsorbsAll p d.parts p') e.parts
      (e.inlinePlain d).parts := by
  rw [hd]
  cases e with
  | simple x t =>
      have heq : (Definition.simple x t).inlinePlain d = .simple x (d.substTerm t) := by
        simp only [inlinePlain]
        split
        · next y z us =>
            split
            · next hyz =>
                have hno := hwhole z us rfl
                simp [mentions, Term.mentions_var, beq_iff_eq.mp hyz] at hno
            · rfl
        · rfl
      rw [heq]
      exact .cons (absorbsAll_simple x d.replacements t) .nil
  | vector x ts =>
      simp only [inlinePlain, parts, List.zipIdx_map, List.map_map,
        List.forall₂_map_left_iff, List.forall₂_map_right_iff, List.forall₂_same]
      rintro ⟨t, i⟩ _
      exact absorbsAll_simple (Term.elementName x i) d.replacements t
  | cases x cs => exact .cons (absorbsAll_cases x d.replacements cs) .nil
  | width x n => exact .nil

/-- A vector in which cases are put in falls apart. -/
theorem isScalar_of_mem_inlineCases_vector {x y : String} {ts : List (Term R)}
    {alternatives : List (Formula R × Term R)} {r : Definition R}
    (hr : r ∈ (Definition.vector x ts).inlineCases y alternatives) : r.IsScalar := by
  obtain ⟨⟨t, i⟩, _, rfl⟩ := List.mem_map.mp hr
  dsimp only
  split <;> trivial

/-- Replacing what is given by cases, part by part. -/
theorem absorbs_parts_cases {e : Definition R} {y : String}
    {alternatives : List (Formula R × Term R)} (hm : e.mentions y = true) :
    List.Forall₂ (fun p p' => AbsorbsAll p [.cases y alternatives] p') e.parts
      ((e.inlineCases y alternatives).flatMap parts) := by
  have hscalar : ∀ r, e.inlineCases y alternatives = [r] → r.IsScalar → r.name = e.name →
      e.parts = [e] →
      List.Forall₂ (fun p p' => AbsorbsAll p [.cases y alternatives] p') e.parts
        ((e.inlineCases y alternatives).flatMap parts) := by
    intro r hr hrs hname he
    rw [hr, List.flatMap_singleton, parts_of_isScalar hrs, he]
    refine .cons (absorbsAll_singleton.mpr ⟨hname, fun z hz => ?_⟩) .nil
    rcases mentions_of_mem_inlineCases (hr ▸ List.mem_singleton.mpr rfl) hz with hz | hz
    · exact Or.inl hz
    · exact Or.inr ⟨hm, hz⟩
  cases e with
  | simple x t => exact hscalar _ rfl trivial rfl rfl
  | cases x cs => exact hscalar _ rfl trivial rfl rfl
  | vector x ts =>
      rw [flatMap_parts_of_isScalar fun r hr => isScalar_of_mem_inlineCases_vector hr]
      simp only [inlineCases, parts, List.forall₂_map_left_iff, List.forall₂_map_right_iff,
        List.forall₂_same]
      rintro ⟨t, i⟩ _
      rw [absorbsAll_singleton]
      dsimp only
      split
      · next ht =>
          refine ⟨rfl, fun z hz => ?_⟩
          exact (mentions_byCases hz).imp_right fun hz => ⟨ht, hz⟩
      · next ht =>
          refine ⟨rfl, fun z hz => Or.inl ⟨?_, hz⟩⟩
          rintro rfl
          exact ht hz
  | width x n => simp [mentions] at hm

/-- A step of closing, part by part. -/
theorem absorbs_parts {ds next : List (Definition R)} {e d : Definition R}
    (h : Elementwise ds) (hrep : Replaces ds next e d) :
    List.Forall₂ (fun p p' => AbsorbsAll p d.parts p') e.parts
      ((e.inlined d).flatMap parts) := by
  obtain ⟨hdep, heq⟩ := inlined_eq_of_ne_nil hrep.changed
  have hwhole := h.not_mentions_vector hrep.mem hrep.other
  have hchanged := hrep.changed
  -- A single result is all that is left if anything is.
  have hsingle : ∀ r, inlineResults e d = [r] → e.inlined d = [r] := by
    intro r hr
    rw [hr] at heq
    rw [heq] at hchanged ⊢
    cases hbeq : r == e with
    | true => simp [hbeq] at hchanged
    | false => simp [hbeq]
  cases d with
  | simple y u =>
      rw [hsingle _ rfl, List.flatMap_singleton]
      exact absorbs_parts_plain rfl hwhole
  | vector y us =>
      rw [hsingle _ rfl, List.flatMap_singleton]
      exact absorbs_parts_plain (parts_vector y us) hwhole
  | cases y alternatives =>
      have hm : e.mentions y = true := by
        simp only [dependsOn, elementNames, name, List.any_nil, Bool.or_false,
          Bool.and_eq_true] at hdep
        exact hdep.2
      have hall : e.inlined (.cases y alternatives) = e.inlineCases y alternatives := by
        cases e with
        | simple x t => exact hsingle _ rfl
        | cases x cs => exact hsingle _ rfl
        | vector x ts =>
            rw [heq]
            refine List.filter_eq_self.mpr fun r hr => ?_
            have hs := isScalar_of_mem_inlineCases_vector hr
            cases r with
            | simple z t => rfl
            | cases z cs => rfl
            | vector z us => exact hs.elim
            | width z n => exact hs.elim
        | width x n => simp [mentions] at hm
      rw [hall]
      exact absorbs_parts_cases hm
  | width y n => exact absurd heq hchanged

omit [Scalar R] in
/-- A dependency is a use of one of the parts. -/
theorem exists_part_of_dependsOn {e d : Definition R} (h : e.dependsOn d = true)
    (hwhole : ∀ y us, d = .vector y us → e.mentions y = false) :
    ∃ p ∈ e.parts, ∃ q ∈ d.parts, p.mentions q.name = true := by
  have hused : ∃ q ∈ d.parts, e.mentions q.name = true := by
    simp only [dependsOn, Bool.and_eq_true, Bool.or_eq_true, List.any_eq_true] at h
    rcases h.2 with hm | ⟨y, hy, hm⟩
    · cases d with
      | simple z t => exact ⟨_, List.mem_singleton.mpr rfl, hm⟩
      | cases z cs => exact ⟨_, List.mem_singleton.mpr rfl, hm⟩
      | vector z us =>
          rw [show (Definition.vector z us).name = z from rfl, hwhole z us rfl] at hm
          cases hm
      | width z n => simp [isWidth] at h
    · cases d with
      | simple z t => cases hy
      | cases z cs => cases hy
      | vector z us =>
          obtain ⟨q, hq, rfl⟩ := mem_elementNames_vector.mp hy
          exact ⟨q, hq, hm⟩
      | width z n => cases hy
  obtain ⟨q, hq, hm⟩ := hused
  obtain ⟨p, hp, hpm⟩ := mentions_iff_parts.mp hm
  exact ⟨p, hp, q, hq, hpm⟩

end Parts

section Closing

variable {rank : String → Nat} {names : List String}

/-- Inlining into some of the parts lowers their weight. -/
theorem absorbed_parts {ps ps' qs : List (Definition R)}
    (h : List.Forall₂ (fun p p' => AbsorbsAll p qs p') ps ps')
    (hqs : ∀ q ∈ qs, q.name ∈ names ∧ UsesLower rank names q)
    (hps : ∀ p ∈ ps, UsesLower rank names p) :
    ps'.map name = ps.map name ∧ (∀ p ∈ ps', UsesLower rank names p) ∧
      totalWeight rank names ps' ≤ totalWeight rank names ps ∧
      ((∃ p ∈ ps, ∃ q ∈ qs, p.mentions q.name = true) →
        totalWeight rank names ps' < totalWeight rank names ps) := by
  induction h with
  | nil => simp
  | @cons p p' ps ps' hp _ ih =>
      rw [List.forall_mem_cons] at hps
      obtain ⟨hnames, hlower, hle, hlt⟩ := ih hps.2
      have hple := hp.useWeight_le hqs
      simp only [totalWeight, List.map_cons, List.sum_cons] at hle hlt ⊢
      refine ⟨by rw [hp.name_eq, hnames], ?_, by omega, ?_⟩
      · rw [List.forall_mem_cons]
        exact ⟨hp.usesLower hqs hps.1, hlower⟩
      · rintro ⟨p₀, hp₀, hused⟩
        rcases List.mem_cons.mp hp₀ with rfl | hp₀
        · have hplt := hp.useWeight_lt hqs hused
          omega
        · have hrest := hlt ⟨p₀, hp₀, hused⟩
          omega

variable [Scalar R]

/-- Definitions that use no vector as a whole, and whose parts have a rank. -/
structure LayeredParts (rank : String → Nat) (names : List String)
    (ds : List (Definition R)) : Prop where
  elementwise : Elementwise ds
  layered : Layered rank names (ds.flatMap parts)

/-- A step of closing keeps the names and ranks of the parts, and lowers the weight. -/
theorem LayeredParts.step {ds next : List (Definition R)} (h : LayeredParts rank names ds)
    (hstep : closeStep? ds = some next) :
    LayeredParts rank names next ∧
      totalWeight rank names (next.flatMap parts) < totalWeight rank names
        (ds.flatMap parts) := by
  obtain ⟨before, e, after, d, rfl, hd, hne, rfl⟩ := closeStep?_eq_some hstep
  have hdmem : d ∈ before ++ e :: after := by
    simp only [List.mem_append, List.mem_cons] at hd ⊢
    tauto
  have hrep : Replaces (before ++ e :: after) (before ++ e.inlined d ++ after) e d :=
    ⟨replacedBy_append before after (e.inlined d) e, hdmem, hne⟩
  have hlower : ∀ f ∈ before ++ e :: after, ∀ q ∈ f.parts, q.name ∈ names ∧
      UsesLower rank names q := by
    intro f hf q hq
    have hmem : q ∈ (before ++ e :: after).flatMap parts :=
      List.mem_flatMap.mpr ⟨f, hf, hq⟩
    exact ⟨h.layered.names_eq ▸ List.mem_map_of_mem hmem, h.layered.lower q hmem⟩
  obtain ⟨hnames, hnew, _, hlt⟩ :=
    absorbed_parts (absorbs_parts h.elementwise hrep) (hlower d hdmem)
    fun p hp => (hlower e hrep.mem p hp).2
  have hless := hlt (exists_part_of_dependsOn (inlined_eq_of_ne_nil hne).1
    (h.elementwise.not_mentions_vector hrep.mem hdmem))
  refine ⟨⟨h.elementwise.step hrep, ?_, ?_, ?_⟩, ?_⟩
  · intro p hp
    obtain ⟨f, _, hp⟩ := List.mem_flatMap.mp hp
    exact isScalar_of_mem_parts hp
  · rw [← h.layered.names_eq]
    simp only [List.flatMap_append, List.flatMap_cons, List.map_append, hnames,
      List.append_assoc]
  · intro p hp
    simp only [List.flatMap_append, List.mem_append] at hp
    rcases hp with (hp | hp) | hp
    · obtain ⟨f, hf, hp⟩ := List.mem_flatMap.mp hp
      exact (hlower f (List.mem_append_left _ hf) p hp).2
    · exact hnew p hp
    · obtain ⟨f, hf, hp⟩ := List.mem_flatMap.mp hp
      exact (hlower f (List.mem_append_right _ (List.mem_cons_of_mem _ hf)) p hp).2
  · simp only [totalWeight, List.flatMap_append, List.flatMap_cons, List.map_append,
      List.sum_append] at hless ⊢
    omega

/-- Closing ends if the parts have a rank. -/
theorem LayeredParts.exists_closed {ds : List (Definition R)}
    (h : LayeredParts rank names ds) : ∃ closed, exhaust? closeStep? ds = some closed :=
  exists_exhaust? (fun ds => totalWeight rank names (ds.flatMap parts))
    (fun _ _ h hstep => h.step hstep) h

end Closing

end Definition
end SignalFlow
