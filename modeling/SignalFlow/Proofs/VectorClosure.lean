import SignalFlow.Proofs.Lifting

/-!
# Closing definitions with vectors

After lifting, definitions use elements of vectors and no vector as a whole.  Closing keeps
it so: a vector into which cases are inlined falls apart into its elements, but these still
tell that there was a vector, and a name that is defined by a term or by cases stays so
defined.

**Results.**
* `Elementwise.step`: what a step of closing keeps.
* `closesTo_of_exhaust?`: the vectors and the names at the end of closing, and which names
  are used no more.
-/

namespace SignalFlow
namespace Definition

variable {R : Type} [Scalar R]

/-! ### What inlining makes of a definition -/

/-- A definition of a single name stays one, if no vector is put in for a whole. -/
theorem isScalar_of_mem_results {e d r : Definition R} (he : e.IsScalar)
    (hwhole : ∀ y us, d = .vector y us → e.mentions y = false)
    (hr : r ∈ inlineResults e d) : r.IsScalar ∧ r.name = e.name := by
  have hplain : (e.inlinePlain d).IsScalar ∧ (e.inlinePlain d).name = e.name := by
    cases e with
    | simple x t =>
        simp only [inlinePlain]
        split
        · next y z us =>
            split
            · next hyz =>
                have hno := hwhole z us rfl
                simp [mentions, Term.mentions_var, beq_iff_eq.mp hyz] at hno
            · exact ⟨trivial, rfl⟩
        · exact ⟨trivial, rfl⟩
    | cases x cs => exact ⟨trivial, rfl⟩
    | vector x ts => exact he.elim
    | width x n => exact he.elim
  cases d with
  | simple y u => rwa [List.mem_singleton.mp hr]
  | vector y us => rwa [List.mem_singleton.mp hr]
  | cases y alternatives =>
      cases e with
      | simple x t => rw [List.mem_singleton.mp hr]; exact ⟨trivial, rfl⟩
      | cases x cs => rw [List.mem_singleton.mp hr]; exact ⟨trivial, rfl⟩
      | vector x ts => exact he.elim
      | width x n => exact he.elim
  | width y n => cases hr

/-- A vector stays a vector, or falls apart into its elements. -/
theorem cases_of_mem_results_vector {x : String} {ts : List (Term R)} {d r : Definition R}
    (hr : r ∈ inlineResults (.vector x ts) d) :
    (∃ us, r = .vector x us ∧ us.length = ts.length) ∨
      (r.IsScalar ∧ ∃ i, r.name = Term.elementName x i) := by
  cases d with
  | simple y u => exact Or.inl ⟨_, List.mem_singleton.mp hr, by simp⟩
  | vector y us => exact Or.inl ⟨_, List.mem_singleton.mp hr, by simp⟩
  | cases y alternatives =>
      obtain ⟨⟨t, i⟩, _, rfl⟩ := List.mem_map.mp hr
      refine Or.inr ?_
      dsimp only
      split
      · exact ⟨trivial, i, rfl⟩
      · exact ⟨trivial, i, rfl⟩
  | width y n => cases hr

theorem IsSplit.flatMap_splitCase {y : String}
    {cs alternatives : List (Formula R × Term R)} (hcs : IsSplit cs)
    (halternatives : IsSplit alternatives) :
    IsSplit (cs.flatMap (splitCase y alternatives)) := by
  constructor
  · obtain ⟨c, hc⟩ := List.exists_mem_of_ne_nil cs hcs.1
    obtain ⟨b, hb⟩ : ∃ b, b ∈ splitCase y alternatives c := by
      unfold splitCase
      split
      · obtain ⟨a, ha⟩ := List.exists_mem_of_ne_nil alternatives halternatives.1
        exact ⟨_, List.mem_map_of_mem ha⟩
      · exact ⟨c, List.mem_singleton.mpr rfl⟩
    exact List.ne_nil_of_mem (List.mem_flatMap.mpr ⟨c, hc, hb⟩)
  · intro b hb
    obtain ⟨c, hc, hb⟩ := List.mem_flatMap.mp hb
    unfold splitCase at hb
    split at hb
    · obtain ⟨a, ha, rfl⟩ := List.mem_map.mp hb
      refine Formula.isProper_conj ?_
      intro p hp
      simp only [List.mem_cons, List.not_mem_nil, or_false] at hp
      rcases hp with rfl | rfl
      · exact (Formula.isProper_subst c.1 y a.2).mpr (hcs.2 c hc)
      · exact halternatives.2 a ha
    · rw [List.mem_singleton.mp hb]
      exact hcs.2 c hc

theorem isProper_substFormula (d : Definition R) {p : Formula R} (h : p.IsProper) :
    (d.substFormula p).IsProper :=
  List.foldlRecOn (motive := fun q : Formula R => q.IsProper) _ _ h
    fun q hq e _ => (Formula.isProper_subst q e.1 e.2).mpr hq

/-- Inlining keeps cases proper. -/
theorem isSplit_of_mem_results {e d : Definition R} {x : String}
    {cs : List (Formula R × Term R)} (hr : .cases x cs ∈ inlineResults e d)
    (he : ∀ y es, e = .cases y es → IsSplit es)
    (hd : ∀ y es, d = .cases y es → IsSplit es) : IsSplit cs := by
  have hplain : e.inlinePlain d = .cases x cs → IsSplit cs := by
    intro h
    cases e with
    | simple z t =>
        simp only [inlinePlain] at h
        split at h
        · split at h <;> cases h
        · cases h
    | cases z es =>
        cases h
        exact (he _ _ rfl).map fun c _ hc => isProper_substFormula d hc
    | vector z ts => cases h
    | width z n => cases h
  cases d with
  | simple y u => exact hplain (List.mem_singleton.mp hr).symm
  | vector y us => exact hplain (List.mem_singleton.mp hr).symm
  | cases y alternatives =>
      have halternatives := hd _ _ rfl
      cases e with
      | simple z t =>
          cases List.mem_singleton.mp hr
          exact halternatives.map fun a _ ha => ha
      | cases z es =>
          cases List.mem_singleton.mp hr
          exact (he _ _ rfl).flatMap_splitCase halternatives
      | vector z ts =>
          obtain ⟨⟨t, i⟩, _, hti⟩ := List.mem_map.mp hr
          dsimp only at hti
          split at hti
          · cases hti
            exact halternatives.map fun a _ ha => ha
          · cases hti
      | width z n => cases hr
  | width y n => cases hr

/-! ### Vectors that definitions speak of -/

omit [Scalar R] in
theorem widthNote?_of_isScalar {d : Definition R} (h : d.IsScalar) :
    d.widthNote? = (elementOf? d.name).map fun e => (e.1, e.2 + 1) := by
  cases d with
  | simple x t => rfl
  | cases x cs => rfl
  | vector x ts => exact h.elim
  | width x n => exact h.elim

/-- Definitions that use no vector as a whole. -/
structure Elementwise (ds : List (Definition R)) : Prop where
  tidy : Tidy ds
  not_mentions : ∀ x, IsVectorName ds x → ∀ d ∈ ds, d.mentions x = false

omit [Scalar R] in
theorem Elementwise.not_mentions_vector {ds : List (Definition R)} (h : Elementwise ds)
    {e d : Definition R} (he : e ∈ ds) (hd : d ∈ ds) (y : String) (us : List (Term R))
    (hy : d = .vector y us) : e.mentions y = false := by
  subst hy
  exact h.not_mentions y ⟨_, hd, us.length, rfl⟩ e he

/-- What a step of closing does: one definition `e` gives way to what inlining `d` makes of
it. -/
structure Replaces (ds next : List (Definition R)) (e d : Definition R) : Prop
    extends ReplacedBy ds next e (e.inlined d) where
  other : d ∈ ds
  changed : e.inlined d ≠ []

theorem exists_replaces {ds next : List (Definition R)} (h : closeStep? ds = some next) :
    ∃ e d, Replaces ds next e d := by
  obtain ⟨before, e, after, d, rfl, hd, hne, rfl⟩ := closeStep?_eq_some h
  refine ⟨e, d, replacedBy_append before after (e.inlined d) e, ?_, hne⟩
  simp only [List.mem_append, List.mem_cons] at hd ⊢
  tauto

theorem Replaces.isWidth_eq_false {ds next : List (Definition R)} {e d : Definition R}
    (h : Replaces ds next e d) : e.isWidth = false := by
  have hdep := (inlined_eq_of_ne_nil h.changed).1
  simp only [dependsOn, Bool.and_eq_true, Bool.not_eq_true'] at hdep
  exact hdep.1.1

/-- What the results say about vectors is what the replaced definition says. -/
theorem Elementwise.note_of_mem_inlined {ds next : List (Definition R)}
    {e d r : Definition R} (h : Elementwise ds) (hrep : Replaces ds next e d)
    (hr : r ∈ e.inlined d) {x : String} {n : Nat} (hx : r.widthNote? = some (x, n)) :
    ∃ m, e.widthNote? = some (x, m) := by
  have hwhole := h.not_mentions_vector hrep.mem hrep.other
  have hscalar : e.IsScalar → ∃ m, e.widthNote? = some (x, m) := by
    intro he
    obtain ⟨hrs, hname⟩ := isScalar_of_mem_results he hwhole (mem_inlined hr)
    rw [widthNote?_of_isScalar hrs, hname, ← widthNote?_of_isScalar he] at hx
    exact ⟨n, hx⟩
  cases e with
  | simple y t => exact hscalar trivial
  | cases y cs => exact hscalar trivial
  | vector y ts =>
      rcases cases_of_mem_results_vector (mem_inlined hr) with
        ⟨us, rfl, _⟩ | ⟨hrs, i, hname⟩
      · cases hx
        exact ⟨ts.length, rfl⟩
      · -- An element is read as an element of its vector.
        rw [widthNote?_of_isScalar hrs, hname] at hx
        obtain ⟨⟨z, j⟩, hz, hzx⟩ := Option.map_eq_some_iff.mp hx
        cases hzx
        have hplain := (h.tidy.vector y ts hrep.mem).1
        have hzy : z = y := by
          rw [eq_vectorOf_of_elementOf? hz, vectorOf_elementName, vectorOf_of_plain hplain]
        exact ⟨ts.length, by rw [hzy]; rfl⟩
  | width y m =>
      have hwidth := hrep.isWidth_eq_false
      cases hwidth

theorem Elementwise.exists_note_inlined {ds next : List (Definition R)}
    {e d : Definition R} (h : Elementwise ds) (hrep : Replaces ds next e d)
    {x : String} {n : Nat} (hx : e.widthNote? = some (x, n)) :
    ∃ r ∈ e.inlined d, ∃ m, r.widthNote? = some (x, m) := by
  have hwhole := h.not_mentions_vector hrep.mem hrep.other
  obtain ⟨r, hr⟩ := List.exists_mem_of_ne_nil _ hrep.changed
  have hscalar : e.IsScalar → ∃ r ∈ e.inlined d, ∃ m, r.widthNote? = some (x, m) := by
    intro he
    obtain ⟨hrs, hname⟩ := isScalar_of_mem_results he hwhole (mem_inlined hr)
    refine ⟨r, hr, n, ?_⟩
    rw [widthNote?_of_isScalar hrs, hname, ← widthNote?_of_isScalar he]
    exact hx
  cases e with
  | simple y t => exact hscalar trivial
  | cases y cs => exact hscalar trivial
  | vector y ts =>
      cases hx
      obtain ⟨hplain, hne⟩ := h.tidy.vector _ ts hrep.mem
      rcases cases_of_mem_results_vector (mem_inlined hr) with ⟨us, rfl, _⟩ | ⟨hrs, _⟩
      · exact ⟨_, hr, us.length, rfl⟩
      · -- The vector falls apart, and its first element is there.
        obtain ⟨first, hfirst, hs, hname⟩ : ∃ f ∈ inlineResults (.vector x ts) d,
            f.IsScalar ∧ f.name = Term.elementName x 0 := by
          cases d with
          | simple z u =>
              rw [List.mem_singleton.mp (mem_inlined hr)] at hrs
              exact hrs.elim
          | vector z us =>
              rw [List.mem_singleton.mp (mem_inlined hr)] at hrs
              exact hrs.elim
          | cases z alternatives =>
              obtain ⟨t, ts, rfl⟩ := List.exists_cons_of_ne_nil hne
              have hmem : (t, 0) ∈ (t :: ts).zipIdx := List.mem_zipIdx_iff_getElem?.mpr rfl
              refine ⟨_, List.mem_map_of_mem hmem, ?_⟩
              dsimp only
              split
              · exact ⟨trivial, rfl⟩
              · exact ⟨trivial, rfl⟩
          | width z m => cases mem_inlined hr
        have hdiffer : (first == .vector x ts) = false := by
          by_contra hbeq
          have hsame :=
            name_eq_of_beq (by simpa using hbeq : (first == .vector x ts) = true)
          rw [hname] at hsame
          refine not_plain_elementName x 0 ?_
          rw [hsame]
          exact hplain
        refine ⟨first, ?_, 1, ?_⟩
        · rw [(inlined_eq_of_ne_nil hrep.changed).2]
          exact List.mem_filter.mpr ⟨hfirst, by simp [hdiffer]⟩
        · rw [widthNote?_of_isScalar hs, hname, elementOf?_elementName hplain (by decide)]
          rfl
  | width y m =>
      have hwidth := hrep.isWidth_eq_false
      cases hwidth

/-- A step of closing keeps the vectors. -/
theorem Elementwise.isVectorName_step {ds next : List (Definition R)} {e d : Definition R}
    (h : Elementwise ds) (hrep : Replaces ds next e d) (x : String) :
    IsVectorName next x ↔ IsVectorName ds x := by
  constructor
  · rintro ⟨f, hf, n, hn⟩
    rcases hrep.new f hf with hf | hf
    · exact ⟨f, hf, n, hn⟩
    · obtain ⟨m, hm⟩ := h.note_of_mem_inlined hrep hf hn
      exact ⟨e, hrep.mem, m, hm⟩
  · rintro ⟨f, hf, n, hn⟩
    rcases hrep.stays f hf with hf | rfl
    · exact ⟨f, hf, n, hn⟩
    · obtain ⟨r, hr, m, hm⟩ := h.exists_note_inlined hrep hn
      exact ⟨r, hrep.result_mem r hr, m, hm⟩

/-! ### Steps of closing -/

theorem Elementwise.cases_of_mem_inlined {ds next : List (Definition R)}
    {e d f : Definition R} (h : Elementwise ds) (hrep : Replaces ds next e d)
    (hf : f ∈ e.inlined d) :
    f.IsScalar ∨ ∃ x ts us, e = .vector x ts ∧ f = .vector x us ∧
      us.length = ts.length := by
  have hmem := mem_inlined hf
  have hscalar : e.IsScalar → f.IsScalar := fun he =>
    (isScalar_of_mem_results he (h.not_mentions_vector hrep.mem hrep.other) hmem).1
  cases e with
  | simple x t => exact Or.inl (hscalar trivial)
  | cases x cs => exact Or.inl (hscalar trivial)
  | vector x ts =>
      rcases cases_of_mem_results_vector hmem with ⟨us, hus, hlen⟩ | ⟨hs, _⟩
      · exact Or.inr ⟨x, ts, us, rfl, hus, hlen⟩
      · exact Or.inl hs
  | width x n => exact absurd hrep.isWidth_eq_false (by simp [isWidth])

theorem Elementwise.tidy_step {ds next : List (Definition R)} {e d : Definition R}
    (h : Elementwise ds) (hrep : Replaces ds next e d) : Tidy next := by
  have hcases : ∀ f ∈ ds, ∀ y es, f = .cases y es → IsSplit es := by
    rintro f hf y es rfl
    exact h.tidy.cases y es hf
  refine ⟨?_, ?_, ?_⟩
  · intro x us hf
    rcases hrep.new _ hf with hf | hf
    · exact h.tidy.vector x us hf
    · rcases h.cases_of_mem_inlined hrep hf with hs | ⟨y, ts, vs, rfl, heq, hlen⟩
      · exact hs.elim
      · cases heq
        obtain ⟨hplain, hne⟩ := h.tidy.vector _ ts hrep.mem
        refine ⟨hplain, ?_⟩
        rw [← List.length_pos_iff] at hne ⊢
        omega
  · intro x n hf
    rcases hrep.new _ hf with hf | hf
    · exact h.tidy.width x n hf
    · rcases h.cases_of_mem_inlined hrep hf with hs | ⟨y, ts, vs, rfl, heq, _⟩
      · exact hs.elim
      · cases heq
  · intro x cs hf
    rcases hrep.new _ hf with hf | hf
    · exact h.tidy.cases x cs hf
    · exact isSplit_of_mem_results (mem_inlined hf) (hcases e hrep.mem)
        (hcases d hrep.other)

/-- A step of closing keeps the vectors, and puts none of them in as a whole. -/
theorem Elementwise.step {ds next : List (Definition R)} {e d : Definition R}
    (h : Elementwise ds) (hrep : Replaces ds next e d) : Elementwise next := by
  refine ⟨h.tidy_step hrep, ?_⟩
  intro x hx f hf
  have hx := (h.isVectorName_step hrep x).mp hx
  rcases hrep.new f hf with hf | hf
  · exact h.not_mentions x hx f hf
  · by_contra hm
    rcases mentions_of_mem_results (mem_inlined hf) (by simpa using hm) with ⟨he, _⟩ | hd
    · rw [h.not_mentions x hx e hrep.mem] at he
      cases he
    · rw [h.not_mentions x hx d hrep.other] at hd
      cases hd

theorem Elementwise.vectorOf_name_of_mem_inlined {ds next : List (Definition R)}
    {e d f : Definition R} (h : Elementwise ds) (hrep : Replaces ds next e d)
    (hf : f ∈ e.inlined d) : vectorOf f.name = vectorOf e.name := by
  have hmem := mem_inlined hf
  have hscalar : e.IsScalar → vectorOf f.name = vectorOf e.name := fun he => by
    rw [(isScalar_of_mem_results he (h.not_mentions_vector hrep.mem hrep.other) hmem).2]
  cases e with
  | simple x t => exact hscalar trivial
  | cases x cs => exact hscalar trivial
  | vector x ts =>
      rcases cases_of_mem_results_vector hmem with ⟨us, rfl, _⟩ | ⟨_, i, hname⟩
      · rfl
      · rw [hname, vectorOf_elementName]
        rfl
  | width x n => exact absurd hrep.isWidth_eq_false (by simp [isWidth])

theorem Traced.closeStep {given ds next : List (Definition R)} {e d : Definition R}
    (h : Traced given ds) (hds : Elementwise ds) (hrep : Replaces ds next e d) :
    Traced given next := by
  intro f hf z hz
  rcases hrep.new f hf with hf | hf
  · exact h f hf z hz
  · rw [hds.vectorOf_name_of_mem_inlined hrep hf]
    rcases mentions_of_mem_results (mem_inlined hf) hz with ⟨hez, _⟩ | hdz
    · exact h e hrep.mem z hez
    · -- The replaced definition uses the inlined name or one of its elements.
      have hdep := (inlined_eq_of_ne_nil hrep.changed).1
      simp only [dependsOn, Bool.and_eq_true, Bool.or_eq_true, List.any_eq_true] at hdep
      have huse : Relation.TransGen (UsesPart given) (vectorOf e.name)
          (vectorOf d.name) := by
        rcases hdep.2 with hname | ⟨x, hx, hname⟩
        · exact h e hrep.mem d.name hname
        · cases d with
          | vector y us =>
              obtain ⟨i, _, rfl⟩ := List.mem_map.mp hx
              have hpart := h e hrep.mem _ hname
              rwa [vectorOf_elementName] at hpart
          | simple y u => cases hx
          | cases y cs => cases hx
          | width y n => cases hx
      exact huse.trans (h d hrep.other z hdz)

/-- The name is defined by a term or by cases. -/
def IsScalarName (ds : List (Definition R)) (x : String) : Prop :=
  ∃ d ∈ ds, d.IsScalar ∧ d.name = x

/-- What closing keeps of the given definitions. -/
structure ClosesTo (given ds : List (Definition R)) : Prop where
  elementwise : Elementwise ds
  vectors : ∀ x, IsVectorName ds x ↔ IsVectorName given x
  scalars : ∀ x, IsScalarName given x → IsScalarName ds x

theorem ClosesTo.step {given ds next : List (Definition R)} (h : ClosesTo given ds)
    (hstep : closeStep? ds = some next) : ClosesTo given next := by
  obtain ⟨e, d, hrep⟩ := exists_replaces hstep
  refine ⟨h.elementwise.step hrep, ?_, ?_⟩
  · intro x
    rw [h.elementwise.isVectorName_step hrep, h.vectors]
  · intro x hx
    obtain ⟨f, hf, hs, hname⟩ := h.scalars x hx
    rcases hrep.stays f hf with hf | rfl
    · exact ⟨f, hf, hs, hname⟩
    · obtain ⟨r, hr⟩ := List.exists_mem_of_ne_nil _ hrep.changed
      have hwhole := h.elementwise.not_mentions_vector hrep.mem hrep.other
      obtain ⟨hrs, hrname⟩ := isScalar_of_mem_results hs hwhole (mem_inlined hr)
      exact ⟨r, hrep.result_mem r hr, hrs, hrname.trans hname⟩

omit [Scalar R] in
theorem isVectorName_of_beq [BEq R] {d e : Definition R} (h : (d == e) = true) {x : String}
    {n : Nat} (hx : d.widthNote? = some (x, n)) : ∃ m, e.widthNote? = some (x, m) := by
  rcases parts_of_beq h with ⟨_, _, _, rfl, rfl, _⟩ | ⟨_, ts, us, rfl, rfl, _⟩ |
    ⟨_, _, _, rfl, rfl, _⟩ | ⟨_, _, rfl, rfl⟩
  · exact ⟨n, hx⟩
  · cases hx
    exact ⟨us.length, rfl⟩
  · exact ⟨n, hx⟩
  · exact ⟨n, hx⟩

omit [Scalar R] in
theorem isScalar_of_beq [BEq R] {d e : Definition R} (h : (d == e) = true)
    (hd : d.IsScalar) : e.IsScalar := by
  rcases parts_of_beq h with ⟨_, _, _, rfl, rfl, _⟩ | ⟨_, _, _, rfl, rfl, _⟩ |
    ⟨_, _, _, rfl, rfl, _⟩ | ⟨_, _, rfl, rfl⟩
  · trivial
  · exact hd
  · trivial
  · exact hd

omit [Scalar R] in
theorem Tidy.of_subset {ds es : List (Definition R)} (h : Tidy ds)
    (hsub : ∀ d ∈ es, d ∈ ds) : Tidy es :=
  ⟨fun x ts hd => h.vector x ts (hsub _ hd), fun x n hd => h.width x n (hsub _ hd),
    fun x cs hd => h.cases x cs (hsub _ hd)⟩

theorem ClosesTo.distinct {given ds : List (Definition R)} (h : ClosesTo given ds) :
    ClosesTo given (distinct ds) := by
  have hvectors : ∀ x, IsVectorName (SignalFlow.distinct ds) x ↔ IsVectorName ds x := by
    intro x
    constructor
    · rintro ⟨d, hd, n, hn⟩
      exact ⟨d, mem_of_mem_distinct hd, n, hn⟩
    · rintro ⟨d, hd, n, hn⟩
      obtain ⟨e, he, rfl | hde⟩ := exists_mem_distinct hd
      · exact ⟨e, he, n, hn⟩
      · exact ⟨e, he, isVectorName_of_beq hde hn⟩
  refine ⟨⟨?_, ?_⟩, ?_, ?_⟩
  · exact h.elementwise.tidy.of_subset fun d hd => mem_of_mem_distinct hd
  · intro x hx d hd
    exact h.elementwise.not_mentions x ((hvectors x).mp hx) d (mem_of_mem_distinct hd)
  · intro x
    rw [hvectors, h.vectors]
  · intro x hx
    obtain ⟨d, hd, hs, hname⟩ := h.scalars x hx
    obtain ⟨e, he, rfl | hde⟩ := exists_mem_distinct hd
    · exact ⟨e, he, hs, hname⟩
    · exact ⟨e, he, isScalar_of_beq hde hs, (name_eq_of_beq hde).symm.trans hname⟩

/-- The end of closing: a name with a definition that does not use the name is used
nowhere. -/
theorem closesTo_of_exhaust? {origin given ds : List (Definition R)}
    (hgiven : Elementwise given) (htraced : Traced origin given)
    (h : exhaust? closeStep? given = some ds) :
    ClosesTo given (distinct ds) ∧ Traced origin (distinct ds) ∧
      ∀ d ∈ distinct ds, d.IsScalar → d.mentions d.name = false →
        ∀ e ∈ distinct ds, e.mentions d.name = false := by
  obtain ⟨hreach, hnone⟩ := reaches_of_exhaust? h
  have hend : ClosesTo given ds ∧ Traced origin ds := by
    refine hreach.invariant (P := fun es => ClosesTo given es ∧ Traced origin es) ?_
      ⟨⟨hgiven, fun _ => Iff.rfl, fun _ hx => hx⟩, htraced⟩
    rintro es next ⟨hes, htraced⟩ hstep
    obtain ⟨e, d, hrep⟩ := exists_replaces hstep
    exact ⟨hes.step hstep, htraced.closeStep hes.elementwise hrep⟩
  refine ⟨hend.1.distinct, fun d hd => hend.2 d (mem_of_mem_distinct hd), ?_⟩
  intro d hd hs hself e he
  exact not_mentions_of_closeStep?_none hnone (mem_of_mem_distinct hd) hs hself
    (mem_of_mem_distinct he)

end Definition
end SignalFlow
