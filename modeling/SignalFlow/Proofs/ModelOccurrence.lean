import SignalFlow.Proofs.Unfolding
import SignalFlow.Proofs.VectorClosure

/-!
# Variables of a model while it is unfolded

A model is unfolded in two passes.  First every vector is replaced by its elements, in the
model and in the variables that become vectors with it; then the definitions are unfolded
in order.  Both are told by the variables that are read afterwards: lifting a vector takes
it away and brings in its elements, and unfolding a definition takes the name of a term or
of cases away and brings in what the definition reads.

**Results.**
* `HybridModel.mentions_liftVector`, `Definition.mentions_unfoldModel`: the effect of one
  vector, of one definition.
* `HybridModel.not_mentions_of_lifted`, `HybridModel.not_mentions_of_unfolded`: what is
  gone when all vectors are lifted and all definitions unfolded.
* `HybridModel.mentions_unfoldAll_follower`: what stays.
-/

namespace SignalFlow

variable {R : Type}

namespace Program

theorem mentionsAny_eq_any (x : String) (ps : List (Program R)) :
    mentionsAny x ps = ps.any (mentions x) := by
  induction ps with
  | nil => simp [mentionsAny]
  | cons p ps ih => simp [mentionsAny, ih]

theorem mentions_seq (x : String) (ps : List (Program R)) :
    (Program.seq ps).mentions x = true ↔ ∃ p ∈ ps, p.mentions x = true := by
  simp [mentions, mentionsAny_eq_any]

theorem mentions_choice (x : String) (ps : List (Program R)) :
    (Program.choice ps).mentions x = true ↔ ∃ p ∈ ps, p.mentions x = true := by
  simp [mentions, mentionsAny_eq_any]

theorem exists_of_mentions_sequence {x : String} {ps : List (Program R)}
    (h : (sequence ps).mentions x = true) : ∃ p ∈ ps, p.mentions x = true := by
  have hsteps : ∀ p : Program R, ∀ q ∈ p.steps, q.mentions x = true →
      p.mentions x = true := by
    intro p q hq hm
    cases p with
    | skip => cases hq
    | seq qs => exact (mentions_seq x qs).mpr ⟨q, hq, hm⟩
    | _ => rwa [← List.mem_singleton.mp hq]
  have hflat : ∀ q ∈ ps.flatMap steps, q.mentions x = true →
      ∃ p ∈ ps, p.mentions x = true := by
    intro q hq hm
    obtain ⟨p, hp, hqp⟩ := List.mem_flatMap.mp hq
    exact ⟨p, hp, hsteps p q hqp hm⟩
  unfold sequence at h
  split at h
  · simp [mentions] at h
  · next q hone => exact hflat q (by simp [hone]) h
  · obtain ⟨q, hq, hm⟩ := (mentions_seq x _).mp h
    exact hflat q hq hm

theorem exists_of_mentions_oneOf {x : String} {ps : List (Program R)}
    (h : (oneOf ps).mentions x = true) : ∃ p ∈ ps, p.mentions x = true := by
  unfold oneOf at h
  split at h
  · simp [mentions] at h
  · next q => exact ⟨q, List.mem_singleton.mpr rfl, h⟩
  · exact (mentions_choice x _).mp h

end Program

theorem HybridModel.mentions_iff (x : String) (m : HybridModel R) :
    m.mentions x = true ↔
      m.initial.mentions x = true ∨ m.control.mentions x = true ∨
        (∃ e ∈ m.plant, e.mentions x = true) ∨ m.contract.mentions x = true ∨
        ∃ p ∈ m.properties, p.mentions x = true := by
  simp only [mentions, Bool.or_eq_true, List.any_eq_true, or_assoc]

theorem Evolution.mentions_iff (x : String) (e : Evolution R) :
    e.mentions x = true ↔ (∃ ode ∈ e.odes, ode.2.mentions x = true) ∨
      e.domain.mentions x = true := by
  simp [mentions]

variable [Scalar R]

/-! ### Lifting a vector -/

section LiftVector

variable {v x : String} {width : Nat}

theorem Formula.mentions_liftVector {p : Formula R}
    (h : (p.liftVector v width).mentions x = true) :
    Definition.UsedLifted v x (p.mentions x = true) := by
  unfold liftVector at h
  split at h
  · obtain ⟨q, hq, hm⟩ := exists_of_mentions_conj h
    obtain ⟨i, _, rfl⟩ := List.mem_map.mp hq
    exact Definition.mentions_formulaAt hm
  · next hno =>
      refine Or.inl ⟨h, ?_⟩
      rintro rfl
      exact hno h

theorem Program.liftVectors_eq_map (ps : List (Program R)) :
    liftVectors v width ps = ps.map (liftVector v width) := by
  induction ps with
  | nil => simp [liftVectors]
  | cons p ps ih => simp [liftVectors, ih]

theorem Program.mentions_liftVector {p : Program R}
    (h : (p.liftVector v width).mentions x = true) :
    Definition.UsedLifted v x (p.mentions x = true) := by
  induction p with
  | skip => simp [liftVector, mentions] at h
  | havoc y => simp [liftVector, mentions] at h
  | assign y t =>
      simp only [liftVector] at h
      split at h
      · obtain ⟨q, hq, hm⟩ := exists_of_mentions_sequence h
        obtain ⟨i, _, rfl⟩ := List.mem_map.mp hq
        simp only [mentions] at hm ⊢
        exact Definition.mentions_atElement hm
      · next hno =>
          refine Or.inl ⟨h, ?_⟩
          rintro rfl
          simp only [mentions] at h
          exact hno h
  | test p =>
      simp only [liftVector, mentions] at h ⊢
      exact Formula.mentions_liftVector h
  | seq ps ih =>
      rw [liftVector, liftVectors_eq_map] at h
      obtain ⟨q, hq, hm⟩ := exists_of_mentions_sequence h
      obtain ⟨p, hp, rfl⟩ := List.mem_map.mp hq
      exact (ih p hp hm).mono fun hpm => (mentions_seq x ps).mpr ⟨p, hp, hpm⟩
  | choice ps ih =>
      rw [liftVector, liftVectors_eq_map] at h
      obtain ⟨q, hq, hm⟩ := exists_of_mentions_oneOf h
      obtain ⟨p, hp, rfl⟩ := List.mem_map.mp hq
      exact (ih p hp hm).mono fun hpm => (mentions_choice x ps).mpr ⟨p, hp, hpm⟩
  | loop p ih =>
      simp only [liftVector, mentions] at h ⊢
      exact ih h

theorem Evolution.mentions_liftVector {e : Evolution R}
    (h : (e.liftVector v width).mentions x = true) :
    Definition.UsedLifted v x (e.mentions x = true) := by
  rcases (Evolution.mentions_iff x _).mp h with ⟨ode, hode, hm⟩ | hm
  · obtain ⟨ode', hode', hmem⟩ := List.mem_flatMap.mp hode
    have hread : Definition.UsedLifted v x (ode'.2.mentions x = true) := by
      split at hmem
      · obtain ⟨i, _, rfl⟩ := List.mem_map.mp hmem
        exact Definition.mentions_atElement hm
      · next hno =>
          rw [List.mem_singleton.mp hmem] at hm
          refine Or.inl ⟨hm, ?_⟩
          rintro rfl
          exact hno hm
    exact hread.mono fun hm => (Evolution.mentions_iff x e).mpr (Or.inl ⟨ode', hode', hm⟩)
  · exact (Formula.mentions_liftVector hm).mono fun hm =>
      (Evolution.mentions_iff x e).mpr (Or.inr hm)

theorem HybridModel.mentions_liftVector {m : HybridModel R}
    (h : (m.liftVector v width).mentions x = true) :
    Definition.UsedLifted v x (m.mentions x = true) := by
  have hmodel := (HybridModel.mentions_iff x m).mpr
  rcases (HybridModel.mentions_iff x _).mp h with hm | hm | ⟨e, he, hm⟩ | hm | ⟨p, hp, hm⟩
  · exact (Formula.mentions_liftVector hm).mono fun hm => hmodel (Or.inl hm)
  · exact (Program.mentions_liftVector hm).mono fun hm => hmodel (Or.inr (Or.inl hm))
  · obtain ⟨f, hf, rfl⟩ := List.mem_map.mp he
    exact (Evolution.mentions_liftVector hm).mono fun hm =>
      hmodel (Or.inr (Or.inr (Or.inl ⟨f, hf, hm⟩)))
  · exact (Program.mentions_liftVector hm).mono fun hm =>
      hmodel (Or.inr (Or.inr (Or.inr (Or.inl hm))))
  · obtain ⟨q, hq, rfl⟩ := List.mem_map.mp hp
    exact (Formula.mentions_liftVector hm).mono fun hm =>
      hmodel (Or.inr (Or.inr (Or.inr (Or.inr ⟨q, hq, hm⟩))))

end LiftVector

/-! ### Unfolding a definition -/

namespace Definition

variable {d : Definition R} {x : String}

/-- What is used of `x` after unfolding `d`: it was used before and is not the name of a
term or of cases, or the definition uses it. -/
def UsedUnfolded (d : Definition R) (x : String) (before : Prop) : Prop :=
  (before ∧ (d.IsScalar → x ≠ d.name)) ∨ d.mentions x = true

omit [Scalar R] in
theorem UsedUnfolded.mono {before before' : Prop} (h : UsedUnfolded d x before)
    (himp : before → before') : UsedUnfolded d x before' :=
  Or.imp_left (And.imp_left himp) h

omit [Scalar R] in
theorem usedUnfolded_of_cases {y : String} {cs : List (Formula R × Term R)} {before : Prop}
    (h : (before ∧ x ≠ y) ∨ (Definition.cases y cs).mentions x = true) :
    UsedUnfolded (.cases y cs) x before :=
  Or.imp_left (And.imp_right fun hne _ => hne) h

omit [Scalar R] in
/-- The form in which replacing a definition without guards is told. -/
theorem usedUnfolded_of_replaced {before : Prop} (hcases : ∀ y cs, d ≠ .cases y cs)
    (h : (before ∧ ∀ y t, d = .simple y t → x ≠ y) ∨ d.mentions x = true) :
    UsedUnfolded d x before := by
  rcases h with ⟨h, hne⟩ | h
  · refine Or.inl ⟨h, ?_⟩
    intro hs
    cases d with
    | simple y t => exact hne y t rfl
    | cases y cs => exact absurd rfl (hcases y cs)
    | vector y ts => exact hs.elim
    | width y n => exact hs.elim
  · exact Or.inr h

theorem mentions_of_mem_expand {t : Term R} {a : Formula R × Term R} (ha : a ∈ d.expand t)
    (h : a.1.mentions x = true ∨ a.2.mentions x = true) :
    UsedUnfolded d x (t.mentions x = true) := by
  have hplain : d.expand t = [(.top, d.substTerm t)] → (∀ y cs, d ≠ .cases y cs) →
      UsedUnfolded d x (t.mentions x = true) := by
    intro hexpand hcases
    rw [hexpand] at ha
    rw [List.mem_singleton.mp ha] at h
    rcases h with h | h
    · simp at h
    · exact usedUnfolded_of_replaced hcases (mentions_substTerm h)
  cases d with
  | simple y u => exact hplain rfl (by simp)
  | vector y us => exact hplain rfl (by simp)
  | width y n => exact hplain rfl (by simp)
  | cases y cs =>
      apply usedUnfolded_of_cases
      simp only [expand] at ha
      split at ha
      · obtain ⟨c, hc, rfl⟩ := List.mem_map.mp ha
        have hcase : (c.1.mentions x = true ∨ c.2.mentions x = true) →
            (Definition.cases y cs).mentions x = true :=
          fun h => (mentions_cases x y cs).mpr ⟨c, hc, h⟩
        rcases h with h | h
        · exact Or.inr (hcase (Or.inl h))
        · rcases (Term.mentions_subst _ _ _ _).mp h with ⟨hne, h⟩ | ⟨_, h⟩
          · exact Or.inl ⟨h, hne⟩
          · exact Or.inr (hcase (Or.inr h))
      · next hno =>
          rw [List.mem_singleton.mp ha] at h
          have h : t.mentions x = true := by simpa using h
          refine Or.inl ⟨h, ?_⟩
          rintro rfl
          exact hno h

/-- The variables of a formula split by cases, as it stands in a disjunction or in the
domain of an evolution. -/
theorem mentions_conj_case {y : String} {cs : List (Formula R × Term R)}
    {c : Formula R × Term R} (hc : c ∈ cs) {p : Formula R}
    (h : (Formula.conj [c.1, p.subst y c.2]).mentions x = true) :
    UsedUnfolded (.cases y cs) x (p.mentions x = true) := by
  have hcase : (c.1.mentions x = true ∨ c.2.mentions x = true) →
      (Definition.cases y cs).mentions x = true :=
    fun h => (mentions_cases x y cs).mpr ⟨c, hc, h⟩
  apply usedUnfolded_of_cases
  obtain ⟨q, hq, hm⟩ := Formula.exists_of_mentions_conj h
  simp only [List.mem_cons, List.not_mem_nil, or_false] at hq
  rcases hq with rfl | rfl
  · exact Or.inr (hcase (Or.inl hm))
  · rcases (Formula.mentions_subst _ _ _ _).mp hm with ⟨hne, h⟩ | ⟨_, h⟩
    · exact Or.inl ⟨h, hne⟩
    · exact Or.inr (hcase (Or.inr h))

theorem mentions_unfoldFormula {p : Formula R}
    (h : (d.unfoldFormula p).mentions x = true) :
    UsedUnfolded d x (p.mentions x = true) := by
  cases d with
  | simple y u => exact usedUnfolded_of_replaced (by simp) (mentions_substFormula h)
  | vector y us => exact usedUnfolded_of_replaced (by simp) (mentions_substFormula h)
  | width y n => exact usedUnfolded_of_replaced (by simp) (mentions_substFormula h)
  | cases y cs =>
      simp only [unfoldFormula] at h
      split at h
      · obtain ⟨q, hq, hm⟩ := Formula.exists_of_mentions_disj h
        obtain ⟨c, hc, rfl⟩ := List.mem_map.mp hq
        exact mentions_conj_case hc hm
      · next hno =>
          refine usedUnfolded_of_cases (Or.inl ⟨h, ?_⟩)
          rintro rfl
          exact hno h

omit [Scalar R] in
theorem exists_of_mentions_assignExpanded {y : String} {as : List (Formula R × Term R)}
    (h : (assignExpanded y as).mentions x = true) :
    ∃ a ∈ as, a.1.mentions x = true ∨ a.2.mentions x = true := by
  unfold assignExpanded at h
  split at h
  · next t =>
      simp only [Program.mentions] at h
      exact ⟨(.top, t), List.mem_singleton.mpr rfl, Or.inr h⟩
  · obtain ⟨q, hq, hm⟩ := Program.exists_of_mentions_oneOf h
    obtain ⟨a, ha, rfl⟩ := List.mem_map.mp hq
    obtain ⟨q, hq, hm⟩ := Program.exists_of_mentions_sequence hm
    simp only [List.mem_cons, List.not_mem_nil, or_false] at hq
    rcases hq with rfl | rfl
    · exact ⟨a, ha, Or.inl (by simpa [Program.mentions] using hm)⟩
    · exact ⟨a, ha, Or.inr (by simpa [Program.mentions] using hm)⟩

theorem mentions_unfoldProgram {p : Program R}
    (h : (d.unfoldProgram p).mentions x = true) :
    UsedUnfolded d x (p.mentions x = true) := by
  induction p with
  | skip => simp [unfoldProgram, Program.mentions] at h
  | havoc y => simp [unfoldProgram, Program.mentions] at h
  | assign y t =>
      rw [unfoldProgram] at h
      obtain ⟨a, ha, hm⟩ := exists_of_mentions_assignExpanded h
      simp only [Program.mentions]
      exact mentions_of_mem_expand ha hm
  | test p =>
      simp only [unfoldProgram, Program.mentions] at h ⊢
      exact mentions_unfoldFormula h
  | seq ps ih =>
      rw [unfoldProgram, unfoldPrograms_eq_map] at h
      obtain ⟨q, hq, hm⟩ := Program.exists_of_mentions_sequence h
      obtain ⟨p, hp, rfl⟩ := List.mem_map.mp hq
      exact (ih p hp hm).mono fun hpm => (Program.mentions_seq x ps).mpr ⟨p, hp, hpm⟩
  | choice ps ih =>
      rw [unfoldProgram, unfoldPrograms_eq_map] at h
      obtain ⟨q, hq, hm⟩ := Program.exists_of_mentions_oneOf h
      obtain ⟨p, hp, rfl⟩ := List.mem_map.mp hq
      exact (ih p hp hm).mono fun hpm => (Program.mentions_choice x ps).mpr ⟨p, hp, hpm⟩
  | loop p ih =>
      simp only [unfoldProgram, Program.mentions] at h ⊢
      exact ih h

theorem mentions_of_mem_unfoldEvolution {e f : Evolution R} (hf : f ∈ d.unfoldEvolution e)
    (h : f.mentions x = true) : UsedUnfolded d x (e.mentions x = true) := by
  have hodes : (∃ ode ∈ e.odes, ode.2.mentions x = true) → e.mentions x = true :=
    fun h => (Evolution.mentions_iff x e).mpr (Or.inl h)
  have hdomain : e.domain.mentions x = true → e.mentions x = true :=
    fun h => (Evolution.mentions_iff x e).mpr (Or.inr h)
  have hplain :
      f = ⟨e.odes.map fun ode => (ode.1, d.substTerm ode.2), d.substFormula e.domain⟩ →
      (∀ y cs, d ≠ .cases y cs) → UsedUnfolded d x (e.mentions x = true) := by
    rintro rfl hcases
    rcases (Evolution.mentions_iff x _).mp h with ⟨_, hmem, hm⟩ | hm
    · obtain ⟨ode, hode, rfl⟩ := List.mem_map.mp hmem
      exact (usedUnfolded_of_replaced hcases (mentions_substTerm hm)).mono
        fun h => hodes ⟨ode, hode, h⟩
    · exact (usedUnfolded_of_replaced hcases (mentions_substFormula hm)).mono hdomain
  cases d with
  | simple y u => exact hplain (List.mem_singleton.mp hf) (by simp)
  | vector y us => exact hplain (List.mem_singleton.mp hf) (by simp)
  | width y n => exact hplain (List.mem_singleton.mp hf) (by simp)
  | cases y cs =>
      simp only [unfoldEvolution] at hf
      split at hf
      · obtain ⟨c, hc, rfl⟩ := List.mem_map.mp hf
        rcases (Evolution.mentions_iff x _).mp h with ⟨_, hmem, hm⟩ | hm
        · obtain ⟨ode, hode, rfl⟩ := List.mem_map.mp hmem
          apply usedUnfolded_of_cases
          rcases (Term.mentions_subst _ _ _ _).mp hm with ⟨hne, hm⟩ | ⟨_, hm⟩
          · exact Or.inl ⟨hodes ⟨ode, hode, hm⟩, hne⟩
          · exact Or.inr ((mentions_cases x y cs).mpr ⟨c, hc, Or.inr hm⟩)
        · exact (mentions_conj_case hc hm).mono hdomain
      · next hno =>
          rw [List.mem_singleton.mp hf] at h
          refine usedUnfolded_of_cases (Or.inl ⟨h, ?_⟩)
          rintro rfl
          exact hno h

theorem mentions_unfoldModel {m : HybridModel R}
    (h : (unfoldModel m d).mentions x = true) :
    UsedUnfolded d x (m.mentions x = true) := by
  have hmodel := (HybridModel.mentions_iff x m).mpr
  rcases (HybridModel.mentions_iff x _).mp h with hm | hm | ⟨f, hf, hm⟩ | hm | ⟨q, hq, hm⟩
  · exact (mentions_unfoldFormula hm).mono fun hm => hmodel (Or.inl hm)
  · exact (mentions_unfoldProgram hm).mono fun hm => hmodel (Or.inr (Or.inl hm))
  · obtain ⟨e, he, hf⟩ := List.mem_flatMap.mp hf
    exact (mentions_of_mem_unfoldEvolution hf hm).mono fun hm =>
      hmodel (Or.inr (Or.inr (Or.inl ⟨e, he, hm⟩)))
  · exact (mentions_unfoldProgram hm).mono fun hm =>
      hmodel (Or.inr (Or.inr (Or.inr (Or.inl hm))))
  · obtain ⟨p, hp, rfl⟩ := List.mem_map.mp (mem_of_mem_distinct hq)
    exact (mentions_unfoldFormula hm).mono fun hm =>
      hmodel (Or.inr (Or.inr (Or.inr (Or.inr ⟨p, hp, hm⟩))))

end Definition

namespace HybridModel

/-! ### Lifting and unfolding to the end -/

/-- The vector waits to be lifted or has been lifted; in the second case it is read no
more. -/
structure Lifting.Handles (l : Lifting R) (v : String) : Prop where
  mem : v ∈ l.pending.map Prod.fst ∨ v ∈ l.lifted
  not_mentions : v ∈ l.lifted → l.model.mentions v = false

theorem Lifting.Handles.step {l next : Lifting R} {v : String} (hplain : PlainName v)
    (h : l.Handles v) (hstep : l.step? = some next) : next.Handles v := by
  obtain ⟨pending, lifted, m⟩ := l
  obtain ⟨hmem, hnot⟩ := h
  cases pending with
  | nil => cases hstep
  | cons e rest =>
      obtain ⟨w, width⟩ := e
      simp only [List.map_cons, List.mem_cons] at hmem
      simp only [Lifting.step?] at hstep
      split at hstep
      · next hdone =>
          cases hstep
          refine ⟨?_, hnot⟩
          rcases hmem with (rfl | hmem) | hmem
          · exact Or.inr (by simpa using hdone)
          · exact Or.inl hmem
          · exact Or.inr hmem
      · cases hstep
        refine ⟨?_, ?_⟩
        · simp only [List.map_append, List.mem_append, List.mem_cons]
          tauto
        -- What is read of a plain name was read before, and is not the vector just lifted.
        · intro hlifted
          by_contra hm
          rcases mentions_liftVector (by simpa using hm) with ⟨hm, hne⟩ | ⟨i, rfl⟩
          · rcases List.mem_cons.mp hlifted with rfl | hlifted
            · exact hne rfl
            · rw [hnot hlifted] at hm
              cases hm
          · exact absurd hplain (Definition.not_plain_elementName w i)

/-- A lifted model reads no vector as a whole. -/
theorem not_mentions_of_lifted {m : HybridModel R} {ds : List (Definition R)}
    {l : Lifting R} (h : exhaust? Lifting.step? ⟨(Definition.widths ds).reverse, [], m⟩ =
      some l) {v : String}
    (hplain : PlainName v) (hv : Definition.IsVectorName ds v) :
    l.model.mentions v = false := by
  obtain ⟨hreach, hnone⟩ := reaches_of_exhaust? h
  have hstart : Lifting.Handles ⟨(Definition.widths ds).reverse, [], m⟩ v := by
    refine ⟨Or.inl ?_, by simp⟩
    simpa using Definition.mem_map_fst_widths.mpr hv
  have hend : l.Handles v :=
    hreach.invariant (P := fun l : Lifting R => l.Handles v)
      (fun _ _ hl hstep => hl.step hplain hstep) hstart
  refine hend.not_mentions ?_
  rcases hend.mem with hmem | hmem
  · -- Nothing waits at the end.
    obtain ⟨pending, lifted, m'⟩ := l
    cases pending with
    | nil => cases hmem
    | cons e rest =>
        simp only [Lifting.step?] at hnone
        split at hnone <;> cases hnone
  · exact hmem

theorem not_mentions_foldl_unfoldModel {ds : List (Definition R)} {m : HybridModel R}
    {x : String} (hm : m.mentions x = false) (hds : ∀ d ∈ ds, d.mentions x = false) :
    (ds.foldl Definition.unfoldModel m).mentions x = false := by
  refine List.foldlRecOn (motive := fun m : HybridModel R =>
    m.mentions x = false) _ _ hm ?_
  intro m hm d hd
  by_contra h
  rcases Definition.mentions_unfoldModel (by simpa using h) with ⟨h, _⟩ | h
  · rw [hm] at h
    cases h
  · rw [hds d hd] at h
    cases h

/-- Unfolding takes away the name of a term or of cases, if no definition brings it
back. -/
theorem not_mentions_of_unfolded {ds : List (Definition R)} {d : Definition R}
    (hd : d ∈ ds) (hscalar : d.IsScalar) (hds : ∀ e ∈ ds, e.mentions d.name = false)
    (m : HybridModel R) : (ds.foldl Definition.unfoldModel m).mentions d.name = false := by
  obtain ⟨before, after, rfl⟩ := List.append_of_mem hd
  rw [List.foldl_append, List.foldl_cons]
  refine not_mentions_foldl_unfoldModel ?_ fun e he => hds e (by simp [he])
  by_contra h
  rcases Definition.mentions_unfoldModel (by simpa using h) with ⟨_, hne⟩ | h
  · exact hne hscalar rfl
  · rw [hds d hd] at h
    cases h

end HybridModel

/-! ### Names that stay -/

namespace Definition

section Replacement

variable {α : Type} {subst : α → String → Term R → α} {m : String → α → Bool}

omit [Scalar R] in
/-- A variable stays under replacements of other variables, and of itself by terms that
have it. -/
theorem mentions_substEach_of_mentions
    (hsubst : ∀ a x y t, m y (subst a x t) = true ↔
      (y ≠ x ∧ m y a = true) ∨ (m x a = true ∧ t.mentions y = true))
    {pairs : List (String × Term R)} {a : α} {y : String} (h : m y a = true)
    (hpairs : ∀ e ∈ pairs, e.1 = y → e.2.mentions y = true) :
    m y (substEach subst pairs a) = true := by
  refine List.foldlRecOn (motive := fun a => m y a = true) _ _ h ?_
  intro a ha e he
  refine (hsubst a e.1 y e.2).mpr ?_
  by_cases hey : e.1 = y
  · exact Or.inr ⟨by rw [hey]; exact ha, hpairs e he hey⟩
  · exact Or.inl ⟨fun h => hey h.symm, ha⟩

end Replacement

/-- Unfolding a definition leaves the name `x`: it defines another name, or uses `x`
itself. -/
structure Leaves (d : Definition R) (x : String) : Prop where
  plain : PlainName x
  uses : d.IsScalar → d.name = x → d.mentions x = true
  split : ∀ y cs, d = .cases y cs → IsSplit cs

/-- An evolution that reads `x`, in a domain that is not false by its form. -/
def Follows (x : String) (e : Evolution R) : Prop :=
  e.mentions x = true ∧ e.domain.IsProper

omit [Scalar R] in
theorem Leaves.mentions_of_mem_replacements {d : Definition R} {x : String}
    (h : Leaves d x) {e : String × Term R} (he : e ∈ d.replacements) (hx : e.1 = x) :
    e.2.mentions x = true := by
  cases d with
  | simple y t =>
      cases List.mem_singleton.mp he
      exact h.uses trivial hx
  | vector y ts =>
      obtain ⟨⟨t, i⟩, _, rfl⟩ := List.mem_map.mp he
      have hplain := h.plain
      rw [← hx] at hplain
      exact absurd hplain (not_plain_elementName y i)
  | cases y cs => cases he
  | width y n => cases he

theorem Follows.of_case {x y : String} {c : Formula R × Term R} {e : Evolution R}
    (he : Follows x e) (hguard : c.1.IsProper)
    (h : (y = x → c.2.mentions x = true) ∨ c.1.mentions x = true) :
    Follows x ⟨e.odes.map fun ode => (ode.1, ode.2.subst y c.2),
      .conj [c.1, e.domain.subst y c.2]⟩ := by
  obtain ⟨hm, hproper⟩ := he
  have hparts : ∀ p ∈ [c.1, e.domain.subst y c.2], p.IsProper := by
    intro p hp
    simp only [List.mem_cons, List.not_mem_nil, or_false] at hp
    rcases hp with rfl | rfl
    · exact hguard
    · exact (Formula.isProper_subst e.domain y c.2).mpr hproper
  have hdomain : c.1.mentions x = true ∨ (e.domain.subst y c.2).mentions x = true →
      (Formula.conj [c.1, e.domain.subst y c.2]).mentions x = true := by
    intro h
    rw [Formula.mentions_conj x fun hb => hparts _ hb]
    simpa using h
  refine ⟨(Evolution.mentions_iff x _).mpr ?_, Formula.isProper_conj hparts⟩
  rcases h with h | h
  · have hkeep : (x ≠ y) ∨ c.2.mentions x = true ∧ y = x := by
      by_cases hyx : y = x
      · exact Or.inr ⟨h hyx, hyx⟩
      · exact Or.inl fun hxy => hyx hxy.symm
    rcases (Evolution.mentions_iff x e).mp hm with ⟨ode, hode, hm⟩ | hm
    · refine Or.inl ⟨_, List.mem_map_of_mem hode, (Term.mentions_subst _ _ _ _).mpr ?_⟩
      rcases hkeep with hne | ⟨hc, rfl⟩
      · exact Or.inl ⟨hne, hm⟩
      · exact Or.inr ⟨hm, hc⟩
    · refine Or.inr (hdomain (Or.inr ((Formula.mentions_subst _ _ _ _).mpr ?_)))
      rcases hkeep with hne | ⟨hc, rfl⟩
      · exact Or.inl ⟨hne, hm⟩
      · exact Or.inr ⟨hm, hc⟩
  · exact Or.inr (hdomain (Or.inl h))

theorem Leaves.exists_follows {d : Definition R} {x : String} (h : Leaves d x)
    {e : Evolution R} (he : Follows x e) : ∃ f ∈ d.unfoldEvolution e, Follows x f := by
  obtain ⟨hm, hproper⟩ := he
  have hplain :
      d.unfoldEvolution e =
        [⟨e.odes.map fun ode => (ode.1, d.substTerm ode.2), d.substFormula e.domain⟩] →
      ∃ f ∈ d.unfoldEvolution e, Follows x f := by
    intro hunfold
    rw [hunfold]
    have hpairs := fun e he => h.mentions_of_mem_replacements (e := e) he
    refine ⟨_, List.mem_singleton.mpr rfl, (Evolution.mentions_iff x _).mpr ?_,
      isProper_substFormula d hproper⟩
    rcases (Evolution.mentions_iff x e).mp hm with ⟨ode, hode, hm⟩ | hm
    · refine Or.inl ⟨_, List.mem_map_of_mem hode, ?_⟩
      exact mentions_substEach_of_mentions
        (m := Term.mentions) Term.mentions_subst hm hpairs
    · refine Or.inr ?_
      exact mentions_substEach_of_mentions
        (m := Formula.mentions) Formula.mentions_subst hm hpairs
  cases d with
  | simple y u => exact hplain rfl
  | vector y us => exact hplain rfl
  | width y n => exact hplain rfl
  | cases y cs =>
      simp only [unfoldEvolution]
      split
      · obtain ⟨hne, hguards⟩ := h.split y cs rfl
        by_cases hyx : y = x
        · obtain ⟨c, hc, hcm⟩ := (mentions_cases x y cs).mp (h.uses trivial hyx)
          refine ⟨_, List.mem_map_of_mem hc,
            Follows.of_case ⟨hm, hproper⟩ (hguards c hc) ?_⟩
          rcases hcm with hcm | hcm
          · exact Or.inr hcm
          · exact Or.inl fun _ => hcm
        · obtain ⟨c, hc⟩ := List.exists_mem_of_ne_nil cs hne
          exact ⟨_, List.mem_map_of_mem hc,
            Follows.of_case ⟨hm, hproper⟩ (hguards c hc) (Or.inl fun h => absurd h hyx)⟩
      · exact ⟨e, List.mem_singleton.mpr rfl, hm, hproper⟩

end Definition

namespace HybridModel

/-- A plant that follows the variable `x`. -/
def follower (x : String) : HybridModel R :=
  { name := "follower", plant := [⟨[("state", .var x)], .top⟩] }

/-- Vectors with other names have no part in the plant, so that lifting them changes
nothing. -/
theorem exists_lifted_follower {x : String} {ws : Definition.Widths}
    (hws : x ∉ ws.map Prod.fst) (lifted : List String) :
    ∃ l : Lifting R, exhaust? Lifting.step? ⟨ws, lifted, follower x⟩ = some l ∧
      l.model = follower x := by
  induction ws generalizing lifted with
  | nil => exact ⟨_, exhaust?_of_none rfl, rfl⟩
  | cons w ws ih =>
      obtain ⟨v, width⟩ := w
      simp only [List.map_cons, List.mem_cons, not_or] at hws
      obtain ⟨hne, hws⟩ := hws
      by_cases hdone : v ∈ lifted
      · obtain ⟨l, hl, hmodel⟩ := ih hws lifted
        refine ⟨l, ?_, hmodel⟩
        rw [exhaust?_of_some (b := ⟨ws, lifted, follower x⟩)
          (by simp [Lifting.step?, hdone])]
        exact hl
      · obtain ⟨l, hl, hmodel⟩ := ih hws (v :: lifted)
        refine ⟨l, ?_, hmodel⟩
        rw [exhaust?_of_some (b := ⟨ws, v :: lifted, follower x⟩) ?_]
        · exact hl
        · have hread : (Term.var x : Term R).mentions v = false := by simpa using hne
          simp [Lifting.step?, hdone, follower, vectorTargets, Program.vectorTargets,
            Evolution.vectorTargets, liftVector, Evolution.liftVector, Formula.liftVector,
            Program.liftVector, hread]

/-- The variable that a plant follows stays, if every definition leaves it. -/
theorem mentions_unfoldAll_follower {ds : List (Definition R)} {x : String}
    (hvector : ¬Definition.IsVectorName ds x) (hds : ∀ d ∈ ds, d.Leaves x) :
    (∃ l : Lifting R,
      exhaust? Lifting.step? ⟨(Definition.widths ds).reverse, [], follower x⟩ = some l) ∧
      ((follower x).unfoldAll ds).mentions x = true := by
  have hwidths : x ∉ (Definition.widths ds).reverse.map Prod.fst := by
    rw [List.map_reverse, List.mem_reverse, Definition.mem_map_fst_widths]
    exact hvector
  obtain ⟨l, hl, hmodel⟩ := exists_lifted_follower (R := R) hwidths []
  refine ⟨⟨l, hl⟩, ?_⟩
  have hlift : (follower x : HybridModel R).liftAll ds = follower x := by
    rw [liftAll, exhaust_of_exhaust? hl, hmodel]
  have hfollows : ∃ e ∈ ((follower x : HybridModel R).unfoldAll ds).plant,
      Definition.Follows x e := by
    rw [unfoldAll, hlift]
    refine List.foldlRecOn
      (motive := fun m : HybridModel R => ∃ e ∈ m.plant, Definition.Follows x e) _ _ ?_ ?_
    · refine ⟨_, List.mem_singleton.mpr rfl, ?_, trivial⟩
      simp [Evolution.mentions]
    · rintro m ⟨e, he, hfollow⟩ d hd
      obtain ⟨f, hf, hfollow⟩ := (hds d (List.mem_of_mem_filter hd)).exists_follows hfollow
      exact ⟨f, List.mem_flatMap.mpr ⟨e, he, hf⟩, hfollow⟩
  obtain ⟨e, he, hm, _⟩ := hfollows
  exact (mentions_iff x _).mpr (Or.inr (Or.inr (Or.inl ⟨e, he, hm⟩)))

end HybridModel

end SignalFlow
