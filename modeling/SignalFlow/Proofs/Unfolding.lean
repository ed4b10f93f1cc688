import SignalFlow.Definition.Application
import SignalFlow.Proofs.ClosureMeaning
import SignalFlow.Proofs.Execution

/-!
# Unfolding keeps behaviour

Unfolding a definition in a formula or in a program has the effect that the formula or
program is read in a state where the defined name has the value that the definition gives
it.  For a closed list of definitions, unfolded one after the other, this state is the one
that extends the given state by all defined names at once.

A definition by cases is read like this only if exactly one guard holds: a disjunction of
the cases, or a choice between them, is then as good as the one case that applies.  A
choice without alternatives is unfolded to `skip`, so programs with such choices are left
out.

**Results.**
* `holds_unfoldFormula_iff`, `runs_unfoldProgram_iff`: the effect of unfolding one
  definition.
* `extendAll_eq_extension`: the names of a closed list are extended at once.
* `unfold_closed_iff`: the effect of unfolding a closed list.
-/

namespace SignalFlow

variable {R : Type} {K : Type*} [Scalar R] [Field K] [LinearOrder K]

namespace Definition

/-- Value of the defined name; only a definition of a single name has one. -/
def valueIn (ρ : Reading R K) (v : Valuation K) : Definition R → K
  | .simple _ t => t.eval ρ v
  | .cases _ cs =>
      match cs.find? fun c => c.1.Holds ρ v with
      | some c => c.2.eval ρ v
      | none => 0
  | .vector _ _ => 0
  | .width _ _ => 0

/-- Whatever the valuation, one case applies. -/
def Deterministic (ρ : Reading R K) : Definition R → Prop
  | .cases _ cs => ∀ v : Valuation K, ∃! c, c ∈ cs ∧ c.1.Holds ρ v
  | _ => True

/-- The valuation with the defined name at its value. -/
def extend (ρ : Reading R K) (d : Definition R) (v : Valuation K) : Valuation K :=
  Function.update v d.name (d.valueIn ρ v)

variable {ρ : Reading R K} {v : Valuation K} {d : Definition R}

theorem valueIn_of_holds {x : String} {cs : List (Formula R × Term R)}
    (hdet : (Definition.cases x cs).Deterministic ρ) {c : Formula R × Term R} (hc : c ∈ cs)
    (h : c.1.Holds ρ v) : (Definition.cases x cs).valueIn ρ v = c.2.eval ρ v := by
  have hunique : ∀ e ∈ cs, e.1.Holds ρ v → e = c := by
    intro e he hholds
    exact (hdet v).unique ⟨he, hholds⟩ ⟨hc, h⟩
  simp only [valueIn]
  split
  · next e he =>
      have hmem := List.mem_of_find?_eq_some he
      have hholds : e.1.Holds ρ v := by simpa using List.find?_some he
      rw [hunique e hmem hholds]
  · next hnone =>
      rw [List.find?_eq_none] at hnone
      exact absurd h (by simpa using hnone c hc)

/-- A case that applies decides what is true of the extended valuation. -/
theorem exists_case_iff {x : String} {cs : List (Formula R × Term R)}
    (hdet : (Definition.cases x cs).Deterministic ρ) {P : Valuation K → Prop} :
    (∃ c ∈ cs, c.1.Holds ρ v ∧ P (Function.update v x (c.2.eval ρ v))) ↔
      P ((Definition.cases x cs).extend ρ v) := by
  constructor
  · rintro ⟨c, hc, hholds, hp⟩
    rw [extend, valueIn_of_holds hdet hc hholds]
    exact hp
  · intro hp
    obtain ⟨c, ⟨hc, hholds⟩, _⟩ := hdet v
    rw [extend, valueIn_of_holds hdet hc hholds] at hp
    exact ⟨c, hc, hholds, hp⟩

/-- Unfolding a definition in a formula extends the valuation. -/
theorem holds_unfoldFormula_iff (hd : d.IsScalar) (hdet : d.Deterministic ρ)
    (p : Formula R) : (d.unfoldFormula p).Holds ρ v ↔ p.Holds ρ (d.extend ρ v) := by
  cases d with
  | simple x t =>
      exact Formula.holds_subst ρ v p x t
  | vector x ts => exact hd.elim
  | cases x cs =>
      by_cases hm : p.mentions x = true
      · rw [← exists_case_iff hdet (P := fun w => p.Holds ρ w)]
        simp [unfoldFormula, hm, Formula.holds_subst]
      · have hm' : p.mentions x = false := by simpa using hm
        rw [extend, name, Formula.holds_update_of_not_mentions ρ v hm']
        simp [unfoldFormula, hm']
  | width x n => exact hd.elim

theorem unfoldPrograms_eq_map (d : Definition R) (ps : List (Program R)) :
    d.unfoldPrograms ps = ps.map d.unfoldProgram := by
  induction ps with
  | nil => simp [unfoldPrograms]
  | cons p ps ih => simp [unfoldPrograms, ih]

variable {view : Valuation K → Valuation K} {s u : Valuation K}

omit [Scalar R] in
theorem choicesInhabited_assignExpanded (x : String) (as : List (Formula R × Term R)) :
    (assignExpanded x as).choicesInhabited = true := by
  unfold assignExpanded
  split
  · rfl
  · refine Program.choicesInhabited_oneOf ?_
    intro p hp
    obtain ⟨a, _, rfl⟩ := List.mem_map.mp hp
    rfl

/-- Unfolding leaves no choice without alternatives. -/
theorem choicesInhabited_unfoldProgram (d : Definition R) (p : Program R) :
    (d.unfoldProgram p).choicesInhabited = true := by
  induction p with
  | skip => rfl
  | assign x t => exact choicesInhabited_assignExpanded x _
  | havoc x => rfl
  | test p => rfl
  | seq ps ih =>
      simp only [unfoldProgram, unfoldPrograms_eq_map]
      refine Program.choicesInhabited_sequence ?_
      simpa using ih
  | choice ps ih =>
      simp only [unfoldProgram, unfoldPrograms_eq_map]
      refine Program.choicesInhabited_oneOf ?_
      simpa using ih
  | loop p ih =>
      simp only [unfoldProgram]
      exact ih

theorem runs_assignExpanded_iff {x : String} {as : List (Formula R × Term R)}
    (h : as ≠ []) :
    Program.Runs ρ view (assignExpanded x as) s u ↔
      ∃ a ∈ as, a.1.Holds ρ (view s) ∧ u = Function.update s x (a.2.eval ρ (view s)) := by
  unfold assignExpanded
  split
  · simp
  · rw [Program.runs_oneOf_iff (by simpa using h)]
    simp only [List.mem_map, exists_exists_and_eq_and, Program.runs_sequence_iff,
      Program.runs_seq_cons_iff, Program.runs_test_iff, Program.runs_assign_iff,
      Program.runs_seq_nil_iff]
    constructor
    · rintro ⟨a, ha, _, ⟨rfl, hholds⟩, _, rfl, rfl⟩
      exact ⟨a, ha, hholds, rfl⟩
    · rintro ⟨a, ha, hholds, rfl⟩
      exact ⟨a, ha, s, ⟨rfl, hholds⟩, _, rfl, rfl⟩

theorem expand_ne_nil (hdet : d.Deterministic ρ) (t : Term R) : d.expand t ≠ [] := by
  cases d with
  | simple x u => simp [expand]
  | vector x ts => simp [expand]
  | cases x cs =>
      obtain ⟨c, ⟨hc, _⟩, _⟩ := hdet fun _ => 0
      have hcs : cs ≠ [] := List.ne_nil_of_mem hc
      by_cases hm : t.mentions x = true
      · simpa [expand, hm] using hcs
      · simp [expand, hm]
  | width x n => simp [expand]

/-- One of the alternatives for a term applies, and it has the value of the term in the
extended valuation. -/
theorem exists_expand_iff (hd : d.IsScalar) (hdet : d.Deterministic ρ) (t : Term R)
    {P : K → Prop} :
    (∃ a ∈ d.expand t, a.1.Holds ρ v ∧ P (a.2.eval ρ v)) ↔
      P (t.eval ρ (d.extend ρ v)) := by
  cases d with
  | simple x r =>
      simp [expand, substTerm, substEach, replacements, Term.eval_subst, extend,
        valueIn, name]
  | vector x ts => exact hd.elim
  | cases x cs =>
      by_cases hm : t.mentions x = true
      · rw [← exists_case_iff hdet (P := fun w => P (t.eval ρ w))]
        simp [expand, hm, Term.eval_subst]
      · have hm' : t.mentions x = false := by simpa using hm
        rw [extend, name, Term.eval_update_of_not_mentions ρ v hm']
        simp [expand, hm']
  | width x n => exact hd.elim

/-- Unfolding a definition in a program extends what the program reads. -/
theorem runs_unfoldProgram_iff (hd : d.IsScalar) (hdet : d.Deterministic ρ) {p : Program R}
    (hp : p.choicesInhabited = true) :
    Program.Runs ρ view (d.unfoldProgram p) s u ↔
      Program.Runs ρ (fun w => d.extend ρ (view w)) p s u := by
  induction p generalizing s u with
  | skip => simp [unfoldProgram]
  | assign x t =>
      rw [unfoldProgram, runs_assignExpanded_iff (expand_ne_nil hdet t),
        Program.runs_assign_iff]
      exact exists_expand_iff hd hdet t (P := fun a => u = Function.update s x a)
  | havoc x => simp [unfoldProgram]
  | test p => simp [unfoldProgram, holds_unfoldFormula_iff hd hdet]
  | seq ps ih =>
      rw [unfoldProgram, unfoldPrograms_eq_map, Program.runs_sequence_iff]
      have hps := Program.choicesInhabited_seq_iff.mp hp
      clear hp
      induction ps generalizing s with
      | nil => simp
      | cons p ps ihps =>
          have hhead : ∀ w, Program.Runs ρ view (d.unfoldProgram p) s w ↔
              Program.Runs ρ (fun w => d.extend ρ (view w)) p s w :=
            fun w => ih p (by simp) (hps p (by simp))
          have htail : ∀ w, Program.Runs ρ view (.seq (ps.map d.unfoldProgram)) w u ↔
              Program.Runs ρ (fun w => d.extend ρ (view w)) (.seq ps) w u :=
            fun w => ihps (fun q hq => ih q (List.mem_cons_of_mem _ hq))
              (fun q hq => hps q (List.mem_cons_of_mem _ hq))
          simp only [List.map_cons, Program.runs_seq_cons_iff, hhead, htail]
  | choice ps ih =>
      obtain ⟨hne, hps⟩ := Program.choicesInhabited_choice_iff.mp hp
      rw [unfoldProgram, unfoldPrograms_eq_map,
        Program.runs_oneOf_iff (by simpa using hne), Program.runs_choice_iff]
      simp only [List.mem_map, exists_exists_and_eq_and]
      constructor
      · rintro ⟨p, hmem, hrun⟩
        exact ⟨p, hmem, (ih p hmem (hps p hmem)).mp hrun⟩
      · rintro ⟨p, hmem, hrun⟩
        exact ⟨p, hmem, (ih p hmem (hps p hmem)).mpr hrun⟩
  | loop p ih =>
      have hbody : Program.Runs ρ view (d.unfoldProgram p) =
          Program.Runs ρ (fun w => d.extend ρ (view w)) p := by
        funext s u
        exact propext (ih (by simpa [Program.choicesInhabited] using hp))
      rw [unfoldProgram, Program.runs_loop_iff, Program.runs_loop_iff, hbody]

/-! ### Closed lists -/

/-- Definitions of different names, which use none of them. -/
structure IsClosed (ds : List (Definition R)) : Prop where
  scalar : ∀ d ∈ ds, d.IsScalar
  nodup : (ds.map name).Nodup
  not_mentions : ∀ d ∈ ds, ∀ x ∈ ds.map name, d.mentions x = false

/-- `w` differs from `s` in the defined names only, and gives them the values that the
definitions say. -/
structure Extends (ρ : Reading R K) (ds : List (Definition R))
    (s w : Valuation K) : Prop where
  base : ∀ x ∉ ds.map name, w x = s x
  satisfied : ∀ d ∈ ds, d.Satisfied ρ w

/-- The valuation with every defined name at its value. -/
def extension (ρ : Reading R K) (ds : List (Definition R)) (s : Valuation K) :
    Valuation K := fun x =>
  match ds.find? fun d => d.name == x with
  | some d => d.valueIn ρ s
  | none => s x

theorem valueIn_congr {w : Valuation K} (hdet : d.Deterministic ρ)
    (h : ∀ x, d.mentions x = true → v x = w x) : d.valueIn ρ v = d.valueIn ρ w := by
  cases d with
  | simple x t => exact Term.eval_congr ρ t h
  | vector x ts => rfl
  | cases x cs =>
      obtain ⟨c, ⟨hc, hholds⟩, _⟩ := hdet v
      have hguard : ∀ y, c.1.mentions y = true → v y = w y := fun y hy =>
        h y ((mentions_cases y x cs).mpr ⟨c, hc, Or.inl hy⟩)
      have hbody : ∀ y, c.2.mentions y = true → v y = w y := fun y hy =>
        h y ((mentions_cases y x cs).mpr ⟨c, hc, Or.inr hy⟩)
      rw [valueIn_of_holds hdet hc hholds,
        valueIn_of_holds hdet hc ((Formula.holds_congr ρ c.1 hguard).mp hholds)]
      exact Term.eval_congr ρ c.2 hbody
  | width x n => rfl

theorem extension_of_notMem {ds : List (Definition R)} {x : String} (h : x ∉ ds.map name) :
    extension ρ ds s x = s x := by
  have hnone : (ds.find? fun d => d.name == x) = none := by
    rw [List.find?_eq_none]
    intro d hd heq
    exact h (List.mem_map.mpr ⟨d, hd, by simpa using heq⟩)
  simp [extension, hnone]

/-- A closed definition has one value in the given and in the extended state. -/
theorem valueIn_extension {ds : List (Definition R)} (hdet : d.Deterministic ρ)
    (hd : ∀ x ∈ ds.map name, d.mentions x = false) :
    d.valueIn ρ (extension ρ ds s) = d.valueIn ρ s := by
  refine valueIn_congr hdet fun x hx => extension_of_notMem fun hmem => ?_
  simp [hd x hmem] at hx

/-- Extending by one definition after the other extends by all at once. -/
theorem extendAll_eq_extension {ds : List (Definition R)}
    (hdet : ∀ d ∈ ds, d.Deterministic ρ)
    (h : ∀ d ∈ ds, ∀ x ∈ ds.map name, d.mentions x = false) :
    ds.foldr (fun d w => d.extend ρ w) s = extension ρ ds s := by
  induction ds with
  | nil => rfl
  | cons d ds ih =>
      have htail : ∀ e ∈ ds, ∀ x ∈ ds.map name, e.mentions x = false := fun e he x hx =>
        h e (List.mem_cons_of_mem _ he) x (List.mem_cons_of_mem _ hx)
      have hhead : ∀ x ∈ ds.map name, d.mentions x = false := fun x hx =>
        h d List.mem_cons_self x (List.mem_cons_of_mem _ hx)
      rw [List.foldr_cons, ih (fun e he => hdet e (List.mem_cons_of_mem _ he)) htail,
        extend, valueIn_extension (hdet d List.mem_cons_self) hhead]
      funext x
      by_cases hx : d.name = x
      · subst hx
        simp [extension]
      · simp [extension, hx, Function.update_of_ne (Ne.symm hx)]

theorem satisfied_iff_valueIn (hd : d.IsScalar) (hdet : d.Deterministic ρ) :
    d.Satisfied ρ v ↔ v d.name = d.valueIn ρ v := by
  cases d with
  | simple x t => exact Iff.rfl
  | vector x ts => exact hd.elim
  | cases x cs =>
      constructor
      · intro hsat
        obtain ⟨c, ⟨hc, hholds⟩, _⟩ := hdet v
        rw [valueIn_of_holds hdet hc hholds]
        exact hsat c hc hholds
      · intro hval c hc hholds
        rw [← valueIn_of_holds hdet hc hholds]
        exact hval
  | width x n => exact hd.elim

theorem extension_name {ds : List (Definition R)} (hnodup : (ds.map name).Nodup)
    (hd : d ∈ ds) : extension ρ ds s d.name = d.valueIn ρ s := by
  have hfind : (ds.find? fun e => e.name == d.name) = some d := by
    obtain ⟨e, he⟩ : ∃ e, (ds.find? fun e => e.name == d.name) = some e := by
      rw [← Option.isSome_iff_exists, List.find?_isSome]
      exact ⟨d, hd, by simp⟩
    have hmem := List.mem_of_find?_eq_some he
    have hname : e.name = d.name := by simpa using List.find?_some he
    rw [he, List.inj_on_of_nodup_map hnodup hmem hd hname]
  simp [extension, hfind]

/-- A closed list extends a state in one way. -/
theorem eq_extension_iff {ds : List (Definition R)} (h : IsClosed ds)
    (hdet : ∀ d ∈ ds, d.Deterministic ρ) {w : Valuation K} :
    w = extension ρ ds s ↔ Extends ρ ds s w := by
  constructor
  · rintro rfl
    refine ⟨fun x hx => extension_of_notMem hx, ?_⟩
    intro d hd
    rw [satisfied_iff_valueIn (h.scalar d hd) (hdet d hd), extension_name h.nodup hd,
      valueIn_extension (hdet d hd) (h.not_mentions d hd)]
  · rintro ⟨hbase, hsat⟩
    funext x
    by_cases hx : x ∈ ds.map name
    · obtain ⟨d, hd, rfl⟩ := List.mem_map.mp hx
      rw [(satisfied_iff_valueIn (h.scalar d hd) (hdet d hd)).mp (hsat d hd),
        extension_name h.nodup hd]
      refine valueIn_congr (hdet d hd) fun y hy => hbase y fun hmem => ?_
      simp [h.not_mentions d hd y hmem] at hy
    · rw [hbase x hx, extension_of_notMem hx]

/-- Unfolding definitions in order extends the valuation by the first of them last. -/
theorem holds_foldl_unfoldFormula_iff {ds : List (Definition R)}
    (hscalar : ∀ d ∈ ds, d.IsScalar) (hdet : ∀ d ∈ ds, d.Deterministic ρ) (p : Formula R) :
    (ds.foldl (fun p d => d.unfoldFormula p) p).Holds ρ s ↔
      p.Holds ρ (ds.foldr (fun d w => d.extend ρ w) s) := by
  induction ds generalizing p with
  | nil => exact Iff.rfl
  | cons d ds ih =>
      rw [List.foldl_cons, ih (fun e he => hscalar e (List.mem_cons_of_mem _ he))
        (fun e he => hdet e (List.mem_cons_of_mem _ he)), List.foldr_cons]
      exact holds_unfoldFormula_iff (hscalar d List.mem_cons_self)
        (hdet d List.mem_cons_self) p

theorem runs_foldl_unfoldProgram_iff {ds : List (Definition R)}
    (hscalar : ∀ d ∈ ds, d.IsScalar) (hdet : ∀ d ∈ ds, d.Deterministic ρ) {p : Program R}
    (hp : p.choicesInhabited = true) :
    Program.Runs ρ id (ds.foldl (fun p d => d.unfoldProgram p) p) s u ↔
      Program.Runs ρ (fun w => ds.foldr (fun d w => d.extend ρ w) w) p s u := by
  induction ds generalizing p with
  | nil => exact Iff.rfl
  | cons d ds ih =>
      rw [List.foldl_cons, ih (fun e he => hscalar e (List.mem_cons_of_mem _ he))
        (fun e he => hdet e (List.mem_cons_of_mem _ he))
        (choicesInhabited_unfoldProgram d p)]
      exact runs_unfoldProgram_iff (hscalar d List.mem_cons_self)
        (hdet d List.mem_cons_self) hp

/-- **Unfolding a closed list keeps behaviour.**  Formulas and programs with all
definitions unfolded mean in a state what they mean, unchanged, in the one state that
extends it by the defined names. -/
theorem unfold_closed_iff (ρ : Reading R K) {ds : List (Definition R)} (h : IsClosed ds)
    (hdet : ∀ d ∈ ds, d.Deterministic ρ) (s : Valuation K) :
    (∀ w, w = extension ρ ds s ↔ Extends ρ ds s w) ∧
    (∀ p : Formula R, p.Holds ρ (extension ρ ds s) ↔
      (ds.foldl (fun p d => d.unfoldFormula p) p).Holds ρ s) ∧
    ∀ p : Program R, p.choicesInhabited = true → ∀ u,
      (Program.Runs ρ id (ds.foldl (fun p d => d.unfoldProgram p) p) s u ↔
        Program.Runs ρ (extension ρ ds) p s u) := by
  have hall : ∀ w, ds.foldr (fun d w => d.extend ρ w) w = extension ρ ds w := fun w =>
    extendAll_eq_extension hdet h.not_mentions
  refine ⟨fun w => eq_extension_iff h hdet, ?_, ?_⟩
  · intro p
    rw [holds_foldl_unfoldFormula_iff h.scalar hdet, hall]
  · intro p hp u
    rw [runs_foldl_unfoldProgram_iff h.scalar hdet hp]
    simp only [hall]

/-! ### Models -/

/-- Without vectors there is nothing to lift in a model. -/
theorem unfoldAll_of_isScalar {ds : List (Definition R)} (hscalar : ∀ d ∈ ds, d.IsScalar)
    (hname : ∀ d ∈ ds, PlainName d.name) (m : HybridModel R) :
    m.unfoldAll ds = ds.foldl unfoldModel m := by
  have hlift : m.liftAll ds = m := by
    rw [HybridModel.liftAll, widths_of_isScalar hscalar hname,
      exhaust_of_exhaust? (exhaust?_of_none rfl)]
  have hfilter : (ds.filter fun d => !d.isWidth) = ds := by
    rw [List.filter_eq_self]
    intro d hd
    simp [isWidth_of_isScalar (hscalar d hd)]
  rw [HybridModel.unfoldAll, hlift, hfilter]

theorem control_foldl_unfoldModel (ds : List (Definition R)) (m : HybridModel R) :
    (ds.foldl unfoldModel m).control = ds.foldl
      (fun p d => d.unfoldProgram p) m.control := by
  induction ds generalizing m with
  | nil => rfl
  | cons d ds ih => exact ih _

section Witness

theorem isClosed_selectedSumClosed : IsClosed selectedSumClosed := by
  refine ⟨?_, by decide, by decide⟩
  simp [selectedSumClosed, IsScalar]

theorem deterministic_selectedSumClosed :
    ∀ d ∈ selectedSumClosed, d.Deterministic rationalReading := by
  have hcases : ∀ (x : String) (g a b : Term Float),
      (Definition.cases x [(.compare g .lt (.num 0), a),
        (.compare g .ge (.num 0), b)]).Deterministic
        rationalReading := by
    intro x g a b v
    have hzero : rationalReading.lit (0 : Float) = 0 := rfl
    rcases lt_or_ge (g.eval rationalReading v) 0 with hg | hg
    · refine ⟨(.compare g .lt (.num 0), a), ?_, ?_⟩
      · simpa [Formula.compare, Relation.Holds, Comparison.Compares, hzero] using hg
      · rintro c ⟨hc, hholds⟩
        simp only [List.mem_cons, List.not_mem_nil, or_false] at hc
        rcases hc with rfl | rfl
        · rfl
        · simp [Formula.compare, Relation.Holds, Comparison.Compares, hzero, not_le.mpr hg]
            at hholds
    · refine ⟨(.compare g .ge (.num 0), b), ?_, ?_⟩
      · simpa [Formula.compare, Relation.Holds, Comparison.Compares, hzero] using hg
      · rintro c ⟨hc, hholds⟩
        simp only [List.mem_cons, List.not_mem_nil, or_false] at hc
        rcases hc with rfl | rfl
        · simp [Formula.compare, Relation.Holds, Comparison.Compares, hzero, not_lt.mpr hg]
            at hholds
        · rfl
  intro d hd
  simp only [selectedSumClosed, List.mem_cons, List.not_mem_nil, or_false] at hd
  rcases hd with rfl | rfl | rfl
  · exact hcases _ _ _ _
  · exact hcases _ _ _ _
  · trivial

/-- A loop that accumulates the selected sum while it is positive. -/
def accumulate : Program Float :=
  .loop (.choice [.seq [.test (.compare (.var "y") .gt (.num 0)),
    .assign "x" (.add [.var "x", .var "y"])], .havoc "u"])

theorem unfold_closed_iff_accumulate :
    IsClosed selectedSumClosed ∧ accumulate.choicesInhabited = true ∧
      ∀ s u : Valuation ℚ,
        (Program.Runs rationalReading id
            (selectedSumClosed.foldl (fun p d => d.unfoldProgram p) accumulate) s u ↔
          Program.Runs rationalReading (extension rationalReading selectedSumClosed)
            accumulate s u) :=
  ⟨isClosed_selectedSumClosed, rfl, fun s =>
    (unfold_closed_iff rationalReading isClosed_selectedSumClosed
      deterministic_selectedSumClosed s).2.2
      accumulate rfl⟩

end Witness

end Definition
end SignalFlow
