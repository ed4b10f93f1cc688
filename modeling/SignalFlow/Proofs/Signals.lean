import SignalFlow.Proofs.Unfolding

/-!
# Signal values

Definitions of different names without a circle give every state one extension by the
values of the defined names.  A program in which the closed definitions are unfolded reads
the extension of the current state.

**Results.**
* `deterministic_inlineScalar`: inlining keeps that exactly one case applies.
* `extends_eq_of_not_dependsOn`: a signal changes only with a variable it depends on.
* `exists_signals`: the extension, and the runs of programs with the closed definitions
  unfolded.
-/

namespace SignalFlow
namespace Definition

variable {R : Type} {K : Type*} [Scalar R] [Field K] [LinearOrder K] {ρ : Reading R K}

/-- Whatever the valuation, at most one case applies. -/
def Exclusive (ρ : Reading R K) : Definition R → Prop
  | .cases _ cs =>
      ∀ v : Valuation K, ∀ c ∈ cs, ∀ c' ∈ cs, c.1.Holds ρ v → c'.1.Holds ρ v → c = c'
  | _ => True

theorem deterministic_iff {d : Definition R} :
    d.Deterministic ρ ↔ d.Exhaustive ρ ∧ d.Exclusive ρ := by
  cases d with
  | simple x t => simp [Deterministic, Exhaustive, Exclusive]
  | vector x ts => simp [Deterministic, Exhaustive, Exclusive]
  | cases x cs =>
      constructor
      · intro h
        refine ⟨?_, ?_⟩
        · intro v
          obtain ⟨c, hc, _⟩ := h v
          exact ⟨c, hc⟩
        · intro v c hc c' hc' hholds hholds'
          exact (h v).unique ⟨hc, hholds⟩ ⟨hc', hholds'⟩
      · rintro ⟨hex, hone⟩ v
        obtain ⟨c, hc, hholds⟩ := hex v
        refine ⟨c, ⟨hc, hholds⟩, ?_⟩
        rintro c' ⟨hc', hholds'⟩
        exact hone v c' hc' c hc hholds' hholds
  | width x n => simp [Deterministic, Exhaustive, Exclusive]

/-- The part of a case that the one applying case of `y` leaves. -/
theorem holds_of_mem_splitCase {y : String} {alternatives : List (Formula R × Term R)}
    (hone : (Definition.cases y alternatives).Exclusive ρ) {v : Valuation K}
    {a : Formula R × Term R} (ha : a ∈ alternatives) (hguard : a.1.Holds ρ v)
    {b c : Formula R × Term R} (hb : b ∈ splitCase y alternatives c)
    (hholds : b.1.Holds ρ v) :
    c.1.Holds ρ (Function.update v y (a.2.eval ρ v)) ∧ splitCase y [a] c = [b] := by
  unfold splitCase at hb ⊢
  split at hb
  · next hm =>
      obtain ⟨a', ha', rfl⟩ := List.mem_map.mp hb
      have hparts : c.1.Holds ρ (Function.update v y (a'.2.eval ρ v)) ∧
          a'.1.Holds ρ v := by
        simpa [Formula.holds_subst] using hholds
      have heq : a' = a := hone v a' ha' a ha hparts.2 hguard
      subst heq
      exact ⟨hparts.1, if_pos hm⟩
  · next hm =>
      rw [List.mem_singleton.mp hb] at hholds ⊢
      have hno : c.1.mentions y = false := by
        simp only [Bool.or_eq_true, not_or, Bool.not_eq_true] at hm
        exact hm.1
      exact ⟨(Formula.holds_update_of_not_mentions ρ v hno _).mpr hholds, if_neg hm⟩

theorem exclusive_inlineScalar {e d : Definition R} (he : e.IsScalar) (hd : d.IsScalar)
    (heone : e.Exclusive ρ) (hdet : d.Deterministic ρ) :
    (e.inlineScalar d).Exclusive ρ := by
  cases d with
  | simple y u =>
      cases e with
      | simple x t => trivial
      | cases x cs =>
          intro v b hb b' hb' hholds hholds'
          obtain ⟨c, hc, rfl⟩ := List.mem_map.mp hb
          obtain ⟨c', hc', rfl⟩ := List.mem_map.mp hb'
          rw [Formula.holds_subst] at hholds hholds'
          rw [heone _ c hc c' hc' hholds hholds']
      | vector x ts => exact he.elim
      | width x n => exact he.elim
  | cases y alternatives =>
      obtain ⟨hex, hone⟩ := deterministic_iff.mp hdet
      cases e with
      | simple x t =>
          intro v b hb b' hb' hholds hholds'
          obtain ⟨a, ha, rfl⟩ := List.mem_map.mp hb
          obtain ⟨a', ha', rfl⟩ := List.mem_map.mp hb'
          rw [hone v a ha a' ha' hholds hholds']
      | cases x cs =>
          intro v b hb b' hb' hholds hholds'
          obtain ⟨c, hc, hbc⟩ := List.mem_flatMap.mp hb
          obtain ⟨c', hc', hbc'⟩ := List.mem_flatMap.mp hb'
          obtain ⟨a, ha, hguard⟩ := hex v
          obtain ⟨hcase, hsplit⟩ := holds_of_mem_splitCase hone ha hguard hbc hholds
          obtain ⟨hcase', hsplit'⟩ := holds_of_mem_splitCase hone ha hguard hbc' hholds'
          rw [heone _ c hc c' hc' hcase hcase', hsplit'] at hsplit
          exact (List.singleton_inj.mp hsplit).symm
      | vector x ts => exact he.elim
      | width x n => exact he.elim
  | vector y ts => exact hd.elim
  | width y n => exact hd.elim

/-- Inlining keeps that exactly one case applies. -/
theorem deterministic_inlineScalar {e d : Definition R} (he : e.IsScalar) (hd : d.IsScalar)
    (hedet : e.Deterministic ρ) (hddet : d.Deterministic ρ) :
    (e.inlineScalar d).Deterministic ρ := by
  obtain ⟨heex, heone⟩ := deterministic_iff.mp hedet
  have hdex := (deterministic_iff.mp hddet).1
  exact deterministic_iff.mpr
    ⟨exhaustive_inlineScalar he hd heex hdex, exclusive_inlineScalar he hd heone hddet⟩

/-- Definitions by terms and cases of which exactly one applies. -/
structure DeterministicList (ρ : Reading R K) (ds : List (Definition R)) : Prop where
  scalar : ∀ d ∈ ds, d.IsScalar
  deterministic : ∀ d ∈ ds, d.Deterministic ρ

theorem DeterministicList.step {ds next : List (Definition R)} (h : DeterministicList ρ ds)
    (hstep : closeStep? ds = some next) : DeterministicList ρ next := by
  refine ⟨?_, ?_⟩
  · exact forall_mem_of_closeStep? h.scalar hstep h.scalar
      fun e d he hd _ _ => isScalar_inlineScalar he hd
  · exact forall_mem_of_closeStep? h.scalar hstep h.deterministic
      fun e d he hd hedet hddet => deterministic_inlineScalar he hd hedet hddet

/-- The closed form of a list extends states as the list does. -/
theorem extends_close_iff {ds closed : List (Definition R)} (hdet : DeterministicList ρ ds)
    (hname : ∀ d ∈ ds, PlainName d.name) (h : close ds = .ok closed) {s w : Valuation K} :
    Extends ρ closed s w ↔ Extends ρ ds s w := by
  obtain ⟨_, _, _, hform⟩ := closedForm_of_close hdet.scalar hname h
  have hex : ∀ d ∈ ds, d.Exhaustive ρ := fun d hd =>
    (deterministic_iff.mp (hdet.deterministic d hd)).1
  have hsat := satisfied_close_iff ρ hdet.scalar hname hex h w
  constructor
  · rintro ⟨hbase, hclosed⟩
    exact ⟨fun x hx => hbase x fun hmem => hx ((hform.mem_names_iff x).mp hmem),
      hsat.mpr hclosed⟩
  · rintro ⟨hbase, hds⟩
    exact ⟨fun x hx => hbase x fun hmem => hx ((hform.mem_names_iff x).mpr hmem),
      hsat.mp hds⟩

/-- Well-formed definitions of different names give every state one extension, and a
program with the closed definitions unfolded reads this extension. -/
theorem exists_signals {ds closed : List (Definition R)} (hdet : DeterministicList ρ ds)
    (hname : ∀ d ∈ ds, PlainName d.name) (hnodup : (ds.map name).Nodup)
    (h : close ds = .ok closed) :
    ∃ signals : Valuation K → Valuation K, (∀ s w, w = signals s ↔ Extends ρ ds s w) ∧
      ∀ p : Program R, p.choicesInhabited = true → ∀ s u,
        (Program.Runs ρ id (closed.foldl (fun p d => d.unfoldProgram p) p) s u ↔
          Program.Runs ρ signals p s u) := by
  obtain ⟨last, hlast, hclosed, hform⟩ := closedForm_of_close hdet.scalar hname h
  have hstart : DeterministicList ρ (distinct ds) :=
    ⟨fun d hd => hdet.scalar d (mem_of_mem_distinct hd),
      fun d hd => hdet.deterministic d (mem_of_mem_distinct hd)⟩
  have hend : DeterministicList ρ last :=
    (reaches_of_exhaust? hlast).1.invariant (fun _ _ hes hstep => hes.step hstep) hstart
  have hclosedDet : ∀ d ∈ closed, d.Deterministic ρ := by
    intro d hd
    rw [hclosed] at hd
    exact hend.deterministic d (mem_of_mem_distinct hd)
  have hisClosed : IsClosed closed :=
    ⟨hform.scalar, hform.names_sublist.nodup hnodup, fun d hd x hx =>
      hform.not_mentions d hd x ((hform.mem_names_iff x).mp hx)⟩
  refine ⟨extension ρ closed, ?_, ?_⟩
  · intro s w
    rw [eq_extension_iff hisClosed hclosedDet, extends_close_iff hdet hname h]
  · intro p hp s u
    have hall : ∀ w, closed.foldr
        (fun d w => d.extend ρ w) w = extension ρ closed w := fun w =>
      extendAll_eq_extension hclosedDet hisClosed.not_mentions
    rw [runs_foldl_unfoldProgram_iff hform.scalar hclosedDet hp]
    simp only [hall]

/-! ### What a signal depends on -/

/-- The value of `x` depends on `y`: it is `y`, or a definition of it uses what depends on
`y`. -/
def DependsOnVar (ds : List (Definition R)) : String → String → Prop :=
  Relation.ReflTransGen fun x y => ∃ d ∈ ds, d.name = x ∧ d.mentions y = true

/-- A signal that depends on no changed variable has its value in both extensions. -/
theorem extends_eq_of_not_dependsOn {ds closed : List (Definition R)}
    (hdet : DeterministicList ρ ds) (h : close ds = .ok closed) {s s' w w' : Valuation K}
    (hw : Extends ρ ds s w) (hw' : Extends ρ ds s' w') {z : String}
    (hz : ∀ y, DependsOnVar ds z y → s y = s' y) : w z = w' z := by
  obtain ⟨rank, hrank⟩ := exists_rank_of_close hdet.scalar h
  induction hn : rank z using Nat.strongRecOn generalizing z with
  | _ n ih =>
      by_cases hmem : z ∈ ds.map name
      · obtain ⟨d, hd, rfl⟩ := List.mem_map.mp hmem
        have hddet := hdet.deterministic d hd
        have hvalue := (satisfied_iff_valueIn (hdet.scalar d hd) hddet).mp
          (hw.satisfied d hd)
        have hvalue' := (satisfied_iff_valueIn (hdet.scalar d hd) hddet).mp
          (hw'.satisfied d hd)
        rw [hvalue, hvalue']
        refine valueIn_congr hddet fun x hx => ?_
        have hdep : ∀ y, DependsOnVar ds x y → s y = s' y := fun y hy =>
          hz y (Relation.ReflTransGen.head ⟨d, hd, rfl, hx⟩ hy)
        by_cases hxmem : x ∈ ds.map name
        · exact ih (rank x) (hn ▸ hrank d hd x hxmem hx) hdep rfl
        · rw [hw.base x hxmem, hw'.base x hxmem]
          exact hdep x Relation.ReflTransGen.refl
      · rw [hw.base z hmem, hw'.base z hmem]
        exact hz z Relation.ReflTransGen.refl

end Definition
end SignalFlow
