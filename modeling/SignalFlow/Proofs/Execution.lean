import Mathlib.Logic.Relation
import SignalFlow.Hybrid.Program
import SignalFlow.Proofs.Meaning

/-!
# Runs of discrete programs

A program relates the states before and after it.  States give every variable a value.
Tests and right-hand sides need not be read in the state itself: they are read in a *view*
of it, which may give some variables other values.  With the view `id` this is the usual
meaning of programs.

**Results.**
* `runs_seq_append`: a sequence runs its parts in order.
* `runs_loop_iff`: a loop runs its body any number of times.
* `Runs.frame`: what a program does not write is unchanged.
* `runs_sequence_iff`, `runs_oneOf_iff`: splicing keeps the runs of sequences, and of
  choices that are not empty.
-/

namespace SignalFlow
namespace Program

variable {R : Type}

mutual

/-- Every choice has an alternative. -/
def choicesInhabited : Program R → Bool
  | .skip => true
  | .assign _ _ => true
  | .havoc _ => true
  | .test _ => true
  | .seq ps => allChoicesInhabited ps
  | .choice ps => !ps.isEmpty && allChoicesInhabited ps
  | .loop p => choicesInhabited p

/-- Every choice in every part has an alternative. -/
def allChoicesInhabited : List (Program R) → Bool
  | [] => true
  | p :: ps => choicesInhabited p && allChoicesInhabited ps

end

theorem allChoicesInhabited_eq (ps : List (Program R)) :
    allChoicesInhabited ps = ps.all choicesInhabited := by
  induction ps with
  | nil => simp [allChoicesInhabited]
  | cons p ps ih => simp [allChoicesInhabited, ih]

theorem choicesInhabited_seq_iff {ps : List (Program R)} :
    (Program.seq ps).choicesInhabited = true ↔ ∀ p ∈ ps, p.choicesInhabited = true := by
  simp [choicesInhabited, allChoicesInhabited_eq]

theorem choicesInhabited_choice_iff {ps : List (Program R)} :
    (Program.choice ps).choicesInhabited = true ↔
      ps ≠ [] ∧ ∀ p ∈ ps, p.choicesInhabited = true := by
  simp [choicesInhabited, allChoicesInhabited_eq]

theorem choicesInhabited_sequence {ps : List (Program R)}
    (h : ∀ p ∈ ps, p.choicesInhabited = true) : (sequence ps).choicesInhabited = true := by
  have hsteps : ∀ p ∈ ps.flatMap steps, p.choicesInhabited = true := by
    intro q hq
    obtain ⟨p, hp, hq⟩ := List.mem_flatMap.mp hq
    have hin := h p hp
    cases p with
    | skip => cases hq
    | seq qs => exact choicesInhabited_seq_iff.mp hin q hq
    | assign x e => exact List.mem_singleton.mp hq ▸ hin
    | havoc x => exact List.mem_singleton.mp hq ▸ hin
    | test p => exact List.mem_singleton.mp hq ▸ hin
    | choice qs => exact List.mem_singleton.mp hq ▸ hin
    | loop p => exact List.mem_singleton.mp hq ▸ hin
  rw [sequence]
  split
  · rfl
  · next p hp => exact hsteps p (by simp [hp])
  · exact choicesInhabited_seq_iff.mpr hsteps

theorem choicesInhabited_oneOf {ps : List (Program R)}
    (h : ∀ p ∈ ps, p.choicesInhabited = true) : (oneOf ps).choicesInhabited = true := by
  cases ps with
  | nil => rfl
  | cons p ps =>
      cases ps with
      | nil => exact h p (by simp)
      | cons q ps => exact choicesInhabited_choice_iff.mpr ⟨by simp, h⟩

mutual

/-- The variables that may be written. -/
def targets : Program R → List String
  | .skip => []
  | .assign x _ => [x]
  | .havoc x => [x]
  | .test _ => []
  | .seq ps => targetsOfAll ps
  | .choice ps => targetsOfAll ps
  | .loop p => targets p

/-- The variables that one of the parts may write. -/
def targetsOfAll : List (Program R) → List String
  | [] => []
  | p :: ps => targets p ++ targetsOfAll ps

end

theorem targetsOfAll_eq (ps : List (Program R)) :
    targetsOfAll ps = ps.flatMap targets := by
  induction ps with
  | nil => simp [targetsOfAll]
  | cons p ps ih => simp [targetsOfAll, ih]

variable {K : Type*} [Scalar R] [Field K] [LinearOrder K]

/-- The program leads from the first state to the second, where `view` is what it reads. -/
inductive Runs (ρ : Reading R K) (view : Valuation K → Valuation K) :
    Program R → Valuation K → Valuation K → Prop
  | skip (s : Valuation K) :
      Runs ρ view .skip s s
  | assign (x : String) (t : Term R) (s : Valuation K) :
      Runs ρ view (.assign x t) s (Function.update s x (t.eval ρ (view s)))
  | havoc (x : String) (a : K) (s : Valuation K) :
      Runs ρ view (.havoc x) s (Function.update s x a)
  | test (p : Formula R) (s : Valuation K) (holds : p.Holds ρ (view s)) :
      Runs ρ view (.test p) s s
  | done (s : Valuation K) :
      Runs ρ view (.seq []) s s
  | next (p : Program R) (ps : List (Program R)) (s t u : Valuation K)
      (first : Runs ρ view p s t) (rest : Runs ρ view (.seq ps) t u) :
      Runs ρ view (.seq (p :: ps)) s u
  | choice (p : Program R) (ps : List (Program R)) (s t : Valuation K)
      (mem : p ∈ ps) (part : Runs ρ view p s t) :
      Runs ρ view (.choice ps) s t
  | leave (p : Program R) (s : Valuation K) :
      Runs ρ view (.loop p) s s
  | again (p : Program R) (s t u : Valuation K)
      (first : Runs ρ view p s t) (rest : Runs ρ view (.loop p) t u) :
      Runs ρ view (.loop p) s u

variable {ρ : Reading R K} {view : Valuation K → Valuation K} {s t u : Valuation K}

@[simp] theorem runs_skip_iff : Runs ρ view .skip s u ↔ u = s := by
  constructor
  · rintro ⟨⟩
    rfl
  · rintro rfl
    exact Runs.skip _

@[simp] theorem runs_assign_iff {x : String} {e : Term R} :
    Runs ρ view (.assign x e) s u ↔ u = Function.update s x (e.eval ρ (view s)) := by
  constructor
  · rintro ⟨⟩
    rfl
  · rintro rfl
    exact Runs.assign x e s

@[simp] theorem runs_havoc_iff {x : String} :
    Runs ρ view (.havoc x : Program R) s u ↔ ∃ a, u = Function.update s x a := by
  constructor
  · rintro ⟨⟩
    exact ⟨_, rfl⟩
  · rintro ⟨a, rfl⟩
    exact Runs.havoc x a s

@[simp] theorem runs_test_iff {p : Formula R} :
    Runs ρ view (.test p) s u ↔ u = s ∧ p.Holds ρ (view s) := by
  constructor
  · rintro ⟨⟩
    exact ⟨rfl, by assumption⟩
  · rintro ⟨rfl, hp⟩
    exact Runs.test p _ hp

@[simp] theorem runs_seq_nil_iff : Runs ρ view (.seq [] : Program R) s u ↔ u = s := by
  constructor
  · rintro ⟨⟩
    rfl
  · rintro rfl
    exact Runs.done _

@[simp] theorem runs_seq_cons_iff {p : Program R} {ps : List (Program R)} :
    Runs ρ view (.seq (p :: ps)) s u ↔
      ∃ t, Runs ρ view p s t ∧ Runs ρ view (.seq ps) t u := by
  constructor
  · rintro ⟨⟩
    exact ⟨_, by assumption, by assumption⟩
  · rintro ⟨t, hp, hps⟩
    exact Runs.next p ps s t u hp hps

@[simp] theorem runs_choice_iff {ps : List (Program R)} :
    Runs ρ view (.choice ps) s u ↔ ∃ p ∈ ps, Runs ρ view p s u := by
  constructor
  · rintro ⟨⟩
    exact ⟨_, by assumption, by assumption⟩
  · rintro ⟨p, hp, hrun⟩
    exact Runs.choice p ps s u hp hrun

/-- A loop runs its body any number of times. -/
theorem runs_loop_iff {p : Program R} :
    Runs ρ view (.loop p) s u ↔ Relation.ReflTransGen (Runs ρ view p) s u := by
  constructor
  · intro h
    generalize hq : Program.loop p = q at h
    induction h with
    | leave p' s =>
        exact Relation.ReflTransGen.refl
    | again p' s t u hfirst _ _ ih =>
        cases hq
        exact Relation.ReflTransGen.head hfirst (ih rfl)
    | skip => cases hq
    | assign => cases hq
    | havoc => cases hq
    | test => cases hq
    | done => cases hq
    | next => cases hq
    | choice => cases hq
  · intro h
    induction h using Relation.ReflTransGen.head_induction_on with
    | refl => exact Runs.leave p u
    | head hfirst _ ih => exact Runs.again p _ _ u hfirst ih

/-- What a program does not write is unchanged. -/
theorem Runs.frame {p : Program R} (h : Runs ρ view p s u) {x : String}
    (hx : x ∉ p.targets) : u x = s x := by
  induction h with
  | skip s => rfl
  | assign y e s =>
      refine Function.update_of_ne ?_ _ _
      rintro rfl
      simp [targets] at hx
  | havoc y a s =>
      refine Function.update_of_ne ?_ _ _
      rintro rfl
      simp [targets] at hx
  | test q s hq => rfl
  | done s => rfl
  | next q qs s t u _ _ ihq ihqs =>
      simp only [targets, targetsOfAll, List.mem_append, not_or] at hx ihqs
      rw [ihqs hx.2, ihq hx.1]
  | choice q qs s t hq _ ih =>
      simp only [targets, targetsOfAll_eq, List.mem_flatMap, not_exists, not_and] at hx
      exact ih (hx q hq)
  | leave q s => rfl
  | again q s t u _ _ ihfirst ihrest => rw [ihrest hx, ihfirst hx]

theorem runs_seq_append {ps qs : List (Program R)} :
    Runs ρ view (.seq (ps ++ qs)) s u ↔
      ∃ t, Runs ρ view (.seq ps) s t ∧ Runs ρ view (.seq qs) t u := by
  induction ps generalizing s with
  | nil => simp
  | cons p ps ih =>
      simp only [List.cons_append, runs_seq_cons_iff, ih]
      constructor
      · rintro ⟨t, hp, w, hps, hqs⟩
        exact ⟨w, ⟨t, hp, hps⟩, hqs⟩
      · rintro ⟨w, ⟨t, hp, hps⟩, hqs⟩
        exact ⟨t, hp, w, hps, hqs⟩

theorem runs_seq_singleton_iff {p : Program R} :
    Runs ρ view (.seq [p]) s u ↔ Runs ρ view p s u := by
  simp

theorem runs_seq_steps_iff {p : Program R} :
    Runs ρ view (.seq p.steps) s u ↔ Runs ρ view p s u := by
  cases p with
  | skip => simp [steps]
  | assign x e => exact runs_seq_singleton_iff
  | havoc x => exact runs_seq_singleton_iff
  | test p => exact runs_seq_singleton_iff
  | seq ps => exact Iff.rfl
  | choice ps => exact runs_seq_singleton_iff
  | loop p => exact runs_seq_singleton_iff

/-- Splicing keeps the runs of a sequence. -/
theorem runs_sequence_iff {ps : List (Program R)} :
    Runs ρ view (.sequence ps) s u ↔ Runs ρ view (.seq ps) s u := by
  have hflat : Runs ρ view (.seq (ps.flatMap steps)) s u ↔ Runs ρ view (.seq ps) s u := by
    induction ps generalizing s with
    | nil => rfl
    | cons p ps ih =>
        rw [List.flatMap_cons, runs_seq_append, runs_seq_cons_iff]
        simp only [runs_seq_steps_iff, ih]
  rw [← hflat, sequence]
  split
  · next h => simp [h]
  · next p h => rw [h, runs_seq_singleton_iff]
  · rfl

/-- One of several programs is run, if there is any. -/
theorem runs_oneOf_iff {ps : List (Program R)} (h : ps ≠ []) :
    Runs ρ view (.oneOf ps) s u ↔ ∃ p ∈ ps, Runs ρ view p s u := by
  cases ps with
  | nil => exact absurd rfl h
  | cons p ps =>
      cases ps with
      | nil => simp [oneOf]
      | cons q ps => exact runs_choice_iff

end Program
end SignalFlow
