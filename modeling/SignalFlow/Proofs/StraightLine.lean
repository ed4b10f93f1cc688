import Mathlib.Data.List.Nodup
import SignalFlow.Proofs.Execution

/-!
# Straight-line programs

A sequence of assignments to different variables: every variable gets its value once, and
what an assignment reads of the variables assigned before it is their new value.

**Results.**
* `exists_runs_of_straight`: a straight-line program runs, whatever arbitrary values are
  chosen.
* `value_of_runs_assignments`: the value that an assignment gives, from the states before
  and after the program.
-/

namespace SignalFlow
namespace Program

variable {R : Type}

/-- A single assignment. -/
def IsStraight : Program R → Prop
  | .assign _ _ => True
  | .havoc _ => True
  | _ => False

/-- The state `s`, with the variables of `xs` as they are in `u`. -/
def overwritten {K : Type*} (xs : List String) (u s : Valuation K) :
    Valuation K := fun x =>
  if x ∈ xs then u x else s x

variable {K : Type*} [Scalar R] [Field K] [LinearOrder K]
variable {ρ : Reading R K} {view : Valuation K → Valuation K}

omit [Scalar R] in
theorem choicesInhabited_of_straight {ps : List (Program R)} (h : ∀ p ∈ ps, p.IsStraight) :
    (Program.seq ps).choicesInhabited = true := by
  rw [choicesInhabited_seq_iff]
  intro p hp
  have hstraight := h p hp
  cases p with
  | assign x t => rfl
  | havoc x => rfl
  | skip => exact hstraight.elim
  | test q => exact hstraight.elim
  | seq qs => exact hstraight.elim
  | choice qs => exact hstraight.elim
  | loop q => exact hstraight.elim

/-- A straight-line program runs, whatever arbitrary values are chosen. -/
theorem exists_runs_of_straight {ps : List (Program R)} (h : ∀ p ∈ ps, p.IsStraight)
    (hnodup : (ps.flatMap targets).Nodup) (s a : Valuation K) :
    ∃ u, Runs ρ view (.seq ps) s u ∧ ∀ x, Program.havoc x ∈ ps → u x = a x := by
  induction ps generalizing s with
  | nil => exact ⟨s, Runs.done s, by simp⟩
  | cons p ps ih =>
      rw [List.flatMap_cons, List.nodup_append] at hnodup
      obtain ⟨_, hrest, hapart⟩ := hnodup
      have hstraight := h p List.mem_cons_self
      obtain ⟨t, hfirst, hvalue⟩ : ∃ t, Runs ρ view p s t ∧ ∀ x, p = .havoc x →
          t x = a x := by
        cases p with
        | assign y e => exact ⟨_, Runs.assign y e s, by simp⟩
        | havoc y =>
            refine ⟨_, Runs.havoc y (a y) s, ?_⟩
            rintro x ⟨⟩
            exact Function.update_self _ _ _
        | skip => exact hstraight.elim
        | test q => exact hstraight.elim
        | seq qs => exact hstraight.elim
        | choice qs => exact hstraight.elim
        | loop q => exact hstraight.elim
      obtain ⟨u, hrun, hchosen⟩ := ih (fun q hq => h q (List.mem_cons_of_mem _ hq)) hrest t
      refine ⟨u, Runs.next p ps s t u hfirst hrun, ?_⟩
      intro x hx
      rcases List.mem_cons.mp hx with rfl | hx
      · -- The rest of the program does not write the variable again.
        have hframe : x ∉ (Program.seq ps).targets := by
          simp only [targets, targetsOfAll_eq]
          intro hmem
          exact hapart x (by simp [targets]) x hmem rfl
        rw [hrun.frame hframe]
        exact hvalue x rfl
      · exact hchosen x hx

variable {α : Type} {out : α → String} {value : α → Term R} {s u : Valuation K}

omit [Scalar R] in
theorem targets_assignments (bs : List α) :
    (Program.seq (bs.map fun b => .assign (out b) (value b))).targets = bs.map out := by
  simp only [targets, targetsOfAll_eq, List.flatMap_map]
  induction bs with
  | nil => rfl
  | cons b bs ih => simp [ih]

/-- The value that an assignment gives, from the states before and after the program. -/
theorem value_of_runs_assignments {before after : List α} {b : α}
    (hnodup : ((before ++ b :: after).map out).Nodup)
    (h : Runs ρ view (.seq ((before ++ b :: after).map fun b => .assign (out b) (value b)))
      s u) :
    u (out b) = (value b).eval ρ (view (overwritten (before.map out) u s)) := by
  rw [List.map_append, List.map_cons, runs_seq_append] at h
  obtain ⟨t, hbefore, hrest⟩ := h
  rw [runs_seq_cons_iff] at hrest
  obtain ⟨t', hassign, hafter⟩ := hrest
  rw [runs_assign_iff] at hassign
  rw [List.map_append, List.map_cons, List.nodup_append, List.nodup_cons] at hnodup
  obtain ⟨_, ⟨hb, _⟩, hapart⟩ := hnodup
  have hstate : t = overwritten (before.map out) u s := by
    funext x
    unfold overwritten
    split
    · next hx =>
        have hxafter : x ∉ after.map out := fun hmem =>
          hapart x hx x (List.mem_cons_of_mem _ hmem) rfl
        have hxb : x ≠ out b := fun heq => hapart x hx (out b) List.mem_cons_self heq
        rw [hafter.frame (by rwa [targets_assignments]), hassign,
          Function.update_of_ne hxb]
    · next hx => exact hbefore.frame (by rwa [targets_assignments])
  rw [hafter.frame (by rwa [targets_assignments]), hassign, Function.update_self, hstate]

end Program
end SignalFlow
