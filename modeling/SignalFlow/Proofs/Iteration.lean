import Mathlib.Logic.Relation
import SignalFlow.Iteration

/-!
# Runs of an iterated step

An iteration that ends has taken finitely many steps, and no step is left at its end.

**Results.**
* `reaches_of_exhaust?`: the value of an iteration is the end of a run of steps.
* `exhaust_invariant`: what holds at the start and is kept by every step holds of the
  result.
* `exists_exhaust?`: an iteration ends if every step lowers a measure.
* `exhaust?_eq_none`: an iteration does not end if there is always a next step.
-/

namespace SignalFlow

variable {α : Type} {step : α → Option α}

/-- `b` is reached from `a` by finitely many steps. -/
def Reaches (step : α → Option α) : α → α → Prop :=
  Relation.ReflTransGen fun a b => step a = some b

theorem exhaust?_of_none {a : α} (h : step a = none) : exhaust? step a = some a := by
  rw [exhaust?, h]

theorem exhaust?_of_some {a b : α} (h : step a = some b) :
    exhaust? step a = exhaust? step b := by
  rw [exhaust?.eq_1 step a, h]

theorem exhaust?_of_reaches {a b : α} (h : Reaches step a b) :
    exhaust? step a = exhaust? step b := by
  induction h with
  | refl => rfl
  | tail _ hbc ih =>
      rw [ih, exhaust?_of_some hbc]

theorem reaches_of_exhaust? {a b : α} (h : exhaust? step a = some b) :
    Reaches step a b ∧ step b = none := by
  refine exhaust?.partial_correctness step
    (fun a b => Reaches step a b ∧ step b = none) ?_ a b h
  intro rec hrec a b hab
  cases ha : step a with
  | none =>
      rw [ha] at hab
      cases hab
      exact ⟨Relation.ReflTransGen.refl, ha⟩
  | some c =>
      rw [ha] at hab
      obtain ⟨hcb, hb⟩ := hrec c b hab
      exact ⟨Relation.ReflTransGen.head ha hcb, hb⟩

theorem exhaust_of_exhaust? {a b : α} (h : exhaust? step a = some b) :
    exhaust step a = b := by
  unfold exhaust
  rw [h]
  rfl

/-- The iteration, if fewer than `n` steps lead to its end. -/
def exhaustWithin (step : α → Option α) : Nat → α → Option α
  | 0, _ => none
  | n + 1, a =>
      match step a with
      | none => some a
      | some b => exhaustWithin step n b

theorem exhaust?_of_exhaustWithin {n : Nat} {a b : α}
    (h : exhaustWithin step n a = some b) : exhaust? step a = some b := by
  induction n generalizing a with
  | zero => cases h
  | succ n ih =>
      cases ha : step a with
      | none =>
          simp only [exhaustWithin, ha, Option.some.injEq] at h
          rw [exhaust?_of_none ha, h]
      | some c =>
          simp only [exhaustWithin, ha] at h
          rw [exhaust?_of_some ha, ih h]

/-- What every step keeps is kept by a run. -/
theorem Reaches.invariant {P : α → Prop}
    (hstep : ∀ a b, P a → step a = some b → P b)
    {a b : α} (hab : Reaches step a b) (ha : P a) : P b := by
  induction hab with
  | refl => exact ha
  | tail _ hbc ih => exact hstep _ _ ih hbc

/-- What holds at the start and is kept by every step holds of the result. -/
theorem exhaust_invariant {P : α → Prop}
    (hstep : ∀ a b, P a → step a = some b → P b)
    {a : α} (ha : P a) : P (exhaust step a) := by
  unfold exhaust
  cases h : exhaust? step a with
  | none => exact ha
  | some b => exact (reaches_of_exhaust? h).1.invariant hstep ha

/-- An iteration ends if every step keeps `P` and lowers a measure where `P` holds. -/
theorem exists_exhaust? {P : α → Prop} (measure : α → Nat)
    (hstep : ∀ a b, P a → step a = some b → P b ∧ measure b < measure a)
    {a : α} (ha : P a) : ∃ b, exhaust? step a = some b := by
  induction hn : measure a using Nat.strongRecOn generalizing a with
  | _ n ih =>
      cases h : step a with
      | none => exact ⟨a, exhaust?_of_none h⟩
      | some b =>
          obtain ⟨hb, hlt⟩ := hstep a b ha h
          obtain ⟨c, hc⟩ := ih (measure b) (hn ▸ hlt) hb rfl
          exact ⟨c, by rw [exhaust?_of_some h, hc]⟩

/-- An iteration does not end if there is always a step that keeps `P`. -/
theorem exhaust?_eq_none {P : α → Prop} (hstep : ∀ a, P a → ∃ b, step a = some b ∧ P b)
    {a : α} (ha : P a) : exhaust? step a = none := by
  cases h : exhaust? step a with
  | none => rfl
  | some b =>
      obtain ⟨hab, hb⟩ := reaches_of_exhaust? h
      have hPb : P b := by
        refine hab.invariant (fun c d hc hcd => ?_) ha
        obtain ⟨d', hd', hPd⟩ := hstep c hc
        rw [hd', Option.some.injEq] at hcd
        exact hcd ▸ hPd
      obtain ⟨c, hc, _⟩ := hstep b hPb
      rw [hb] at hc
      cases hc

end SignalFlow
