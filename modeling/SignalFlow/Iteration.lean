/-!
# Iteration

A step that may have nothing left to do is repeated until it has.
-/

namespace SignalFlow

variable {α : Type} (step : α → Option α)

/-- Repeat a step until there is none; `none` if there always is one. -/
def exhaust? (a : α) : Option α :=
  match step a with
  | none => some a
  -- A written call would keep its place in the file; one that is put together by a tactic
  -- does not.
  | some b => by apply exhaust?; exact b
partial_fixpoint

/-- Repeat a step until there is none.  What never ends is taken as it is. -/
def exhaust (a : α) : α :=
  (exhaust? step a).getD a

end SignalFlow
