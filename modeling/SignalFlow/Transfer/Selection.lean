import SignalFlow.Transfer.Basic

/-!
# Transfer through switches

A switch selects its first or its third input by a condition on the second.
-/

namespace SignalFlow
namespace Transfer

variable {R : Type} [Scalar R]

/-- A fact about a selected input holds of the output under the condition that selects the
input. -/
def switch (s : Site R) (pin : Nat) (p : Fact R) : Effect R :=
  if pin == 1 || p.category != .signal then .stop
  else
    match s.inputVar? 1, p.asBoundary? with
    | some control, some b =>
        let guard := s.block.switchGuard (.var control)
        .propagate
          (.control [⟨if pin == 0 then guard else guard.negate, b.retarget s.output⟩])
    | _, _ => .stop

/-- Whether a condition on the control input holds for every value, or for none, of its
range. -/
def decideGuard? (guard : Formula R) (control : Range R) : Option Bool :=
  match guard with
  | .rel r =>
      match r.rhs.value? with
      | none => none
      | some c =>
          let shifted := control.offset (-c)
          if shifted.allSatisfySign r.op then some true
          else if shifted.allSatisfySign r.op.negate then some false
          else none
  | _ => none

/-- Range of the selected input, or of both if the condition is open. -/
def selectedRange? (s : Site R) : Option (Range R) :=
  let guard := s.block.switchGuard (.var ((s.inputVar? 1).getD "u2"))
  match (s.hull? 1).bind (decideGuard? guard) with
  | some true => s.hull? 0
  | some false => s.hull? 2
  | none =>
      match s.hull? 0, s.hull? 2 with
      | some a, some b => some (a.hull b)
      | _, _ => none

/-- The fact about the output of a switch that follows from the ranges of its inputs. -/
def selected? (s : Site R) : Option (Fact R) :=
  (selectedRange? s).map (.ofRange s.output)

end Transfer
end SignalFlow
