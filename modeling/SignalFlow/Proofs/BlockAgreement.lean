import SignalFlow.Proofs.ExtendedRational
import SignalFlow.Proofs.TransferSoundness

/-!
# Transfer agrees with encoding

A block without state is described twice: its transfer rule says which facts about the
output follow from facts about the inputs, and its encoding defines the output by terms and
guards.  In exact arithmetic both agree.  Where the output has the value that the encoding
defines, and all facts at the inputs are true, the facts that the rule establishes,
transfers or selects are true of the output.

The bridge between them is what the block computes: the encoding defines it, and the rule
describes it.

**Results.**
* `TransferRule.true_of_encoding`: the facts of a rule are true in every valuation that the
  encoding admits.
-/

namespace SignalFlow

variable {R : Type} [Scalar R]

/-- A block of this kind declares as many inputs as it reads. -/
def Block.DeclaresInputs (b : Block) : BlockKind → Prop
  | .gain => b.inputs = 1
  | .saturation => b.inputs = 1
  | .relationalOperator => b.inputs = 2
  | .switch => b.inputs = 3
  | _ => True

theorem Block.DeclaresInputs.le_arity {b : Block} {k : BlockKind}
    (hregular : b.Regular R k) (h : b.DeclaresInputs k) : b.inputs ≤ b.arity k := by
  cases k with
  | gain => exact Nat.le_of_eq h
  | saturation => exact Nat.le_of_eq h
  | unitDelay => exact hregular.elim
  | memory => exact hregular.elim
  | _ => exact Nat.le_max_left _ _

/-- The declared inputs of the site carry the signals of the diagram.  What is known about
an input is about its own signal, with determinate bounds. -/
structure Site.Connected (d : Diagram) (s : Site R) : Prop where
  length_le : s.inlets.length ≤ s.block.inputs
  var : ∀ (pin : Nat) (i : Inlet R), s.inlets[pin]? = some i →
    i.var = d.inputVar? s.block.id pin
  facts : ∀ i ∈ s.inlets, ∀ p ∈ i.facts, p.Determinate ∧ ∃ x, i.var = some x ∧
    p.About (.var x)

variable {ρ : ExtendedReading R} {d : Diagram} {s : Site R} {k : BlockKind}
  {v : Valuation ℝ}

/-- True facts at the inputs allow the values there. -/
theorem Site.Connected.admits (hregular : s.block.Regular R k)
    (hinputs : s.block.DeclaresInputs k) (hs : s.Connected d)
    (hfacts : ∀ i ∈ s.inlets, ∀ p ∈ i.facts, p.toFormula.TrueAt ρ v) :
    s.Admits ρ v k (Encoding.operand v d s.block) := by
  refine ⟨hs.length_le.trans (Nat.le_max_left _ _), fun pin i hi p hp => ?_⟩
  have hmem : i ∈ s.inlets := List.mem_of_getElem? hi
  have hlt : pin < s.inlets.length := (List.getElem?_eq_some_iff.mp hi).1
  obtain ⟨hdet, x, hx, habout⟩ := hs.facts i hmem p hp
  have hoperand : Encoding.operand v d s.block pin = v x := by
    rw [Encoding.operand, ← hs.var pin i hi, hx, Option.getD_some]
  refine ⟨(hlt.trans_le hs.length_le).trans_le (hinputs.le_arity hregular), hdet, ?_⟩
  rw [hoperand, ← Term.extended_var ρ v x, ← Fact.trueAt_iff_allows habout]
  exact hfacts i hmem p hp

namespace TransferRule

/-- Where the output of a block has the value that its encoding defines, and all facts at
the inputs are true, so is every fact about the output that the rule of the block
establishes, transfers or selects. -/
theorem true_of_encoding (hρ : ρ.Exact) (hregular : s.block.Regular R k)
    (hinputs : s.block.DeclaresInputs k) (hs : s.Connected d)
    (hdefined : ∀ e ∈ (Encoding.ofBlock d s.block k).definitions, e.Satisfied hρ.real v)
    (hfacts : ∀ i ∈ s.inlets, ∀ p ∈ i.facts, p.toFormula.TrueAt ρ v) :
    (∀ q ∈ (ofKind k).generate s.block, q.About s.output ∧ q.toFormula.TrueAt ρ v) ∧
      (∀ pin i, s.inlets[pin]? = some i → ∀ p ∈ i.facts, ∀ q,
        (ofKind k).advance s pin p = .propagate q →
        q.About s.output ∧ q.toFormula.TrueAt ρ v) ∧
      ∀ q, (ofKind k).select? s = some q → q.About s.output ∧ q.toFormula.TrueAt ρ v := by
  have hcomputes := Encoding.computes_of_satisfied hρ hregular hdefined
  have hadmits : s.Admits ρ v k (Encoding.operand v d s.block) :=
    hs.admits hregular hinputs hfacts
  have hswitch : k = .switch → s.block.inputs = 3 ∧
      ∀ x, s.inputVar? 1 = some x → v x = Encoding.operand v d s.block 1 := by
    rintro rfl
    refine ⟨hinputs, fun x hx => ?_⟩
    obtain ⟨i, hi, hvar⟩ := Option.bind_eq_some_iff.mp hx
    rw [Encoding.operand, ← hs.var 1 i hi, hvar, Option.getD_some]
  have htrue : ∀ {q : Fact R}, q.Describes ρ v s.output (v (s.block.outputVar 0)) →
      q.About s.output ∧ q.toFormula.TrueAt ρ v := fun hq =>
        ⟨hq.about, hq.trueAt (Term.extended_var ρ v _)⟩
  refine ⟨fun q hq => htrue ?_, fun pin i hi p hp q hq => htrue ?_, fun q hq => htrue ?_⟩
  · exact describes_generate hρ hregular hcomputes hq
  · exact describes_advance hρ hregular hadmits hcomputes hswitch hi hp hq
  · exact describes_select? hρ hregular hadmits hcomputes hq

/-- A switch between two limited inputs. -/
def choice : Diagram where
  name := "choice"
  blocks := [⟨1, "A", "Inport", 0, 1, []⟩, ⟨2, "C", "Inport", 0, 1, []⟩,
    ⟨3, "B", "Inport", 0, 1, []⟩,
    ⟨4, "S", "Switch", 3, 1, [("Criteria", "u2 >= Threshold"), ("Threshold", "0.5")]⟩]
  signals := [⟨1, ⟨1, 0⟩, ⟨4, 0⟩⟩, ⟨2, ⟨2, 0⟩, ⟨4, 1⟩⟩, ⟨3, ⟨3, 0⟩, ⟨4, 2⟩⟩]

/-- What is known where the switch selects its first input. -/
def choiceSite : Site ExtendedRational where
  block :=
    ⟨4, "S", "Switch", 3, 1, [("Criteria", "u2 >= Threshold"), ("Threshold", "0.5")]⟩
  inlets := [⟨some "A_out", [.single (.closed (.var "A_out") (.finite 0) (.finite 2))]⟩,
    ⟨some "C_out", [.single (.relation ⟨.var "C_out", .ge, .num (.finite 1)⟩)]⟩,
    ⟨some "B_out", [.single (.closed (.var "B_out") (.finite 5) (.finite 6))]⟩]

/-- The control input and the selected one are one. -/
def choiceValues : Valuation ℝ := fun x => if x = "B_out" then 5 else 1

theorem true_of_encoding_choice :
    (∀ e ∈ (Encoding.ofBlock choice choiceSite.block .switch :
      Encoding ExtendedRational).definitions,
      e.Satisfied ExtendedRational.exact_reading.real choiceValues) ∧
    (∀ i ∈ choiceSite.inlets, ∀ p ∈ i.facts,
      p.toFormula.TrueAt ExtendedRational.reading choiceValues) ∧
    (∃ q, (ofKind .switch).select? choiceSite = some q ∧
      q.toFormula.TrueAt ExtendedRational.reading choiceValues) ∧
    ∃ i p q, choiceSite.inlets[2]? = some i ∧ p ∈ i.facts ∧
      (ofKind .switch).advance choiceSite 2 p = .propagate q ∧
        q.toFormula.TrueAt ExtendedRational.reading choiceValues := by
  have hthreshold : (Scalar.read? "0.5" : Option ExtendedRational) = some
    (.finite (1 / 2)) := by decide +kernel
  have hregular : choiceSite.block.Regular ExtendedRational .switch := by
    intro text htext
    obtain rfl : "0.5" = text := Option.some.inj htext
    exact Or.inr ⟨by decide, _, hthreshold, by decide +kernel⟩
  have hfirst : (Fact.single (.closed (.var "A_out") (.finite 0) (.finite 2))).Describes
      ExtendedRational.reading
      choiceValues (.var "A_out") 1 :=
    Fact.describes_closed (ExtendedRational.covers_closed (by simp) (by simp)) _
  have hthird : (Fact.single (.closed (.var "B_out") (.finite 5) (.finite 6))).Describes
      ExtendedRational.reading
      choiceValues (.var "B_out") 5 :=
    Fact.describes_closed (ExtendedRational.covers_closed (by simp) (by norm_num)) _
  have hcontrol : (Fact.single (.relation ⟨.var "C_out", .ge, .num (.finite 1)⟩)).Describes
      ExtendedRational.reading
      choiceValues (.var "C_out") 1 := by
    refine ⟨rfl, fun c hc t ht => ?_, ?_⟩
    · obtain rfl := List.mem_singleton.mp hc
      obtain rfl := List.mem_singleton.mp ht
      exact Term.determinate_of_isFinite (by decide)
    · show (Term.num (ExtendedRational.finite 1)).extended ExtendedRational.reading
        choiceValues ≤ (1 : ℝ)
      rw [Term.extended_num]
      exact EReal.coe_le_coe_iff.mpr (by simp)
  have hs : choiceSite.Connected choice := by
    refine ⟨Nat.le_refl 3, fun pin i hi => ?_, ?_⟩
    · match pin, hi with
      | 0, rfl => decide
      | 1, rfl => decide
      | 2, rfl => decide
    · simp only [choiceSite, List.forall_mem_cons, List.not_mem_nil, false_imp_iff,
        implies_true, and_true]
      exact ⟨⟨hfirst.determinate, "A_out", rfl, rfl⟩,
        ⟨hcontrol.determinate, "C_out", rfl, rfl⟩,
        hthird.determinate, "B_out", rfl, rfl⟩
  have hfacts : ∀ i ∈ choiceSite.inlets, ∀ p ∈ i.facts,
      p.toFormula.TrueAt ExtendedRational.reading choiceValues := by
    simp only [choiceSite, List.forall_mem_cons, List.not_mem_nil, false_imp_iff,
      implies_true, and_true]
    exact ⟨hfirst.trueAt (by simp [choiceValues]),
      hcontrol.trueAt (by simp [choiceValues]),
      hthird.trueAt (by simp [choiceValues])⟩
  have hdefined : ∀ e ∈ (Encoding.ofBlock choice choiceSite.block .switch :
      Encoding ExtendedRational).definitions,
      e.Satisfied ExtendedRational.exact_reading.real choiceValues := by
    have hguard : choiceSite.block.switchGuard (Encoding.input choice choiceSite.block 1) =
        .compare (.var "C_out") .ge (.num (ExtendedRational.finite (1 / 2))) := by
      have hparam : choiceSite.block.param? "Threshold" = some "0.5" := by decide
      have hcriteria : choiceSite.block.param? "Criteria" = some "u2 >= Threshold" := by
        decide
      have hinput : (Encoding.input choice choiceSite.block 1 : Term ExtendedRational) =
        .var "C_out" := rfl
      have hterm : choiceSite.block.paramTerm? "Threshold" = some
          (.num (ExtendedRational.finite (1 / 2))) := by
        simp [Block.paramTerm?, hparam, hthreshold]
      unfold Block.switchGuard
      rw [hterm, hcriteria, hinput]
      rfl
    have hout : choiceValues (choiceSite.block.outputVar 0) =
        Encoding.operand choiceValues choice choiceSite.block 0 := by
      have hname : choiceSite.block.outputVar 0 = "S_out" := by decide
      have hvar : choice.inputVar? choiceSite.block.id 0 = some "A_out" := by decide
      rw [Encoding.operand, hvar, hname]
      simp [choiceValues]
    show ∀ e ∈ (Encoding.switch choice choiceSite.block :
      Encoding ExtendedRational).definitions, _
    rw [Encoding.switch, hguard, Encoding.byGuard, Encoding.satisfied_byCases_iff,
      List.forall_mem_cons, List.forall_mem_singleton, Encoding.eval_input]
    refine ⟨fun _ => hout, fun hbelow => absurd hbelow ?_⟩
    -- The control value is one, which is not below the threshold.
    rw [Formula.compare, Encoding.opposite, Formula.holds_rel]
    have hone : choiceValues "C_out" = 1 := by simp [choiceValues]
    norm_num [Relation.negate, Comparison.negate, Relation.Holds,
      Comparison.Compares, hone]
  obtain ⟨_, htransferred, hselected⟩ :=
    true_of_encoding ExtendedRational.exact_reading hregular rfl hs hdefined hfacts
  refine ⟨hdefined, hfacts, ?_, ?_⟩
  · have hsome : ((ofKind .switch).select? choiceSite).isSome = true := by decide +kernel
    obtain ⟨q, hq⟩ := Option.isSome_iff_exists.mp hsome
    exact ⟨q, hq, (hselected q hq).2⟩
  · exact ⟨_, _, _, rfl, List.mem_cons_self, rfl,
      (htransferred 2 _ rfl _ List.mem_cons_self _ rfl).2⟩

end TransferRule
end SignalFlow
