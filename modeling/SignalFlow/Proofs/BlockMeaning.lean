import SignalFlow.Proofs.GuardPartition

/-!
# What blocks compute

A block without state computes a number from the numbers at its inputs.  `Block.Computes`
says which one, for the kinds of blocks whose parameters are finite numerals, and it says
so without terms and formulas.  Every valuation that satisfies the definitions in the
encoding of such a block gives its output the number that the block computes.

**Results.**
* `Encoding.computes_gain`, `value_sum`, `computes_product`, `computes_saturation`,
  `computes_minMax`, `computes_switch`, `computes_relational`: one for each encoding.
* `Encoding.computes_of_satisfied`: encodings define what blocks compute.
-/

namespace SignalFlow

variable {R : Type} [Scalar R] {ρ : ExtendedReading R}

/-! ### Parameters -/

namespace Block

/-- A parameter is absent, empty or a finite numeral. -/
def FiniteParam (R : Type) [Scalar R] (b : Block) (key : String) : Prop :=
  ∀ text, b.param? key = some text →
    text = "" ∨ (text ≠ "[]" ∧ ∃ a : R, Scalar.read? text = some a ∧
      Scalar.isFinite a = true)

/-- A parameter that may be a finite numeral is understood alike as a number and as a
term. -/
theorem FiniteParam.exists_value {b : Block} {key : String} (h : b.FiniteParam R key) :
    ∃ value : Option R, b.paramTerm? key = value.map .num ∧
      (∀ fallback, b.scalarOr? key fallback = some (value.getD fallback)) ∧
        ∀ a ∈ value, Scalar.isFinite a = true := by
  unfold scalarOr? paramTerm?
  cases htext : b.param? key with
  | none => exact ⟨none, by simp⟩
  | some text =>
      by_cases hempty : text = ""
      · exact ⟨none, by simp [hempty]⟩
      · obtain ⟨hbrackets, a, ha, hfinite⟩ := (h text htext).resolve_left hempty
        exact ⟨some a, by simp [hempty, hbrackets, ha, hfinite]⟩

/-- A finite value, or else a defined one, is defined. -/
theorem defined_getD {value : Option R} (hvalue : ∀ a ∈ value, Scalar.isFinite a = true)
    {fallback : R} (hfallback : Scalar.Defined fallback) :
    Scalar.Defined (value.getD fallback) := by
  cases value with
  | none => exact hfallback
  | some a => exact ExtendedReading.defined_of_isFinite (hvalue a rfl)

theorem length_invertedBy (b : Block) (plain inverse : Char) (spec : String) :
    (b.invertedBy plain inverse spec).length = max b.inputs 1 := by
  unfold invertedBy
  dsimp only
  split
  · simp
  · next h =>
      simp only [Bool.or_eq_true, not_or, bne_iff_ne, ne_eq, not_not] at h
      rw [List.length_map]
      exact h.1.2

/-- The condition of a switch compares the control input with a finite threshold. -/
theorem switchGuard_eq (b : Block) (h : b.FiniteParam R "Threshold")
    (hzero : Scalar.isFinite (0 : R) = true) :
    ∃ (op : Comparison) (c : R), Scalar.isFinite c = true ∧
      ∀ control : Term R, b.switchGuard control = .compare control op (.num c) := by
  obtain ⟨c, hc, hthreshold⟩ : ∃ c : R, Scalar.isFinite c = true ∧
      (b.paramTerm? "Threshold").getD (.num 0) = .num c := by
    obtain ⟨value, hterm, _, hfinite⟩ := h.exists_value
    rw [hterm]
    cases value with
    | none => exact ⟨0, hzero, rfl⟩
    | some a => exact ⟨a, hfinite a rfl, rfl⟩
  unfold switchGuard
  simp only [hthreshold]
  split
  · exact ⟨.ne, 0, hzero, fun _ => rfl⟩
  · split
    · exact ⟨.ge, c, hc, fun _ => rfl⟩
    · split
      · exact ⟨.gt, c, hc, fun _ => rfl⟩
      · exact ⟨.ge, c, hc, fun _ => rfl⟩

/-- The parameters of a block without state are finite, limits are in order, and nothing is
divided by. -/
def Regular (R : Type) [Scalar R] (b : Block) : BlockKind → Prop
  | .gain => b.FiniteParam R "Gain"
  | .sum => True
  | .add => True
  | .subtract => True
  | .product => ∀ divisor ∈ b.divisors, divisor = false
  | .saturation => b.FiniteParam R "LowerLimit" ∧ b.FiniteParam R "UpperLimit" ∧
      ∀ lo hi : R, b.scalarOr? "LowerLimit" (-Scalar.infinity) = some lo →
        b.scalarOr? "UpperLimit" Scalar.infinity = some hi → lo ≤ hi
  | .minMax => True
  | .switch => b.FiniteParam R "Threshold"
  | .relationalOperator => True
  | _ => False

/-! ### Computed values -/

/-- The sum of the values from `pin` on, those subtracted that are marked. -/
def signedSum (u : Nat → ℝ) (pin : Nat) : List Bool → ℝ
  | [] => 0
  | subtracted :: rest =>
      (if subtracted then -u pin else u pin) + signedSum u (pin + 1) rest

/-- The product of as many values from `pin` on as there are marks. -/
def plainProduct (u : Nat → ℝ) (pin : Nat) : List Bool → ℝ
  | [] => 1
  | _ :: rest => u pin * plainProduct u (pin + 1) rest

/-- The value is one of the first `n`, and the greatest or the least of them. -/
def IsExtremum (maximum : Bool) (n : Nat) (u : Nat → ℝ) (y : ℝ) : Prop :=
  (∃ i < n, y = u i) ∧ ∀ i < n, if maximum then u i ≤ y else y ≤ u i

/-- From the values `u` at its inputs the block computes `y`.  A product has no
divisors. -/
def Computes (hρ : ρ.Exact) (b : Block) (k : BlockKind) (u : Nat → ℝ) (y : ℝ) : Prop :=
  match k with
  | .gain => ∀ g : R, b.scalarOr? "Gain" 1 = some g → y = u 0 * hρ.real.lit g
  | .sum => y = signedSum u 0 b.subtracted
  | .add => y = signedSum u 0 b.subtracted
  | .subtract => y = signedSum u 0 b.subtracted
  | .product => y = plainProduct u 0 b.divisors
  | .saturation => ∀ lo hi : R, b.scalarOr? "LowerLimit" (-Scalar.infinity) = some lo →
      b.scalarOr? "UpperLimit" Scalar.infinity = some hi →
        (y : EReal) = min (max (u 0 : EReal) (ρ.lit lo)) (ρ.lit hi)
  | .minMax => IsExtremum b.takesMaximum (max b.inputs 1) u y
  | .switch => ∀ (op : Comparison) (c : R),
      (∀ control : Term R, b.switchGuard control = .compare control op (.num c)) →
        (op.Compares (u 1) (hρ.real.lit c) → y = u 0) ∧
        (¬op.Compares (u 1) (hρ.real.lit c) → y = u 2)
  | .relationalOperator => y = 0 ∨ y = 1
  | _ => False

end Block

/-! ### Encodings -/

namespace Encoding

variable (hρ : ρ.Exact) {d : Diagram} {b : Block} {v : Valuation ℝ}

/-- The value at an input. -/
noncomputable def operand (v : Valuation ℝ) (d : Diagram) (b : Block) (pin : Nat) : ℝ :=
  v ((d.inputVar? b.id pin).getD (b.varBase ++ "_in" ++ toString (pin + 1)))

@[simp] theorem eval_input (pin : Nat) :
    (input d b pin : Term R).eval hρ.real v = operand v d b pin := by
  unfold input operand
  cases d.inputVar? b.id pin <;> simp

omit [Scalar R] in
theorem inputs_eq_range' :
    (inputs d b : List (Term R)) = (List.range' 0 (max b.inputs 1)).map (input d b) := by
  rw [inputs, List.range_eq_range']

theorem satisfied_value_iff {t : Term R} :
    (∀ e ∈ (value b t).definitions, e.Satisfied hρ.real v) ↔
      v (b.outputVar 0) = t.eval hρ.real v := by
  simp [value, define, Definition.Satisfied]

theorem satisfied_byCases_iff {cs : List (Formula R × Term R)} :
    (∀ e ∈ (byCases b cs).definitions, e.Satisfied hρ.real v) ↔
      ∀ c ∈ cs, c.1.Holds hρ.real v → v (b.outputVar 0) = c.2.eval hρ.real v := by
  simp [byCases, define, Definition.Satisfied]

theorem computes_gain (hgain : b.FiniteParam R "Gain")
    (h : ∀ e ∈ (gain d b : Encoding R).definitions, e.Satisfied hρ.real v) :
    b.Computes hρ .gain (operand v d b) (v (b.outputVar 0)) := by
  rw [gain, satisfied_value_iff, Term.eval_times, eval_input] at h
  intro g hg
  obtain ⟨value, hterm, hscalar, _⟩ := hgain.exists_value
  obtain rfl := Option.some.inj ((hscalar 1).symm.trans hg)
  rw [h, hterm]
  cases value <;> simp [mul_comm]

theorem sum_zipWith_inputs (signs : List Bool) (pin : Nat) :
    ((List.zipWith (fun subtracted t => if subtracted then t.negate else t) signs
      ((List.range' pin signs.length).map (input d b : Nat → Term R))).map
        (Term.eval hρ.real v)).sum =
      Block.signedSum (operand v d b) pin signs := by
  induction signs generalizing pin with
  | nil => rfl
  | cons subtracted signs ih =>
      have hnegate : (input d b pin : Term R).negate.eval hρ.real v =
          -operand v d b pin := by
        rw [eval_negate_input, eval_input]
      simp only [List.length_cons, List.range'_succ, List.map_cons, List.zipWith_cons_cons,
        List.sum_cons, ih, Block.signedSum]
      cases subtracted <;> simp [hnegate]

theorem value_sum (h : ∀ e ∈ (sum d b : Encoding R).definitions, e.Satisfied hρ.real v) :
    v (b.outputVar 0) = Block.signedSum (operand v d b) 0 b.subtracted := by
  have hlength : b.subtracted.length = max b.inputs 1 := b.length_invertedBy _ _ _
  rw [sum, satisfied_value_iff, Term.eval_sum, inputs_eq_range', ← hlength,
    sum_zipWith_inputs] at h
  exact h

theorem prod_zip_inputs {ops : List Bool} (hops : ∀ divisor ∈ ops, divisor = false)
    (pin : Nat) :
    let operands :=
      List.zip ops ((List.range' pin ops.length).map (input d b : Nat → Term R))
    (operands.filter fun o => o.1) = [] ∧
      (((operands.filter fun o => !o.1).map Prod.snd).map (Term.eval hρ.real v)).prod =
        Block.plainProduct (operand v d b) pin ops := by
  induction ops generalizing pin with
  | nil => exact ⟨rfl, rfl⟩
  | cons divisor ops ih =>
      rw [List.forall_mem_cons] at hops
      obtain ⟨rfl, hops⟩ := hops
      obtain ⟨hnone, hproduct⟩ := ih hops (pin + 1)
      simp only [List.length_cons, List.range'_succ, List.map_cons, List.zip_cons_cons]
      refine ⟨by simpa using hnone, ?_⟩
      simp only [Bool.not_false, List.filter_cons_of_pos, List.map_cons, List.prod_cons,
        hproduct, eval_input, Block.plainProduct]

theorem computes_product (hops : ∀ divisor ∈ b.divisors, divisor = false)
    (h : ∀ e ∈ (product d b : Encoding R).definitions, e.Satisfied hρ.real v) :
    b.Computes hρ .product (operand v d b) (v (b.outputVar 0)) := by
  have hlength : b.divisors.length = max b.inputs 1 := b.length_invertedBy _ _ _
  obtain ⟨hnone, hproduct⟩ := prod_zip_inputs hρ (d := d) (b := b) (v := v) hops 0
  rw [product, satisfied_value_iff, inputs_eq_range', ← hlength, hnone, List.map_nil,
    List.foldl_nil, Term.eval_product, hproduct] at h
  exact h

/-- The output of a saturation, limit by limit. -/
theorem value_saturation {lower upper : Option R}
    (hlower : b.paramTerm? "LowerLimit" = lower.map Term.num)
    (hupper : b.paramTerm? "UpperLimit" = upper.map Term.num)
    (h : ∀ e ∈ (saturation d b : Encoding R).definitions, e.Satisfied hρ.real v) :
    (∀ hi ∈ upper, hρ.real.lit hi < operand v d b 0 → v (b.outputVar 0) = hρ.real.lit hi) ∧
      (∀ lo ∈ lower, operand v d b 0 < hρ.real.lit lo →
        v (b.outputVar 0) = hρ.real.lit lo) ∧
      ((∀ hi ∈ upper, operand v d b 0 ≤ hρ.real.lit hi) →
        (∀ lo ∈ lower, hρ.real.lit lo ≤ operand v d b 0) →
        v (b.outputVar 0) = operand v d b 0) := by
  simp only [saturation, hlower, hupper] at h
  split at h
  · next hnone =>
      rw [satisfied_value_iff, eval_input] at h
      cases lower <;> cases upper <;> simp_all
  · rw [satisfied_byCases_iff] at h
    refine ⟨fun hi hhi hlt => ?_, fun lo hlo hlt => ?_, fun hbelow habove => ?_⟩
    · have hcase := h (.compare (input d b 0) .gt (.num hi), .num hi)
        (by simp [Option.mem_def.mp hhi])
      simpa [holds_compare_iff, Comparison.Compares, hlt] using hcase
    · have hcase := h (.compare (input d b 0) .lt (.num lo), .num lo)
        (by simp [Option.mem_def.mp hlo])
      simpa [holds_compare_iff, Comparison.Compares, hlt] using hcase
    · have hcase :=
        h (_, input d b 0) (List.mem_append_right _ (List.mem_singleton_self _))
      rw [eval_input] at hcase
      apply hcase
      simpa [or_imp, forall_and, holds_compare_iff, Comparison.Compares]
        using ⟨hbelow, habove⟩

theorem computes_saturation (hregular : b.Regular R .saturation)
    (h : ∀ e ∈ (saturation d b : Encoding R).definitions, e.Satisfied hρ.real v) :
    b.Computes hρ .saturation (operand v d b) (v (b.outputVar 0)) := by
  obtain ⟨hlower, hupper, hordered⟩ := hregular
  intro lo hi hlo hhi
  have hle := hordered lo hi hlo hhi
  obtain ⟨lower, hloterm, hloscalar, hlofinite⟩ := hlower.exists_value
  obtain ⟨upper, hhiterm, hhiscalar, hhifinite⟩ := hupper.exists_value
  obtain ⟨habove, hbelow, hinside⟩ := value_saturation hρ hloterm hhiterm h
  obtain rfl := Option.some.inj ((hloscalar _).symm.trans hlo)
  obtain rfl := Option.some.inj ((hhiscalar _).symm.trans hhi)
  -- A limit that is absent is infinite, and cuts off nothing.
  have hlowerlit : ρ.lit (lower.getD (-Scalar.infinity)) = ⊥ ∧ lower = none ∨
      ∃ lo ∈ lower, ρ.lit (lower.getD (-Scalar.infinity)) = hρ.real.lit lo := by
    cases lower with
    | none => exact Or.inl ⟨ρ.lit_neg_infinity, rfl⟩
    | some lo => exact Or.inr ⟨lo, rfl, (hρ.coe_lit_real (hlofinite lo rfl)).symm⟩
  have hupperlit : ρ.lit (upper.getD Scalar.infinity) = ⊤ ∧ upper = none ∨
      ∃ hi ∈ upper, ρ.lit (upper.getD Scalar.infinity) = hρ.real.lit hi := by
    cases upper with
    | none => exact Or.inl ⟨ρ.lit_infinity, rfl⟩
    | some hi => exact Or.inr ⟨hi, rfl, (hρ.coe_lit_real (hhifinite hi rfl)).symm⟩
  have hordered' : ρ.lit (lower.getD (-Scalar.infinity)) ≤ ρ.lit
      (upper.getD Scalar.infinity) :=
    (ρ.le_iff (Block.defined_getD hlofinite ρ.defined_neg_infinity)
      (Block.defined_getD hhifinite ρ.defined_infinity)).mp hle
  by_cases hover : ρ.lit (upper.getD Scalar.infinity) < operand v d b 0
  · rw [min_eq_right (le_max_of_le_left hover.le)]
    rcases hupperlit with ⟨htop, _⟩ | ⟨hi, hhi, hlit⟩
    · rw [htop] at hover
      exact absurd hover not_top_lt
    · rw [hlit, EReal.coe_lt_coe_iff] at hover
      rw [hlit, habove hi hhi hover]
  · by_cases hunder : (operand v d b 0 : EReal) < ρ.lit (lower.getD (-Scalar.infinity))
    · rw [max_eq_right hunder.le, min_eq_left hordered']
      rcases hlowerlit with ⟨hbot, _⟩ | ⟨lo, hlo, hlit⟩
      · rw [hbot] at hunder
        exact absurd hunder not_lt_bot
      · rw [hlit, EReal.coe_lt_coe_iff] at hunder
        rw [hlit, hbelow lo hlo hunder]
    · rw [not_lt] at hover hunder
      rw [max_eq_left hunder, min_eq_left hover, hinside]
      · intro hi hhi
        rcases hupperlit with ⟨_, hnone⟩ | ⟨hi', hhi', hlit⟩
        · simp [hnone] at hhi
        · obtain rfl := Option.mem_unique hhi' hhi
          rwa [hlit, EReal.coe_le_coe_iff] at hover
      · intro lo hlo
        rcases hlowerlit with ⟨_, hnone⟩ | ⟨lo', hlo', hlit⟩
        · simp [hnone] at hlo
        · obtain rfl := Option.mem_unique hlo' hlo
          rwa [hlit, EReal.coe_le_coe_iff] at hunder

/-- An output that fits all cases has the value that is selected. -/
theorem value_of_selected {cs : List (Formula R × Term R)} {y : ℝ}
    (h : ∀ c ∈ cs, c.1.Holds hρ.real v → v (b.outputVar 0) = c.2.eval hρ.real v)
    (hy : selected hρ.real v cs = [y]) : v (b.outputVar 0) = y := by
  have hmem : y ∈ selected hρ.real v cs := hy ▸ List.mem_singleton_self y
  obtain ⟨c, hc, rfl⟩ := List.mem_map.mp hmem
  obtain ⟨hcase, hguard⟩ := List.mem_filter.mp hc
  exact h c hcase (of_decide_eq_true hguard)

theorem computes_minMax
    (h : ∀ e ∈ (minMax d b : Encoding R).definitions, e.Satisfied hρ.real v) :
    b.Computes hρ .minMax (operand v d b) (v (b.outputVar 0)) := by
  by_cases hmany : 2 ≤ b.inputs
  · rw [minMax_eq hmany, satisfied_byCases_iff] at h
    obtain ⟨y, hselected, hextreme⟩ :=
      selected_minMax hρ.real v (Nat.zero_lt_of_lt hmany) b.takesMaximum (input d b)
    have hvalue := value_of_selected hρ h hselected
    have hcount : max b.inputs 1 = b.inputs := max_eq_left (by omega)
    simp only [eval_input] at hextreme
    rw [Block.Computes, hcount, hvalue]
    cases hmaximum : b.takesMaximum with
    | true =>
        obtain ⟨⟨i, hi, rfl⟩, hgreatest⟩ := (if_pos hmaximum).mp hextreme
        exact ⟨⟨i, hi, rfl⟩, fun j hj => hgreatest ⟨j, hj, rfl⟩⟩
    | false =>
        obtain ⟨⟨i, hi, rfl⟩, hleast⟩ := (if_neg (by simp [hmaximum])).mp hextreme
        exact ⟨⟨i, hi, rfl⟩, fun j hj => hleast ⟨j, hj, rfl⟩⟩
  · -- A single input is passed on.
    have hone : max b.inputs 1 = 1 := by omega
    have hsingle : (minMax d b : Encoding R) = value b (input d b 0) := by
      simp [minMax, inputs, hone]
    rw [hsingle, satisfied_value_iff, eval_input] at h
    rw [Block.Computes, hone, h]
    refine ⟨⟨0, Nat.zero_lt_one, rfl⟩, fun i hi => ?_⟩
    obtain rfl : i = 0 := Nat.lt_one_iff.mp hi
    split <;> exact le_rfl

/-- A guard selects between two terms. -/
theorem value_byGuard {r : Relation R} {t t' : Term R}
    (h : ∀ e ∈ (byGuard b (.rel r) t t').definitions, e.Satisfied hρ.real v) :
    (r.Holds hρ.real v → v (b.outputVar 0) = t.eval hρ.real v) ∧
      (¬r.Holds hρ.real v → v (b.outputVar 0) = t'.eval hρ.real v) := by
  rw [byGuard, satisfied_byCases_iff, List.forall_mem_cons, List.forall_mem_singleton] at h
  refine ⟨fun hr => h.1 (by simpa using hr), fun hr => h.2 ?_⟩
  rw [opposite, Formula.holds_rel]
  exact (Comparison.compares_negate _ _ _).mpr hr

theorem computes_switch
    (h : ∀ e ∈ (switch d b : Encoding R).definitions, e.Satisfied hρ.real v) :
    b.Computes hρ .switch (operand v d b) (v (b.outputVar 0)) := by
  intro op c hguard
  rw [switch, hguard] at h
  obtain ⟨htrue, hfalse⟩ := value_byGuard hρ h
  simp only [Relation.Holds, eval_input, Term.eval_num] at htrue hfalse
  exact ⟨htrue, hfalse⟩

theorem computes_relational
    (h : ∀ e ∈ (relational d b : Encoding R).definitions, e.Satisfied hρ.real v) :
    b.Computes hρ .relationalOperator (operand v d b) (v (b.outputVar 0)) := by
  obtain ⟨htrue, hfalse⟩ := value_byGuard hρ h
  simp only [Term.eval_num, hρ.real.lit_zero, hρ.real.lit_one] at htrue hfalse
  exact (em _).elim (fun hr => Or.inr (htrue hr)) fun hr => Or.inl (hfalse hr)

/-- Encodings define what blocks compute. -/
theorem computes_of_satisfied {k : BlockKind} (hregular : b.Regular R k)
    (h : ∀ e ∈ (ofBlock d b k : Encoding R).definitions, e.Satisfied hρ.real v) :
    b.Computes hρ k (operand v d b) (v (b.outputVar 0)) := by
  cases k with
  | gain => exact computes_gain hρ hregular h
  | sum => exact value_sum hρ h
  | add => exact value_sum hρ h
  | subtract => exact value_sum hρ h
  | product => exact computes_product hρ hregular h
  | saturation => exact computes_saturation hρ hregular h
  | minMax => exact computes_minMax hρ h
  | switch => exact computes_switch hρ h
  | relationalOperator => exact computes_relational hρ h
  | _ => exact hregular.elim

end Encoding
end SignalFlow
