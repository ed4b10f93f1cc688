import SignalFlow.Diagram.Twins
import SignalFlow.Proofs.DivisorCoverage
import SignalFlow.Proofs.Renaming
import SignalFlow.Proofs.VariableNames

/-!
# Twins are encoded alike

Outputs of twins are said to be equal: blocks of the same type and parameters that are fed
by the same pins.  Only the shape of the blocks and the pins are looked at for this.
Whether the equalities are right is a matter of the encoding, which knows the identifiers
and names of blocks too.

It uses them for two things only.  The variables of outputs are named after the block, and
the variable at an input is looked up by the identifier.  Where this finds the same
variables for both, the twins are encoded alike up to the names of their outputs.  What
else is read are parameters, and elements of the vector at an input.

**Results.**
* `Diagram.areTwins_iff`, `Diagram.mem_twinEqualities_iff`: which equalities are stated.
* `Encoding.over_definitions`: the names in the definitions of a block.
* `Encoding.definitions_relabel`, `Encoding.fragment_relabel`: the same block with another
  identifier and name.
* `Diagram.twins_encoded_alike`: twins are encoded alike up to the names of their outputs.
-/

namespace SignalFlow

/-! ### Which equalities are stated -/

namespace Diagram

/-- Two blocks differ at most in identifier and name, have inputs and outputs, and are fed
by the same pins. -/
structure Twins (d : Diagram) (a b : Block) : Prop where
  type : a.type = b.type
  params : a.params = b.params
  inputs : a.inputs = b.inputs
  outputs : a.outputs = b.outputs
  inputs_pos : 0 < a.inputs
  outputs_pos : 0 < a.outputs
  sources : ∀ pin < a.inputs, ∃ s t, d.incoming? a.id pin = some s ∧
    d.incoming? b.id pin = some t ∧
    s.source = t.source

variable {d : Diagram} {a b : Block}

theorem sourcesFrom?_succ_eq_some_iff {i : BlockId} {pin count : Nat} {pins : List Pin} :
    d.sourcesFrom? i pin (count + 1) = some pins ↔
      ∃ s rest, d.incoming? i pin = some s ∧ d.sourcesFrom? i (pin + 1) count = some rest ∧
        s.source :: rest = pins := by
  rw [sourcesFrom?]
  cases d.incoming? i pin with
  | none => simp
  | some s => simp

/-- The lists of sources exist and agree if all single sources do. -/
theorem exists_sourcesFrom?_iff (d : Diagram) (i j : BlockId) (pin count : Nat) :
    (∃ pins, d.sourcesFrom? i pin count = some pins ∧
      d.sourcesFrom? j pin count = some pins) ↔
      ∀ k < count, ∃ s t, d.incoming? i (pin + k) = some s ∧
        d.incoming? j (pin + k) = some t ∧
        s.source = t.source := by
  induction count generalizing pin with
  | zero => simp [sourcesFrom?]
  | succ count ih =>
      simp only [sourcesFrom?_succ_eq_some_iff]
      constructor
      · rintro ⟨pins, ⟨s, rest, hs, hrest, rfl⟩, t, rest', ht, hrest', heq⟩ k hk
        obtain ⟨hsource, rfl⟩ := List.cons.inj heq
        cases k with
        | zero => exact ⟨s, t, hs, ht, hsource.symm⟩
        | succ k =>
            have hnext :=
              (ih (pin + 1)).mp ⟨rest', hrest, hrest'⟩ k (Nat.lt_of_succ_lt_succ hk)
            rwa [Nat.add_right_comm] at hnext
      · intro h
        obtain ⟨s, t, hs, ht, hsource⟩ := h 0 (Nat.succ_pos count)
        obtain ⟨rest, hrest, hrest'⟩ := (ih (pin + 1)).mpr fun k hk => by
          have hnext := h (k + 1) (Nat.succ_lt_succ hk)
          rwa [← Nat.add_assoc, Nat.add_right_comm] at hnext
        exact ⟨s.source :: rest, ⟨s, rest, hs, hrest, rfl⟩, t, rest, ht,
          hrest', by rw [hsource]⟩

theorem exists_sources?_iff (hinputs : a.inputs = b.inputs) :
    (∃ pins, d.sources? a = some pins ∧ d.sources? b = some pins) ↔
      ∀ pin < a.inputs, ∃ s t, d.incoming? a.id pin = some s ∧
        d.incoming? b.id pin = some t ∧
        s.source = t.source := by
  have hfrom := d.exists_sourcesFrom?_iff a.id b.id 0 a.inputs
  simp only [Nat.zero_add] at hfrom
  unfold sources?
  rw [← hinputs]
  exact hfrom

theorem areTwins_iff : d.areTwins a b = true ↔ d.Twins a b := by
  unfold areTwins sameShape
  simp only [Bool.and_eq_true, bne_iff_ne, beq_iff_eq]
  constructor
  · rintro ⟨⟨⟨hin, hout⟩, ⟨⟨htype, hparams⟩, hinputs⟩, houtputs⟩, hpins⟩
    refine ⟨htype, hparams, hinputs, houtputs, Nat.pos_of_ne_zero hin,
      Nat.pos_of_ne_zero hout, ?_⟩
    split at hpins
    · next pins ha => exact (exists_sources?_iff hinputs).mp ⟨pins, ha, eq_of_beq hpins⟩
    · cases hpins
  · intro h
    obtain ⟨pins, ha, hb⟩ := (exists_sources?_iff h.inputs).mpr h.sources
    refine ⟨⟨⟨h.inputs_pos.ne', h.outputs_pos.ne'⟩, ⟨⟨h.type, h.params⟩, h.inputs⟩,
      h.outputs⟩, ?_⟩
    rw [ha, hb]
    exact beq_self_eq_true (some pins)

theorem mem_outputEqualities_iff {R : Type} {r : Relation R} :
    r ∈ outputEqualities a b ↔
      ∃ k < a.outputs, r = ⟨.var (a.outputVar k), .eq, .var (b.outputVar k)⟩ := by
  simp [outputEqualities, eq_comm]

/-- The equalities in a list of blocks are those of all pairs of twins in it. -/
theorem mem_twinEqualities_iff {R : Type} {r : Relation R} {bs : List Block} :
    r ∈ d.twinEqualities bs ↔
      ∃ a b, [a, b].Sublist bs ∧ d.Twins a b ∧
        ∃ k < a.outputs, r = ⟨.var (a.outputVar k), .eq, .var (b.outputVar k)⟩ := by
  induction bs with
  | nil => simp [twinEqualities]
  | cons c bs ih =>
      simp only [twinEqualities, List.mem_append, ih, List.mem_flatMap, List.mem_filter,
        areTwins_iff, mem_outputEqualities_iff]
      constructor
      · rintro (⟨b, ⟨hb, htwins⟩, hr⟩ | ⟨a, b, hsub, htwins, hr⟩)
        · exact ⟨c, b, (List.singleton_sublist.mpr hb).cons_cons c, htwins, hr⟩
        · exact ⟨a, b, hsub.cons c, htwins, hr⟩
      · rintro ⟨a, b, hsub, htwins, hr⟩
        rcases List.sublist_cons_iff.mp hsub with hsub | ⟨rest, hcons, hsub⟩
        · exact .inr ⟨a, b, hsub, htwins, hr⟩
        · obtain ⟨rfl, rfl⟩ := List.cons.inj hcons
          exact .inl ⟨b, ⟨List.singleton_sublist.mp hsub, htwins⟩, hr⟩

end Diagram

/-! ### Names in an encoding -/

/-- All parameter texts of a block have a property. -/
def Block.ParamsOver (P : String → Prop) (b : Block) : Prop :=
  ∀ key text, b.param? key = some text → P text

/-- The number of inputs that the encoding of a block reads. -/
def Block.pinsRead (b : Block) : BlockKind → Nat
  | .inport => 0
  | .constant => 0
  | .terminator => 0
  | .sum => max b.inputs 1
  | .add => max b.inputs 1
  | .subtract => max b.inputs 1
  | .product => max b.inputs 1
  | .divide => max b.inputs 1
  | .minMax => max b.inputs 1
  | .mux => max b.inputs 1
  | .relationalOperator => 2
  | .switch => 3
  | _ => 1

/-- The block has a state between steps. -/
def BlockKind.keepsState : BlockKind → Bool
  | .unitDelay => true
  | .memory => true
  | .integrator => true
  | .discreteIntegrator => true
  | _ => false

namespace Encoding

section Sources

variable {R : Type} [Scalar R] {P : String → Prop} {d : Diagram} {b : Block}

theorem over_paramTerm? (hparam : b.ParamsOver P) {key : String} {t : Term R}
    (h : b.paramTerm? key = some t) : t.Over P := by
  unfold Block.paramTerm? at h
  split at h
  · cases h
  · next text htext =>
      split at h
      · cases h
      · split at h
        · cases h
          exact Term.over_num _
        · cases h
          exact Term.over_var (hparam key text htext)

theorem over_paramTerm?_getD (hparam : b.ParamsOver P) (key : String) (a : R) :
    ((b.paramTerm? key).getD (.num a)).Over P := by
  cases h : (b.paramTerm? key : Option (Term R)) with
  | none => exact Term.over_num a
  | some t => exact over_paramTerm? hparam h

omit [Scalar R] in
theorem over_input {pin : Nat} (h : P (inputName d b pin)) :
    (input d b pin : Term R).Over P := by
  rw [input_eq]
  exact Term.over_var h

omit [Scalar R] in
theorem over_inputs (h : ∀ pin < max b.inputs 1, P (inputName d b pin)) :
    ∀ t ∈ (inputs d b : List (Term R)), t.Over P := by
  intro t ht
  obtain ⟨pin, hpin, rfl⟩ := List.mem_map.mp ht
  exact over_input (h pin (List.mem_range.mp hpin))

omit [Scalar R] in
theorem over_value {t : Term R} (h : t.Over P) : ∀ e ∈ (value b t).definitions, e.Over P :=
  List.forall_mem_singleton.mpr h

omit [Scalar R] in
theorem over_byCases {cs : List (Formula R × Term R)}
    (h : ∀ c ∈ cs, c.1.Over P ∧ c.2.Over P) : ∀ e ∈ (byCases b cs).definitions, e.Over P :=
  List.forall_mem_singleton.mpr (Definition.over_cases h)

omit [Scalar R] in
theorem over_byGuard {guard : Formula R} {t u : Term R} (hguard : guard.Over P)
    (ht : t.Over P) (hu : u.Over P) : ∀ e ∈ (byGuard b guard t u).definitions, e.Over P :=
  over_byCases (by simp [hguard, hguard.opposite, ht, hu])

theorem over_switchGuard (hparam : b.ParamsOver P) {control : Term R}
    (h : control.Over P) : (b.switchGuard control).Over P := by
  have hthreshold := over_paramTerm?_getD (R := R) hparam "Threshold" 0
  unfold Block.switchGuard
  simp only []
  split
  · exact Formula.over_compare h (Term.over_num 0) _
  · split
    · exact Formula.over_compare h hthreshold _
    · split
      · exact Formula.over_compare h hthreshold _
      · exact Formula.over_compare h hthreshold _

theorem over_sum (h : ∀ pin < max b.inputs 1, P (inputName d b pin)) :
    ∀ e ∈ (sum d b : Encoding R).definitions, e.Over P := by
  refine over_value (Term.over_sum fun t ht => ?_)
  obtain ⟨i, hi⟩ := List.mem_iff_getElem?.mp ht
  obtain ⟨subtracted, u, _, hu, rfl⟩ := List.getElem?_zipWith_eq_some.mp hi
  have hover := over_inputs h u (List.mem_of_getElem? hu)
  split
  · exact hover.negate
  · exact hover

theorem over_product (h : ∀ pin < max b.inputs 1, P (inputName d b pin)) :
    ∀ e ∈ (product d b : Encoding R).definitions, e.Over P := by
  have hoperand : ∀ o ∈ List.zip b.divisors (inputs d b : List (Term R)),
      o.2.Over P := fun o ho =>
    over_inputs h o.2 (List.of_mem_zip ho).2
  refine over_value (Term.Over.foldl_div (Term.over_product fun t ht => ?_) fun u hu => ?_)
  · obtain ⟨o, ho, rfl⟩ := List.mem_map.mp ht
    exact hoperand o (List.mem_of_mem_filter ho)
  · obtain ⟨o, ho, rfl⟩ := List.mem_map.mp hu
    exact hoperand o (List.mem_of_mem_filter ho)

theorem over_saturation (hin : P (inputName d b 0)) (hparam : b.ParamsOver P) :
    ∀ e ∈ (saturation d b : Encoding R).definitions, e.Over P := by
  have hu : (input d b 0 : Term R).Over P := over_input hin
  have hlimit : ∀ key, ∀ t ∈ (b.paramTerm? key : Option (Term R)).toList,
      t.Over P := fun key t ht =>
    over_paramTerm? hparam (Option.mem_toList.mp ht)
  unfold saturation
  simp only []
  split
  · exact over_value hu
  · refine over_byCases ?_
    simp only [List.forall_mem_append, List.forall_mem_map, List.forall_mem_singleton]
    refine ⟨⟨fun t ht => ?_, fun t ht => ?_⟩, ?_, hu⟩
    · exact ⟨Formula.over_compare hu (hlimit _ t ht) _, hlimit _ t ht⟩
    · exact ⟨Formula.over_compare hu (hlimit _ t ht) _, hlimit _ t ht⟩
    · refine Formula.over_conj (List.forall_mem_append.mpr ⟨?_, ?_⟩)
      · exact List.forall_mem_map.mpr fun t ht => Formula.over_compare hu (hlimit _ t ht) _
      · exact List.forall_mem_map.mpr fun t ht => Formula.over_compare hu (hlimit _ t ht) _

theorem over_minMax (h : ∀ pin < max b.inputs 1, P (inputName d b pin)) :
    ∀ e ∈ (minMax d b : Encoding R).definitions, e.Over P := by
  have hinputs := over_inputs (R := R) h
  unfold minMax
  split
  · next u hu =>
      rw [hu] at hinputs
      exact over_value (hinputs u (List.mem_singleton_self u))
  · refine over_byCases (List.forall_mem_map.mpr fun p hp => ?_)
    have hmem : ∀ p ∈ (inputs d b : List (Term R)).zipIdx, p.1.Over P := fun p hp =>
      hinputs p.1 (List.mem_of_getElem? (List.mem_zipIdx_iff_getElem?.mp hp))
    refine ⟨Formula.over_conj (List.forall_mem_map.mpr fun q hq => ?_), hmem p hp⟩
    exact Formula.over_compare (hmem p hp) (hmem q (List.mem_of_mem_filter hq)) _

/-- **Names in the definitions of a block.**  Terms and guards name variables at the inputs
that are read, parameters, and elements of vectors. -/
theorem over_definitions {k : BlockKind}
    (hin : ∀ pin < b.pinsRead k, P (inputName d b pin)) (hparam : b.ParamsOver P)
    (helement : ∀ x i, P (Term.elementName x i)) :
    ∀ e ∈ (ofBlock d b k : Encoding R).definitions, e.Over P := by
  cases k with
  | inport => exact fun _ he => nomatch he
  | constant => exact over_value (over_paramTerm?_getD hparam _ _)
  | gain =>
      exact over_value ((over_paramTerm?_getD hparam _ _).times
        (over_input (hin 0 Nat.one_pos)))
  | sum => exact over_sum hin
  | add => exact over_sum hin
  | subtract => exact over_sum hin
  | product => exact over_product hin
  | divide => exact over_product hin
  | abs =>
      have hu : (input d b 0 : Term R).Over P := over_input (hin 0 Nat.one_pos)
      refine over_byCases ?_
      simp [hu, hu.negate, Formula.over_compare hu (Term.over_num 0)]
  | saturation => exact over_saturation (hin 0 Nat.one_pos) hparam
  | minMax => exact over_minMax hin
  | unitDelay => exact fun _ he => nomatch he
  | memory => exact fun _ he => nomatch he
  | zeroOrderHold => exact over_value (over_input (hin 0 Nat.one_pos))
  | integrator => exact fun _ he => nomatch he
  | discreteIntegrator => exact fun _ he => nomatch he
  | switch =>
      have hinput : ∀ pin < 3, (input d b pin : Term R).Over P := fun pin hpin =>
        over_input (hin pin hpin)
      exact over_byGuard (over_switchGuard hparam (hinput 1 (by decide)))
        (hinput 0 (by decide)) (hinput 2 (by decide))
  | relationalOperator =>
      have hinput : ∀ pin < 2, (input d b pin : Term R).Over P := fun pin hpin =>
        over_input (hin pin hpin)
      exact over_byGuard (Formula.over_compare (hinput 0 (by decide))
        (hinput 1 (by decide)) _) (Term.over_num 1)
        (Term.over_num 0)
  | outport => exact fun _ he => nomatch he
  | terminator => exact fun _ he => nomatch he
  | mux =>
      refine List.forall_mem_cons.mpr ⟨Definition.over_vector (over_inputs hin), ?_⟩
      exact List.forall_mem_singleton.mpr (Definition.over_width _ _)
  | demux =>
      simp only [ofBlock, demux, input_eq]
      exact List.forall_mem_map.mpr fun i _ => Term.over_var (R := R) (helement _ i)

theorem over_initialTerm (hparam : b.ParamsOver P) : (initialTerm b : Term R).Over P := by
  unfold initialTerm
  cases h : Block.initialKeys.findSome? (b.paramTerm? (R := R)) with
  | none => exact Term.over_num 0
  | some t =>
      obtain ⟨key, _, hkey⟩ := List.exists_of_findSome?_eq_some h
      exact over_paramTerm? hparam hkey

theorem over_sampleTime (hparam : b.ParamsOver P) : (sampleTime b : Term R).Over P := by
  unfold sampleTime
  split
  · exact Term.over_num 1
  · next t ht =>
      have hover := over_paramTerm? hparam ht
      split
      · split
        · exact hover
        · exact Term.over_num 1
      · exact hover

end Sources

end Encoding

/-! ### Another identifier and name -/

/-- The same block with another identifier and name. -/
def Block.relabel (b : Block) (id : BlockId) (name : String) : Block :=
  { b with id := id, name := name }

theorem Diagram.Twins.eq_relabel {d : Diagram} {a b : Block} (h : d.Twins a b) :
    b = a.relabel b.id b.name := by
  rcases a with ⟨i, n, type, inputs, outputs, params⟩
  rcases b with ⟨i', n', type', inputs', outputs', params'⟩
  obtain ⟨rfl, rfl, rfl, rfl, _, _, _⟩ := h
  rfl

namespace Encoding

section Relabeling

variable {R : Type} [Scalar R] {d : Diagram} {b : Block} {id : BlockId} {name : String}
  {σ : String → String}

omit [Scalar R] in
theorem value_relabel (h : σ (b.outputVar 0) = (b.relabel id name).outputVar 0)
    (t : Term R) :
    (value (b.relabel id name) t).definitions = (value b t).definitions.map fun e =>
      e.withName (σ e.name) := by
  simp [value, define, Definition.withName, Definition.name, h]

omit [Scalar R] in
theorem byCases_relabel (h : σ (b.outputVar 0) = (b.relabel id name).outputVar 0)
    (cs : List (Formula R × Term R)) :
    (byCases (b.relabel id name) cs).definitions = (byCases b cs).definitions.map fun e =>
      e.withName (σ e.name) := by
  simp [byCases, define, Definition.withName, Definition.name, h]

omit [Scalar R] in
theorem inputs_relabel (h : ∀ pin < max b.inputs 1,
      (input d (b.relabel id name) pin : Term R) = input d b pin) :
    (inputs d (b.relabel id name) : List (Term R)) = inputs d b :=
  List.map_congr_left fun pin hpin => h pin (List.mem_range.mp hpin)

theorem sum_relabel (h : σ (b.outputVar 0) = (b.relabel id name).outputVar 0)
    (hin : ∀ pin < max b.inputs 1,
      (input d (b.relabel id name) pin : Term R) = input d b pin) :
    (sum d (b.relabel id name) : Encoding R).definitions =
      (sum d b).definitions.map fun e => e.withName (σ e.name) := by
  unfold sum
  rw [inputs_relabel hin]
  exact value_relabel h _

theorem product_relabel (h : σ (b.outputVar 0) = (b.relabel id name).outputVar 0)
    (hin : ∀ pin < max b.inputs 1,
      (input d (b.relabel id name) pin : Term R) = input d b pin) :
    (product d (b.relabel id name) : Encoding R).definitions =
      (product d b).definitions.map fun e => e.withName (σ e.name) := by
  unfold product
  rw [inputs_relabel hin]
  exact value_relabel h _

theorem saturation_relabel (h : σ (b.outputVar 0) = (b.relabel id name).outputVar 0)
    (hin : (input d (b.relabel id name) 0 : Term R) = input d b 0) :
    (saturation d (b.relabel id name) : Encoding R).definitions =
      (saturation d b).definitions.map fun e => e.withName (σ e.name) := by
  have hlimit : ∀ key, (b.relabel id name).paramTerm? key =
    (b.paramTerm? key : Option (Term R)) := fun _ => rfl
  unfold saturation
  simp only [hin, hlimit]
  split
  · exact value_relabel h _
  · exact byCases_relabel h _

theorem minMax_relabel (h : σ (b.outputVar 0) = (b.relabel id name).outputVar 0)
    (hin : ∀ pin < max b.inputs 1,
      (input d (b.relabel id name) pin : Term R) = input d b pin) :
    (minMax d (b.relabel id name) : Encoding R).definitions =
      (minMax d b).definitions.map fun e => e.withName (σ e.name) := by
  unfold minMax
  rw [inputs_relabel hin]
  rcases (inputs d b : List (Term R)) with _ | ⟨u, _ | ⟨u', us⟩⟩
  · exact byCases_relabel h _
  · exact value_relabel h _
  · exact byCases_relabel h _

/-- **Definitions of a relabeled block.**  If the same is found at all inputs that are
read, the definitions have the same right-hand sides. -/
theorem definitions_relabel {k : BlockKind}
    (hin : ∀ pin < b.pinsRead k,
      (input d (b.relabel id name) pin : Term R) = input d b pin)
    (hout : ∀ j < max b.outputs 1, σ (b.outputVar j) = (b.relabel id name).outputVar j) :
    (ofBlock d (b.relabel id name) k : Encoding R).definitions =
      (ofBlock d b k).definitions.map fun e => e.withName (σ e.name) := by
  have hfirst : σ (b.outputVar 0) = (b.relabel id name).outputVar 0 := hout 0 (by omega)
  cases k with
  | inport => rfl
  | constant => exact value_relabel hfirst _
  | gain =>
      unfold ofBlock gain
      rw [hin 0 Nat.one_pos]
      exact value_relabel hfirst _
  | sum => exact sum_relabel hfirst hin
  | add => exact sum_relabel hfirst hin
  | subtract => exact sum_relabel hfirst hin
  | product => exact product_relabel hfirst hin
  | divide => exact product_relabel hfirst hin
  | abs =>
      unfold ofBlock abs
      rw [hin 0 Nat.one_pos]
      exact byCases_relabel hfirst _
  | saturation => exact saturation_relabel hfirst (hin 0 Nat.one_pos)
  | minMax => exact minMax_relabel hfirst hin
  | unitDelay => rfl
  | memory => rfl
  | zeroOrderHold =>
      unfold ofBlock
      rw [hin 0 Nat.one_pos]
      exact value_relabel hfirst _
  | integrator => rfl
  | discreteIntegrator => rfl
  | switch =>
      have hinput : ∀ pin < 3,
        (input d (b.relabel id name) pin : Term R) = input d b pin := hin
      unfold ofBlock switch
      rw [hinput 0 (by decide), hinput 1 (by decide), hinput 2 (by decide)]
      exact byCases_relabel hfirst _
  | relationalOperator =>
      have hinput : ∀ pin < 2,
        (input d (b.relabel id name) pin : Term R) = input d b pin := hin
      unfold ofBlock relational
      rw [hinput 0 (by decide), hinput 1 (by decide)]
      exact byCases_relabel hfirst _
  | outport => rfl
  | terminator => rfl
  | mux =>
      unfold ofBlock mux
      rw [inputs_relabel hin]
      simp [Definition.withName, Definition.name, hfirst]
  | demux =>
      unfold ofBlock demux
      rw [hin 0 Nat.one_pos, input_eq]
      simp only [List.map_map]
      exact List.map_congr_left fun j hj => by
        rw [Function.comp_apply, Definition.withName, Definition.name,
          hout j (List.mem_range.mp hj)]

/-- The state of a delay or integrator starts in the same way under its new name. -/
theorem initialState_relabel (h : σ (b.outputVar 0) = (b.relabel id name).outputVar 0)
    (hparam : b.ParamsOver fun x => σ x = x) :
    (initialState (b.relabel id name) : Formula R) = (initialState b).rename σ := by
  have hterm : (initialTerm b : Term R).rename σ = initialTerm b :=
    Term.rename_eq_self (over_initialTerm hparam)
  unfold initialState Formula.compare
  rw [Formula.rename, Relation.rename, Term.rename, h, hterm]
  rfl

/-- The step of an integrator reads the state that it updates. -/
theorem integration_relabel (h : σ (b.outputVar 0) = (b.relabel id name).outputVar 0)
    (hin : σ (inputName d b 0) = inputName d b 0)
    (hparam : b.ParamsOver fun x => σ x = x) :
    ((Term.var (b.outputVar 0)).plus ((sampleTime b).times (input d b 0)) : Term R).rename
      σ =
      (Term.var ((b.relabel id name).outputVar 0)).plus
        ((sampleTime b).times (input d b 0)) := by
  have hstep : ((sampleTime b).times (input d b 0) : Term R).Over fun x => σ x = x :=
    (over_sampleTime hparam).times (over_input hin)
  unfold Term.plus
  rw [Term.rename_sum, List.map_cons, List.map_singleton, Term.rename, h,
    Term.rename_eq_self hstep]

/-- A block without state contributes definitions and steps only. -/
theorem stateless {k : BlockKind} (h : k.keepsState = false) (d : Diagram) (b : Block) :
    (ofBlock d b k : Encoding R).updates = [] ∧ (ofBlock d b k : Encoding R).odes = [] ∧
      (ofBlock d b k : Encoding R).initial = [] := by
  cases k with
  | unitDelay => cases h
  | memory => cases h
  | integrator => cases h
  | discreteIntegrator => cases h
  | saturation =>
      simp only [ofBlock, saturation]
      split <;> exact ⟨rfl, rfl, rfl⟩
  | minMax =>
      simp only [ofBlock, minMax]
      split <;> exact ⟨rfl, rfl, rfl⟩
  | demux => simp [ofBlock, demux, input_eq]
  | _ => exact ⟨rfl, rfl, rfl⟩

/-- **Encoding of a relabeled block.**  If the same is found at all inputs that are read,
and neither these nor parameters are renamed, then the block is encoded as before, with its
outputs renamed. -/
theorem fragment_relabel {k : BlockKind}
    (hin : ∀ pin < b.pinsRead k,
      (input d (b.relabel id name) pin : Term R) = input d b pin)
    (hout : ∀ j < max b.outputs 1, σ (b.outputVar j) = (b.relabel id name).outputVar j)
    (hinput : ∀ pin < b.pinsRead k, σ (inputName d b pin) = inputName d b pin)
    (hparam : b.ParamsOver fun x => σ x = x)
    (helement : ∀ x i, σ (Term.elementName x i) = Term.elementName x i) :
    (ofBlock d (b.relabel id name) k : Encoding R).fragment =
      (ofBlock d b k).fragment.rename σ := by
  have hfirst : σ (b.outputVar 0) = (b.relabel id name).outputVar 0 := hout 0 (by omega)
  have hdefinitions : (ofBlock d (b.relabel id name) k : Encoding R).definitions =
      (ofBlock d b k).definitions.map (Definition.rename σ) := by
    rw [definitions_relabel hin hout]
    exact List.map_congr_left fun e he =>
      (Definition.rename_eq_withName (over_definitions hinput hparam helement e he)).symm
  have hread : 0 < b.pinsRead k → (input d b 0 : Term R).rename σ = input d b 0 := fun h =>
    Term.rename_eq_self (over_input (hinput 0 h))
  have hinitial := initialState_relabel (R := R) hfirst hparam
  unfold fragment rename
  rw [hdefinitions]
  cases hstate : k.keepsState with
  | false =>
      obtain ⟨hupdates, hodes, hinitials⟩ := stateless (R := R) hstate d b
      obtain ⟨hupdates', hodes', hinitials'⟩ :=
        stateless (R := R) hstate d (b.relabel id name)
      rw [hupdates, hodes, hinitials, hupdates', hodes', hinitials']
      rfl
  | true =>
      cases k with
      | unitDelay =>
          simp only [ofBlock, delay, List.map_cons, List.map_nil, Program.rename]
          rw [hin 0 Nat.one_pos, hread Nat.one_pos, hfirst, hinitial]
      | memory =>
          simp only [ofBlock, delay, List.map_cons, List.map_nil, Program.rename]
          rw [hin 0 Nat.one_pos, hread Nat.one_pos, hfirst, hinitial]
      | integrator =>
          simp only [ofBlock, integrator, List.map_cons, List.map_nil]
          rw [hin 0 Nat.one_pos, hread Nat.one_pos, hfirst, hinitial]
      | discreteIntegrator =>
          have hupdate := integration_relabel (R := R) hfirst (hinput 0 Nat.one_pos) hparam
          simp only [ofBlock, discreteIntegrator, List.map_cons, List.map_nil,
            Program.rename]
          rw [hin 0 Nat.one_pos, hupdate, hfirst, hinitial]
          rfl
      | _ => cases hstate

end Relabeling

end Encoding

/-! ### Twins -/

namespace Block

/-- The outputs of one block named as those of another. -/
def renameOutputs (a b : Block) (x : String) : String :=
  match (List.range a.outputs).find? fun k => a.outputVar k == x with
  | some k => b.outputVar k
  | none => x

theorem exists_of_param? {b : Block} {key text : String} (h : b.param? key = some text) :
    ∃ p ∈ b.params, Text.trim p.2 = text := by
  obtain ⟨raw, hraw, rfl⟩ := Option.map_eq_some_iff.mp h
  obtain ⟨before, after, hparams, _⟩ := List.lookup_eq_some_iff.mp hraw
  exact ⟨(key, raw), by simp [hparams], rfl⟩

/-- Whether two outputs have the same variable depends on their numbers only. -/
theorem outputVar_congr {a b : Block} (hab : a.outputs = b.outputs) {j k : Nat}
    (h : a.outputVar j = a.outputVar k) : b.outputVar j = b.outputVar k := by
  unfold outputVar at h ⊢
  rw [hab] at h
  split
  · rfl
  · next hone =>
      rw [if_neg hone, if_neg hone, String.append_right_inj] at h
      rw [String.append_right_inj]
      exact h

theorem renameOutputs_outputVar {a b : Block} (h : a.outputs = b.outputs) {k : Nat}
    (hk : k < a.outputs) : a.renameOutputs b (a.outputVar k) = b.outputVar k := by
  unfold renameOutputs
  split
  · next j hj =>
      have hvar : a.outputVar j = a.outputVar k := by simpa using List.find?_some hj
      exact outputVar_congr h hvar
  · next hnone =>
      have hself := List.find?_eq_none.mp hnone k (List.mem_range.mpr hk)
      exact absurd (beq_self_eq_true (a.outputVar k)) hself

theorem renameOutputs_of_ne {a b : Block} {x : String}
    (h : ∀ k < a.outputs, a.outputVar k ≠ x) : a.renameOutputs b x = x := by
  have hnone : ((List.range a.outputs).find? fun k => a.outputVar k == x) = none :=
    List.find?_eq_none.mpr fun k hk => by simpa using h k (List.mem_range.mp hk)
  rw [renameOutputs, hnone]

end Block

namespace Diagram

variable {d : Diagram} {a b : Block}

/-- The variable at an input is that of the pin that feeds it. -/
theorem Twins.inputVar? (h : d.Twins a b)
    (hsource : ∀ s ∈ d.signals, (d.block? s.source.block).isSome = true) {pin : Nat}
    (hpin : pin < a.inputs) :
    ∃ x, d.inputVar? a.id pin = some x ∧ d.inputVar? b.id pin = some x := by
  obtain ⟨s, t, hs, ht, hst⟩ := h.sources pin hpin
  obtain ⟨c, hc⟩ := Option.isSome_iff_exists.mp (hsource s (List.mem_of_find?_eq_some hs))
  refine ⟨c.outputVar s.source.index, ?_, ?_⟩
  · simp [Diagram.inputVar?, hs, hc]
  · simp [Diagram.inputVar?, ht, ← hst, hc]

/-- **Twins are encoded alike.**  The equalities of a diagram are those between the outputs
of twins: any two of its blocks that have the same type, parameters and numbers of pins,
with inputs and outputs, and that are fed by the same pins.  Let all signals start at
blocks of the diagram, and let twins of a known type declare the inputs that their encoding
reads.  If no variable at their inputs and no parameter is an output of the first, then the
definitions, updates, differential equations and initial states of the second are those of
the first with the outputs renamed.  In the definitions the right-hand sides are the
same. -/
theorem twins_encoded_alike {R : Type} [Scalar R] (d : Diagram) :
    (∀ r : Relation R, r ∈ d.equalities ↔ ∃ a b, [a, b].Sublist d.blocks ∧ d.Twins a b ∧
      ∃ k < a.outputs, r = ⟨.var (a.outputVar k), .eq, .var (b.outputVar k)⟩) ∧
    ∀ a b k, d.Twins a b → Catalogue.builtin a.type = some k →
      (∀ s ∈ d.signals, (d.block? s.source.block).isSome = true) →
        a.pinsRead k ≤ a.inputs →
      (∀ pin < a.inputs, ∀ j < a.outputs, d.inputVar? a.id pin ≠ some (a.outputVar j)) →
      (∀ key, ∀ j < a.outputs, a.param? key ≠ some (a.outputVar j)) →
      (Encoding.contribution .builtin d b : Encoding R).fragment =
          (Encoding.contribution .builtin d a).fragment.rename (a.renameOutputs b) ∧
        (Encoding.contribution .builtin d b : Encoding R).definitions =
          (Encoding.contribution .builtin d a).definitions.map fun e =>
            e.withName (a.renameOutputs b e.name) := by
  refine ⟨fun r => mem_twinEqualities_iff, fun a b k htwins hk hsource hread hvar hparam =>
    ?_⟩
  have hinput : ∀ pin < a.pinsRead k, ∃ x, d.inputVar? a.id pin = some x ∧
      d.inputVar? b.id pin = some x :=
    fun pin hpin => htwins.inputVar? hsource (hpin.trans_le hread)
  have hkb : Catalogue.builtin b.type = some k := htwins.type ▸ hk
  have ha : (Encoding.contribution .builtin d a : Encoding R) = .ofBlock d a k := by
    rw [Encoding.contribution, hk]
  have hb : (Encoding.contribution .builtin d b : Encoding R) = .ofBlock d b k := by
    rw [Encoding.contribution, hkb]
  have hsame : ∀ pin < a.pinsRead k,
      (Encoding.input d b pin : Term R) = Encoding.input d a pin := fun pin hpin => by
    obtain ⟨x, hax, hbx⟩ := hinput pin hpin
    rw [Encoding.input, Encoding.input, hax, hbx]
  have hout : ∀ j < max a.outputs 1,
      a.renameOutputs b (a.outputVar j) = b.outputVar j := fun j hj =>
    Block.renameOutputs_outputVar htwins.outputs (Nat.max_eq_left htwins.outputs_pos ▸ hj)
  rw [ha, hb]
  rw [htwins.eq_relabel] at hsame hout ⊢
  refine ⟨Encoding.fragment_relabel hsame hout ?_ ?_ ?_,
    Encoding.definitions_relabel hsame hout⟩
  · intro pin hpin
    obtain ⟨x, hax, _⟩ := hinput pin hpin
    refine Block.renameOutputs_of_ne fun j hj hx => hvar pin (hpin.trans_le hread) j hj ?_
    rw [hx, Encoding.inputName, hax, Option.getD_some]
  · exact fun key text htext => Block.renameOutputs_of_ne fun j hj hx =>
      hparam key j hj (hx ▸ htext)
  · exact fun x i => Block.renameOutputs_of_ne fun j _ hx =>
      Definition.not_plain_elementName x i (hx ▸ a.plain_outputVar j)

/-- An integrator with a symbolic step and initial state. -/
def steppedIntegrator (id : BlockId) (name : String) : Block :=
  ⟨id, name, "DiscreteIntegrator", 1, 1,
    [("InitialCondition", "x0"), ("SampleTime", " h")]⟩

/-- Two integrators of one signal. -/
def twinIntegrators : Diagram where
  name := "twinIntegrators"
  blocks :=
    [⟨1, "A", "Inport", 0, 1, []⟩, steppedIntegrator 2 "I 1", steppedIntegrator 3 "I 2"]
  signals := [⟨1, ⟨1, 0⟩, ⟨2, 0⟩⟩, ⟨2, ⟨1, 0⟩, ⟨3, 0⟩⟩]

/-- The states of the integrators are said to be equal, and are updated and start alike. -/
theorem twins_encoded_alike_integrators :
    (⟨.var "I_1_out", .eq, .var "I_2_out"⟩ : Relation Float) ∈ twinIntegrators.equalities ∧
      (Encoding.contribution .builtin twinIntegrators (steppedIntegrator 3 "I 2") :
        Encoding Float).fragment =
        (Encoding.contribution .builtin twinIntegrators
          (steppedIntegrator 2 "I 1")).fragment.rename
          ((steppedIntegrator 2 "I 1").renameOutputs (steppedIntegrator 3 "I 2")) := by
  have htwins : twinIntegrators.Twins (steppedIntegrator 2 "I 1")
      (steppedIntegrator 3 "I 2") :=
    areTwins_iff.mp (by decide)
  have hnames : (steppedIntegrator 2 "I 1").outputVar 0 = "I_1_out" ∧
      (steppedIntegrator 3 "I 2").outputVar 0 = "I_2_out" := by
    decide
  obtain ⟨hequalities, halike⟩ := twins_encoded_alike (R := Float) twinIntegrators
  refine ⟨(hequalities _).mpr ⟨_, _, List.sublist_cons_self _ _, htwins, 0,
    Nat.one_pos, ?_⟩, ?_⟩
  · rw [hnames.1, hnames.2]
  · refine (halike _ _ .discreteIntegrator htwins (by decide) (by decide)
      (by decide) (by decide)
      fun key j hj hkey => ?_).1
    obtain ⟨p, hp, htext⟩ := Block.exists_of_param? hkey
    have hnone : ∀ p ∈ (steppedIntegrator 2 "I 1").params,
        ∀ j < (steppedIntegrator 2 "I 1").outputs,
        Text.trim p.2 ≠ (steppedIntegrator 2 "I 1").outputVar j := by
      decide
    exact hnone p hp j hj htext

end Diagram

end SignalFlow
