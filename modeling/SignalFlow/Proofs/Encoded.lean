import SignalFlow.Encoding.Diagram
import SignalFlow.Proofs.Lifting

/-!
# The encoding of a diagram, part by part

What a diagram contributes is what its blocks contribute, in run order.

**Results.**
* `flatMap_ofDiagram`: every part of the encoding is put together from the blocks.
* `definesFor_of_mem_definitions`: the definitions of a block.
* `plain_of_mem_definitions`, `tidy_definitions`: defined names are plain, and vectors and
  cases are not empty.
-/

namespace SignalFlow
namespace Encoding

variable {R : Type} [Scalar R]

/-- A part of the encoding that appending appends is put together from the blocks. -/
theorem flatMap_ofDiagram {α : Type} {part : Encoding R → List α} (hempty : part {} = [])
    (happend : ∀ a b, part (a.append b) = part a ++ part b) (c : Catalogue) (d : Diagram)
    (order : RunOrder) :
    part (ofDiagram c d order) = (orderedBlocks d order).flatMap fun b =>
      part (contribution c d b) := by
  have hfold : ∀ (es : List (Encoding R)) (e : Encoding R),
      part (es.foldl append e) = part e ++ es.flatMap part := by
    intro es
    induction es with
    | nil => simp
    | cons e' es ih =>
        intro e
        rw [List.foldl_cons, ih, happend, List.flatMap_cons, List.append_assoc]
  rw [ofDiagram, hfold, hempty, List.nil_append, List.flatMap_map]

theorem definitions_ofDiagram (c : Catalogue) (d : Diagram) (order : RunOrder) :
    (ofDiagram c d order : Encoding R).definitions =
      (orderedBlocks d order).flatMap fun b => (contribution c d b).definitions :=
  flatMap_ofDiagram rfl (fun _ _ => rfl) c d order

theorem steps_ofDiagram (c : Catalogue) (d : Diagram) (order : RunOrder) :
    (ofDiagram c d order : Encoding R).steps =
      (orderedBlocks d order).flatMap fun b => (contribution c d b).steps :=
  flatMap_ofDiagram rfl (fun _ _ => rfl) c d order

theorem updates_ofDiagram (c : Catalogue) (d : Diagram) (order : RunOrder) :
    (ofDiagram c d order : Encoding R).updates =
      (orderedBlocks d order).flatMap fun b => (contribution c d b).updates :=
  flatMap_ofDiagram rfl (fun _ _ => rfl) c d order

omit [Scalar R] in
theorem inputs_ne_nil (d : Diagram) (b : Block) : (inputs d b : List (Term R)) ≠ [] := by
  simp [inputs]

omit [Scalar R] in
theorem isProper_conj_compare [BEq R] {ps : List (Formula R)}
    (h : ∀ p ∈ ps, ∃ r, p = .rel r) : (Formula.conj ps).IsProper := by
  refine Formula.isProper_conj ?_
  intro p hp
  obtain ⟨r, rfl⟩ := h p hp
  trivial

omit [Scalar R] in
/-- Two alternatives by a relation. -/
theorem isSplit_byGuard {r : Relation R} {t u : Term R} :
    Definition.IsSplit [(Formula.rel r, t), (opposite (.rel r), u)] := by
  refine ⟨by simp, ?_⟩
  intro c hc
  simp only [List.mem_cons, List.not_mem_nil, or_false] at hc
  rcases hc with rfl | rfl
  · trivial
  · trivial

/-- A block defines its outputs by terms, its one output by cases, or its one output as a
vector. -/
inductive DefinesFor (b : Block) : Definition R → Prop
  | term (pin : Nat) (t : Term R) : DefinesFor b (.simple (b.outputVar pin) t)
  | split (cs : List (Formula R × Term R)) (h : Definition.IsSplit cs) :
      DefinesFor b (.cases (b.outputVar 0) cs)
  | vector (us : List (Term R)) (h : us ≠ []) : DefinesFor b (.vector (b.outputVar 0) us)
  | width (us : List (Term R)) (h : us ≠ []) :
      DefinesFor b (.width (b.outputVar 0) us.length)

omit [Scalar R] in
theorem definesFor_value {b : Block} {t : Term R} {e : Definition R}
    (h : e ∈ (value b t).definitions) : DefinesFor b e := by
  rw [List.mem_singleton.mp h]
  exact .term 0 t

omit [Scalar R] in
theorem definesFor_byCases {b : Block} {cs : List (Formula R × Term R)} {e : Definition R}
    (h : e ∈ (byCases b cs).definitions) (hcs : Definition.IsSplit cs) :
    DefinesFor b e := by
  rw [List.mem_singleton.mp h]
  exact .split cs hcs

theorem definesFor_saturation {d : Diagram} {b : Block} {e : Definition R}
    (h : e ∈ (saturation d b).definitions) : DefinesFor b e := by
  simp only [saturation] at h
  split at h
  · exact definesFor_value h
  · refine definesFor_byCases h ⟨by simp, ?_⟩
    intro c hc
    simp only [List.mem_append, List.mem_map, List.mem_singleton] at hc
    rcases hc with (⟨hi, _, rfl⟩ | ⟨lo, _, rfl⟩) | rfl
    · trivial
    · trivial
    · refine isProper_conj_compare ?_
      intro p hp
      simp only [List.mem_append, List.mem_map] at hp
      rcases hp with ⟨hi, _, rfl⟩ | ⟨lo, _, rfl⟩
      · exact ⟨_, rfl⟩
      · exact ⟨_, rfl⟩

theorem definesFor_minMax {d : Diagram} {b : Block} {e : Definition R}
    (h : e ∈ (minMax d b).definitions) : DefinesFor b e := by
  simp only [minMax] at h
  split at h
  · exact definesFor_value h
  · refine definesFor_byCases h ⟨?_, ?_⟩
    · simpa using inputs_ne_nil d b
    · intro c hc
      obtain ⟨⟨u, k⟩, _, rfl⟩ := List.mem_map.mp hc
      refine isProper_conj_compare ?_
      intro p hp
      obtain ⟨⟨w, j⟩, _, rfl⟩ := List.mem_map.mp hp
      exact ⟨_, rfl⟩

theorem definesFor_switch {d : Diagram} {b : Block} {e : Definition R}
    (h : e ∈ (switch d b).definitions) : DefinesFor b e := by
  refine definesFor_byCases h ?_
  obtain ⟨r, hr⟩ : ∃ r, b.switchGuard (input d b 1 : Term R) = .rel r := by
    simp only [Block.switchGuard]
    split
    · exact ⟨_, rfl⟩
    · split
      · exact ⟨_, rfl⟩
      · split
        · exact ⟨_, rfl⟩
        · exact ⟨_, rfl⟩
  rw [hr]
  exact isSplit_byGuard

/-- What a block defines. -/
theorem definesFor_of_mem_definitions {d : Diagram} {b : Block} {k : BlockKind}
    {e : Definition R} (h : e ∈ (ofBlock d b k).definitions) : DefinesFor b e := by
  cases k with
  | inport => cases h
  | constant => exact definesFor_value h
  | gain => exact definesFor_value h
  | sum => exact definesFor_value h
  | add => exact definesFor_value h
  | subtract => exact definesFor_value h
  | product => exact definesFor_value h
  | divide => exact definesFor_value h
  | abs =>
      refine definesFor_byCases h ⟨by simp, ?_⟩
      intro c hc
      simp only [List.mem_cons, List.not_mem_nil, or_false] at hc
      rcases hc with rfl | rfl
      · trivial
      · trivial
  | saturation => exact definesFor_saturation h
  | minMax => exact definesFor_minMax h
  | unitDelay => cases h
  | memory => cases h
  | zeroOrderHold => exact definesFor_value h
  | integrator => cases h
  | discreteIntegrator => cases h
  | switch => exact definesFor_switch h
  | relationalOperator => exact definesFor_byCases h isSplit_byGuard
  | outport => cases h
  | terminator => cases h
  | mux =>
      simp only [ofBlock, mux, List.mem_cons, List.not_mem_nil, or_false] at h
      rcases h with rfl | rfl
      · exact .vector _ (inputs_ne_nil d b)
      · exact .width _ (inputs_ne_nil d b)
  | demux =>
      simp only [ofBlock, demux] at h
      split at h
      · obtain ⟨pin, _, rfl⟩ := List.mem_map.mp h
        exact .term pin _
      · cases h

theorem exists_definesFor {c : Catalogue} {d : Diagram} {order : RunOrder}
    {e : Definition R} (h : e ∈ (ofDiagram c d order : Encoding R).definitions) :
    ∃ b, DefinesFor b e := by
  rw [definitions_ofDiagram] at h
  obtain ⟨b, _, hb⟩ := List.mem_flatMap.mp h
  unfold contribution at hb
  split at hb
  · exact ⟨b, definesFor_of_mem_definitions hb⟩
  · cases hb

/-- The names that a diagram defines are plain. -/
theorem plain_of_mem_definitions {c : Catalogue} {d : Diagram} {order : RunOrder}
    {e : Definition R} (h : e ∈ (ofDiagram c d order : Encoding R).definitions) :
    PlainName e.name := by
  obtain ⟨b, hb⟩ := exists_definesFor h
  cases hb with
  | term pin t => exact b.plain_outputVar pin
  | split cs _ => exact b.plain_outputVar 0
  | vector us _ => exact b.plain_outputVar 0
  | width us _ => exact b.plain_outputVar 0

theorem tidy_definitions (c : Catalogue) (d : Diagram) (order : RunOrder) :
    Definition.Tidy (ofDiagram c d order : Encoding R).definitions := by
  refine ⟨?_, ?_, ?_⟩
  · intro x ts h
    obtain ⟨b, hb⟩ := exists_definesFor h
    cases hb with
    | vector us hus => exact ⟨b.plain_outputVar 0, hus⟩
  · intro x n h
    obtain ⟨b, hb⟩ := exists_definesFor h
    cases hb with
    | width us hus => exact ⟨b.plain_outputVar 0, List.length_pos_iff.mpr hus⟩
  · intro x cs h
    obtain ⟨b, hb⟩ := exists_definesFor h
    cases hb with
    | split cs hcs => exact hcs

end Encoding
end SignalFlow
