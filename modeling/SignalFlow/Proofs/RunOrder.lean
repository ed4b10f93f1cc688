import Mathlib.Data.List.Perm.Basic
import Mathlib.Data.List.Nodup
import SignalFlow.Encoding.Diagram

/-!
# Run orders

Releasing puts a block into the order once, and only blocks of the diagram.  What is not
released is appended, so a diagram whose blocks have different identifiers is ordered as a
whole.

**Results.**
* `Sorting.Released.run`: what releasing keeps, over any number of steps.
* `Diagram.all_runOrder_perm`: the run order is a permutation of the blocks.
-/

namespace SignalFlow

/-- Blocks that are queued or released are blocks of the diagram, and none is released
twice. -/
structure Sorting.Released (ids : List BlockId) (o : Sorting) : Prop where
  counted : ∀ e ∈ o.counts, e.1 ∈ ids
  queued : ∀ id ∈ o.queue, id ∈ ids
  sorted : ∀ id ∈ o.sorted, id ∈ ids
  nodup : o.sorted.Nodup

namespace Sorting

variable {ids : List BlockId} {o : Sorting} {successors : BlockId → List BlockId}

theorem mem_lower {counts : OpenInputs} {id : BlockId} {e : BlockId × Nat}
    (h : e ∈ counts.lower id) : ∃ e' ∈ counts, e'.1 = e.1 := by
  obtain ⟨e', he', rfl⟩ := List.mem_map.mp h
  refine ⟨e', he', ?_⟩
  split <;> rfl

theorem mem_of_lookup {counts : OpenInputs} {id : BlockId} {n : Nat}
    (h : counts.lookup id = some n) : (id, n) ∈ counts := by
  obtain ⟨before, after, rfl, _⟩ := List.lookup_eq_some_iff.mp h
  simp

theorem Released.feed (h : Released ids o) (id : BlockId) : Released ids (o.feed id) := by
  have hcounted : ∀ e ∈ o.counts.lower id, e.1 ∈ ids := by
    intro e he
    obtain ⟨e', he', heq⟩ := mem_lower he
    rw [← heq]
    exact h.counted e' he'
  unfold Sorting.feed
  simp only
  split
  · next hzero =>
      have hmem := mem_of_lookup (by simpa using hzero)
      refine ⟨hcounted, ?_, h.sorted, h.nodup⟩
      intro id' hid'
      rcases List.mem_append.mp hid' with hid' | hid'
      · exact h.queued id' hid'
      · rw [List.mem_singleton.mp hid']
        exact hcounted _ hmem
  · exact ⟨hcounted, h.queued, h.sorted, h.nodup⟩

theorem Released.step (h : Released ids o) : Released ids (o.step successors) := by
  unfold Sorting.step
  split
  · exact h
  · next id queue hqueue =>
      have hqueued : ∀ id' ∈ queue, id' ∈ ids := fun id' hid' =>
        h.queued id' (hqueue ▸ List.mem_cons_of_mem _ hid')
      have hid : id ∈ ids := h.queued id (hqueue ▸ List.mem_cons_self)
      split
      · exact ⟨h.counted, hqueued, h.sorted, h.nodup⟩
      · next hnew =>
          refine List.foldlRecOn (successors id) _ ?_ fun o' ho' id' _ => ho'.feed id'
          refine ⟨h.counted, hqueued, ?_, ?_⟩
          · intro id' hid'
            rcases List.mem_append.mp hid' with hid' | hid'
            · exact h.sorted id' hid'
            · exact List.mem_singleton.mp hid' ▸ hid
          · refine List.nodup_append.mpr ⟨h.nodup, List.pairwise_singleton _ _, ?_⟩
            rintro id' hid' _ hsingle rfl
            have heq : id' = id := List.mem_singleton.mp hsingle
            exact hnew (by simpa [heq] using hid')

/-- Any number of steps keeps what one step keeps. -/
theorem Released.run (h : Released ids o) (fuel : Nat) :
    Released ids (o.run successors fuel) := by
  induction fuel generalizing o with
  | zero => exact h
  | succ fuel ih => exact ih h.step

end Sorting

namespace Diagram

theorem released_sorting (d : Diagram) : d.sorting.Released (d.blocks.map Block.id) := by
  refine ⟨?_, ?_, ?_, List.nodup_nil⟩
  · have hstart : ∀ e ∈ (d.blocks.map fun b => (b.id, 0) : OpenInputs),
        e.1 ∈ d.blocks.map Block.id := by
      intro e he
      obtain ⟨b, hb, rfl⟩ := List.mem_map.mp he
      exact List.mem_map_of_mem hb
    refine List.foldlRecOn (motive := fun counts : OpenInputs =>
      ∀ e ∈ counts, e.1 ∈ d.blocks.map Block.id)
      d.attached _ hstart ?_
    intro counts hcounts s _ e he
    obtain ⟨e', he', rfl⟩ := List.mem_map.mp he
    split <;> exact hcounts e' he'
  · intro id hid
    exact (List.mem_filter.mp hid).1
  · intro id hid
    cases hid

/-- No block is left out of the order. -/
theorem mem_all_runOrder {d : Diagram} {id : BlockId} (h : id ∈ d.blocks.map Block.id) :
    id ∈ d.runOrder.all := by
  by_cases hsorted : id ∈ d.runOrder.sorted
  · exact List.mem_append_left _ hsorted
  · refine List.mem_append_right _ (List.mem_filter.mpr ⟨h, ?_⟩)
    simpa [runOrder] using hsorted

/-- Blocks of different identifiers are ordered as a whole. -/
theorem all_runOrder_perm {d : Diagram} (h : (d.blocks.map Block.id).Nodup) :
    d.runOrder.all.Perm (d.blocks.map Block.id) := by
  have hrel : (d.sorting.run d.successors (d.blocks.length + d.signals.length)).Released
      (d.blocks.map Block.id) := d.released_sorting.run _
  have hnodup : d.runOrder.all.Nodup := by
    refine List.nodup_append.mpr ⟨hrel.nodup, h.filter _, ?_⟩
    rintro id hid _ hres rfl
    have hnot := (List.mem_filter.mp hres).2
    simp at hnot
    exact hnot hid
  rw [List.perm_ext_iff_of_nodup hnodup h]
  intro id
  constructor
  · intro hid
    rcases List.mem_append.mp hid with hid | hid
    · exact hrel.sorted id hid
    · exact (List.mem_filter.mp hid).1
  · exact mem_all_runOrder

theorem block?_id_of_nodup {d : Diagram} (h : (d.blocks.map Block.id).Nodup) {b : Block}
    (hb : b ∈ d.blocks) : d.block? b.id = some b := by
  obtain ⟨b', hb'⟩ : ∃ b', d.block? b.id = some b' := by
    rw [← Option.isSome_iff_exists, block?, List.find?_isSome]
    exact ⟨b, hb, by simp⟩
  have hmem := List.mem_of_find?_eq_some hb'
  have hid : b'.id = b.id := by simpa using List.find?_some hb'
  rw [hb', List.inj_on_of_nodup_map h hmem hb hid]

end Diagram

namespace Encoding

/-- The encoded blocks are the blocks of the diagram. -/
theorem orderedBlocks_perm {d : Diagram} (h : (d.blocks.map Block.id).Nodup) :
    (orderedBlocks d d.runOrder).Perm d.blocks := by
  have hperm := (Diagram.all_runOrder_perm h).filterMap d.block?
  have hblocks : (d.blocks.map Block.id).filterMap d.block? = d.blocks := by
    have hsome : ∀ b ∈ d.blocks, (d.block? ∘ Block.id) b = some b := fun b hb =>
      Diagram.block?_id_of_nodup h hb
    rw [List.filterMap_map, List.filterMap_congr hsome]
    exact List.filterMap_some
  rw [hblocks] at hperm
  exact hperm

end Encoding
end SignalFlow
