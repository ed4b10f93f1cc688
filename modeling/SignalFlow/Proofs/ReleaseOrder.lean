import Mathlib.Data.List.Perm.Basic
import Mathlib.Order.WellFoundedSet
import SignalFlow.Proofs.RunOrder
import SignalFlow.Proofs.Traversal
import SignalFlow.Proofs.UniqueFlow

/-!
# Released blocks

While blocks are released, the count of a block is the number of the signals into it whose
source has not been released, and a block is queued or released as soon as that number is
zero.  Feeding the targets of a block one at a time keeps this up to the signals that are
still to be counted, so that no count of zero is ever lowered.

Once the queue is empty, a block has been released if and only if all that feed it have.
What is left over is therefore fed by something that is left over, and among finitely many
blocks this leads back to a circle.

**Results.**
* `Balanced.feed`, `Balanced.step`, `Balanced.run`: what the counts say, over any number of
  steps.
* `Diagram.queue_run_eq_nil`: the queue runs empty.
* `Diagram.mem_residual_iff`: the blocks that are left over are those on circles, and those
  behind them.
* `Diagram.runOrder_exact`: run orders are as the signals ask for, and agree with the loops
  of the flow graph.
-/

open Relation (TransGen ReflTransGen)

namespace SignalFlow

namespace Sorting

/-- Feed an input, unless no input of the block is open. -/
def feed? (o : Sorting) (id : BlockId) : Option Sorting :=
  if o.counts.lookup id == some 0 then none else some (o.feed id)

/-- Release the block at the head of the queue, unless a count of zero would be lowered. -/
def step? (successors : BlockId → List BlockId) (o : Sorting) : Option Sorting :=
  match o.queue with
  | [] => some o
  | id :: queue =>
      if o.sorted.contains id then some { o with queue := queue }
      else
        (successors id).foldlM feed?
          { o with queue := queue, sorted := o.sorted ++ [id] }

/-- Release blocks for a number of steps, unless a count of zero would be lowered. -/
def run? (successors : BlockId → List BlockId) : Nat → Sorting → Option Sorting
  | 0, o => some o
  | fuel + 1, o => (o.step? successors).bind (run? successors fuel)

end Sorting

namespace OpenInputs

/-- Only the count of the block in question is changed. -/
theorem lookup_change (counts : OpenInputs) (change : Nat → Nat) (id k : BlockId) :
    (counts.map fun e => if e.1 == id then (e.1, change e.2) else e).lookup k =
      (counts.lookup k).map fun n => if k = id then change n else n := by
  induction counts with
  | nil => rfl
  | cons e counts ih =>
      have hkey : (if e.1 == id then (e.1, change e.2) else e) =
          (e.1, if e.1 = id then change e.2 else e.2) := by
        by_cases h : e.1 = id <;> simp [h]
      rw [List.map_cons, hkey, List.lookup_cons, ih, List.lookup_cons]
      cases hk : k == e.1 with
      | true =>
          obtain rfl : k = e.1 := by simpa using hk
          rfl
      | false => rfl

theorem lookup_raise (counts : OpenInputs) (id k : BlockId) :
    (counts.raise id).lookup k = (counts.lookup k).map fun n =>
      if k = id then n + 1 else n :=
  counts.lookup_change (fun n => n + 1) id k

theorem lookup_lower (counts : OpenInputs) (id k : BlockId) :
    (counts.lower id).lookup k = (counts.lookup k).map fun n =>
      if k = id then n - 1 else n :=
  counts.lookup_change (fun n => n - 1) id k

theorem lookup_foldl_raise (signals : List Signal) (counts : OpenInputs) (k : BlockId) :
    (signals.foldl (fun counts s => counts.raise s.target.block) counts).lookup k =
      (counts.lookup k).map fun n => n + signals.countP fun s => s.target.block == k := by
  induction signals generalizing counts with
  | nil => simp
  | cons s signals ih =>
      rw [List.foldl_cons, ih, lookup_raise, Option.map_map, List.countP_cons]
      congr 1
      funext n
      by_cases h : k = s.target.block
      · simp [h]
        omega
      · simp [h, Ne.symm h]

theorem lookup_zero {blocks : List Block} {id : BlockId} (h : id ∈ blocks.map Block.id) :
    (blocks.map fun b => (b.id, 0) : OpenInputs).lookup id = some 0 := by
  induction blocks with
  | nil => cases h
  | cons b blocks ih =>
      rw [List.map_cons, List.lookup_cons]
      cases heq : id == b.id with
      | true => rfl
      | false => exact ih ((List.mem_cons.mp h).resolve_left (by simpa using heq))

end OpenInputs

namespace Diagram

/-- The number of signals into a block whose source is not in the list. -/
def pending (d : Diagram) (sorted : List BlockId) (id : BlockId) : Nat :=
  d.attached.countP fun s => s.target.block == id && !sorted.contains s.source.block

variable {d : Diagram} {sorted : List BlockId} {id : BlockId}

theorem pending_eq_zero_iff : d.pending sorted id = 0 ↔ ∀ a, d.Feeds a id →
      a ∈ sorted := by
  rw [pending, List.countP_eq_zero]
  constructor
  · rintro h _ ⟨s, hs, rfl, htarget⟩
    by_contra hnot
    exact h s hs (by simp [htarget, hnot])
  · intro h s hs hopen
    simp only [Bool.and_eq_true, beq_iff_eq, Bool.not_eq_true', List.contains_eq_mem,
      decide_eq_false_iff_not] at hopen
    exact hopen.2 (h _ ⟨s, hs, rfl, hopen.1⟩)

/-- Releasing a block feeds its successors, once for every signal. -/
theorem pending_snoc (hnew : id ∉ sorted) (k : BlockId) :
    d.pending sorted k = d.pending (sorted ++ [id]) k + (d.successors id).count k := by
  rw [pending, pending, successors, List.count, List.countP_map, List.countP_filter]
  induction d.attached with
  | nil => rfl
  | cons s signals ih =>
      simp only [List.countP_cons, ih]
      by_cases hsource : s.source.block = id
      · by_cases htarget : s.target.block = k
        · simp [hsource, htarget, hnew]
          omega
        · simp [hsource, htarget]
      · by_cases hmem : s.source.block ∈ sorted <;> by_cases htarget :
          s.target.block = k <;>
          simp [hsource, htarget, hmem]
        omega

theorem mem_ids_of_feeds {a b : BlockId} (h : d.Feeds a b) :
    a ∈ d.blocks.map Block.id ∧ b ∈ d.blocks.map Block.id := by
  obtain ⟨s, hs, rfl, rfl⟩ := h
  obtain ⟨_, hsource, htarget⟩ := mem_attached.mp hs
  exact ⟨by simpa [hasBlock] using hsource, by simpa [hasBlock] using htarget⟩

theorem mem_successors {k : BlockId} : k ∈ d.successors id ↔ d.Feeds id k := by
  simp only [successors, List.mem_map, List.mem_filter, beq_iff_eq]
  constructor
  · rintro ⟨s, ⟨hs, hsource⟩, htarget⟩
    exact ⟨s, hs, hsource, htarget⟩
  · rintro ⟨s, hs, hsource, htarget⟩
    exact ⟨s, ⟨hs, hsource⟩, htarget⟩

end Diagram

namespace Sorting

/-- Counts are the numbers of signals from blocks that have not been released, and of
inputs of `rest`, which are still to be fed; blocks without any are queued or released, and
each of them once. -/
structure Balanced (d : Diagram) (rest : List BlockId) (o : Sorting) : Prop where
  lookup : ∀ id ∈ d.blocks.map Block.id,
    o.counts.lookup id = some (d.pending o.sorted id + rest.count id)
  mem_iff : ∀ id, id ∈ o.queue ++ o.sorted ↔
    id ∈ d.blocks.map Block.id ∧ d.pending o.sorted id + rest.count id = 0
  nodup : (o.queue ++ o.sorted).Nodup
  arranged : Arranged d.Feeds o.sorted

variable {d : Diagram} {rest : List BlockId} {o : Sorting} {id : BlockId}

/-- The count that is lowered is not zero. -/
theorem Balanced.feed?_eq (h : Balanced d (id :: rest) o)
    (hid : id ∈ d.blocks.map Block.id) : o.feed? id = some (o.feed id) := by
  rw [feed?, h.lookup id hid, List.count_cons_self]
  exact if_neg (by simp)

theorem Balanced.feed (h : Balanced d (id :: rest) o) (hid : id ∈ d.blocks.map Block.id) :
    Balanced d rest (o.feed id) := by
  have hlookup : ∀ k ∈ d.blocks.map Block.id,
      (o.counts.lower id).lookup k = some (d.pending o.sorted k + rest.count k) := by
    intro k hk
    rw [OpenInputs.lookup_lower, h.lookup k hk, List.count_cons, Option.map_some]
    by_cases heq : k = id
    · simp [heq]
    · simp [heq, Ne.symm heq]
  have hother : ∀ k, k ≠ id → (k ∈ o.queue ++ o.sorted ↔
      k ∈ d.blocks.map Block.id ∧ d.pending o.sorted k + rest.count k = 0) := by
    intro k hk
    rw [h.mem_iff, List.count_cons_of_ne hk.symm]
  -- an input of the block is still to be fed, so it waits
  have hwaits : id ∉ o.queue ++ o.sorted := by
    rw [h.mem_iff, List.count_cons_self]
    omega
  unfold Sorting.feed
  simp only [hlookup id hid]
  split
  · next hzero =>
      have hperm : (o.queue ++ [id] ++ o.sorted).Perm (id :: (o.queue ++ o.sorted)) := by
        rw [List.append_assoc]
        exact List.perm_middle
      refine ⟨hlookup, fun k =>
        ?_, hperm.nodup_iff.mpr (List.nodup_cons.mpr ⟨hwaits, h.nodup⟩), h.arranged⟩
      rw [hperm.mem_iff, List.mem_cons]
      by_cases heq : k = id
      · subst heq
        exact iff_of_true (Or.inl rfl) ⟨hid, by simpa using hzero⟩
      · rw [← hother k heq]
        exact or_iff_right heq
  · next hopen =>
      refine ⟨hlookup, fun k => ?_, h.nodup, h.arranged⟩
      by_cases heq : k = id
      · exact iff_of_false (heq ▸ hwaits) fun hk => hopen (by simpa [heq] using hk.2)
      · exact hother k heq

/-- Feeding the inputs of `rest` in turn leaves none to be fed, and lowers no count of
zero. -/
theorem Balanced.foldl_feed (h : Balanced d rest o)
    (hrest : ∀ id ∈ rest, id ∈ d.blocks.map Block.id) :
    Balanced d [] (rest.foldl Sorting.feed o) ∧
      rest.foldlM feed? o = some (rest.foldl Sorting.feed o) := by
  induction rest generalizing o with
  | nil => exact ⟨h, rfl⟩
  | cons id rest ih =>
      obtain ⟨hid, hrest⟩ := List.forall_mem_cons.mp hrest
      obtain ⟨hfed, heq⟩ := ih (h.feed hid) hrest
      refine ⟨hfed, ?_⟩
      rw [List.foldlM_cons, h.feed?_eq hid]
      exact heq

theorem sorted_foldl_feed (o : Sorting) (rest : List BlockId) :
    (rest.foldl Sorting.feed o).sorted = o.sorted := by
  refine List.foldlRecOn (motive := fun o' : Sorting => o'.sorted = o.sorted) rest _ rfl
    fun o' ho' id _ => ?_
  unfold Sorting.feed
  simp only
  split <;> exact ho'

theorem Balanced.not_mem_sorted {queue : List BlockId} (h : Balanced d rest o)
    (hqueue : o.queue = id :: queue) : id ∉ o.sorted := by
  have hnodup := h.nodup
  rw [hqueue, List.cons_append, List.nodup_cons] at hnodup
  exact fun hmem => hnodup.1 (List.mem_append_right _ hmem)

/-- The head of the queue is released, and its successors are to be fed. -/
theorem Balanced.release {queue : List BlockId} (h : Balanced d [] o)
    (hqueue : o.queue = id :: queue) :
    Balanced d (d.successors id)
      { o with queue := queue, sorted := o.sorted ++ [id] } := by
  have hperm : (queue ++ (o.sorted ++ [id])).Perm (o.queue ++ o.sorted) := by
    rw [hqueue, ← List.append_assoc]
    exact List.perm_append_comm
  have hnew := h.not_mem_sorted hqueue
  have hready := ((h.mem_iff id).mp (by simp [hqueue])).2
  refine ⟨fun k hk => ?_, fun k => ?_, hperm.nodup_iff.mpr h.nodup,
    h.arranged.snoc fun a ha => ?_⟩
  · rw [← Diagram.pending_snoc hnew]
    exact h.lookup k hk
  · rw [← Diagram.pending_snoc hnew, hperm.mem_iff]
    exact h.mem_iff k
  · exact Diagram.pending_eq_zero_iff.mp hready a ha

/-- One step keeps the balance, lowers no count of zero, and releases a block unless the
queue is empty. -/
theorem Balanced.step (h : Balanced d [] o) :
    Balanced d [] (o.step d.successors) ∧
      o.step? d.successors = some (o.step d.successors) ∧
      (o.queue ≠ [] → (o.step d.successors).sorted.length = o.sorted.length + 1) := by
  unfold Sorting.step step?
  cases hqueue : o.queue with
  | nil => exact ⟨h, rfl, fun hne => absurd rfl hne⟩
  | cons id queue =>
      have hsuccessors : ∀ k ∈ d.successors id, k ∈ d.blocks.map Block.id := fun k hk =>
        (Diagram.mem_ids_of_feeds (Diagram.mem_successors.mp hk)).2
      obtain ⟨hfed, heq⟩ := (h.release hqueue).foldl_feed hsuccessors
      simp only [List.contains_eq_mem, h.not_mem_sorted hqueue, decide_false,
        Bool.false_eq_true, if_false]
      exact ⟨hfed, heq,
        fun _ => by rw [sorted_foldl_feed, List.length_append, List.length_singleton]⟩

/-- Any number of steps keeps what one step keeps. -/
theorem Balanced.run (h : Balanced d [] o) (fuel : Nat) :
    Balanced d [] (o.run d.successors fuel) ∧
      o.run? d.successors fuel = some (o.run d.successors fuel) := by
  induction fuel generalizing o with
  | zero => exact ⟨h, rfl⟩
  | succ fuel ih =>
      obtain ⟨hstep, heq, _⟩ := h.step
      rw [run?, heq]
      exact ih hstep

theorem run_of_queue_eq_nil {successors : BlockId → List BlockId} (h : o.queue = [])
    (fuel : Nat) : o.run successors fuel = o := by
  induction fuel with
  | zero => rfl
  | succ fuel ih =>
      have hstep : o.step successors = o := by simp [Sorting.step, h]
      rw [Sorting.run, hstep, ih]

/-- Every step releases a block, until the queue is empty. -/
theorem Balanced.queue_run (h : Balanced d [] o) (fuel : Nat) :
    (o.run d.successors fuel).queue = [] ∨
      o.sorted.length + fuel ≤ (o.run d.successors fuel).sorted.length := by
  induction fuel generalizing o with
  | zero => exact Or.inr (Nat.le_refl _)
  | succ fuel ih =>
      by_cases hqueue : o.queue = []
      · refine Or.inl ?_
        rw [run_of_queue_eq_nil hqueue]
        exact hqueue
      · obtain ⟨hstep, _, hlength⟩ := h.step
        refine (ih hstep).imp id fun hle => ?_
        rw [hlength hqueue] at hle
        rw [Sorting.run]
        omega

end Sorting

namespace Diagram

variable {d : Diagram} {id : BlockId}

theorem balanced_sorting (hd : (d.blocks.map Block.id).Nodup) :
    d.sorting.Balanced d [] := by
  have hlookup : ∀ id ∈ d.blocks.map Block.id,
      d.openInputs.lookup id = some (d.pending [] id) := by
    intro id hid
    rw [openInputs, OpenInputs.lookup_foldl_raise, OpenInputs.lookup_zero hid,
      Option.map_some, Nat.zero_add, pending]
    simp
  refine ⟨hlookup, fun id => ?_, ?_, arranged_nil _⟩
  · simp only [sorting, List.append_nil, List.mem_filter, List.count_nil, Nat.add_zero]
    refine and_congr_right fun hid => ?_
    rw [hlookup id hid]
    simp
  · rw [sorting, List.append_nil]
    exact hd.filter _

/-- The state after all steps. -/
theorem balanced_run (hd : (d.blocks.map Block.id).Nodup) :
    (d.sorting.run d.successors (d.blocks.length + d.signals.length)).Balanced d [] :=
  ((d.balanced_sorting hd).run _).1

/-- There are enough steps for the queue to run empty. -/
theorem queue_run_eq_nil (hd : (d.blocks.map Block.id).Nodup) :
    (d.sorting.run d.successors (d.blocks.length + d.signals.length)).queue = [] := by
  refine ((d.balanced_sorting hd).queue_run _).elim id fun hle => ?_
  have hbalanced := d.balanced_run hd
  have hlength :=
    (hbalanced.nodup.subperm fun id hid => ((hbalanced.mem_iff id).mp hid).1).length_le
  rw [List.length_append, List.length_map] at hlength
  exact List.eq_nil_of_length_eq_zero (by omega)

theorem arranged_sorted (hd : (d.blocks.map Block.id).Nodup) :
    Arranged d.Feeds d.runOrder.sorted :=
  (d.balanced_run hd).arranged

/-- Blocks are released exactly if all that feed them are. -/
theorem mem_sorted_iff (hd : (d.blocks.map Block.id).Nodup) :
    id ∈ d.runOrder.sorted ↔ id ∈ d.blocks.map Block.id ∧ ∀ a, d.Feeds a id →
      a ∈ d.runOrder.sorted := by
  have hmem := (d.balanced_run hd).mem_iff id
  rw [queue_run_eq_nil hd, List.nil_append, List.count_nil, Nat.add_zero,
    pending_eq_zero_iff] at hmem
  exact hmem

theorem mem_residual : id ∈ d.runOrder.residual ↔ id ∈ d.blocks.map Block.id ∧
      id ∉ d.runOrder.sorted := by
  simp [runOrder]

/-- Behind a block that is left over there is a circle.  The induction is on the blocks
that a block is behind of without being before them: a feeder that is no such block is on a
circle with it. -/
theorem exists_circle_of_not_mem_sorted (hd : (d.blocks.map Block.id).Nodup)
    (hid : id ∈ d.blocks.map Block.id) (hleft : id ∉ d.runOrder.sorted) :
    ∃ c, TransGen d.Feeds c c ∧ ReflTransGen d.Feeds c id := by
  let Behind : BlockId → BlockId → Prop := fun a b =>
    TransGen d.Feeds a b ∧ ¬ TransGen d.Feeds b a
  have horder : IsStrictOrder BlockId Behind :=
    { irrefl := fun _ h => h.2 h.1
      trans := fun _ _ _ hab hbc =>
        ⟨hab.1.trans hbc.1, fun hca => hbc.2 (hca.trans hab.1)⟩ }
  have hwf : {id | id ∈ d.blocks.map Block.id}.WellFoundedOn Behind :=
    (List.finite_toSet _).wellFoundedOn
  revert hleft
  refine hwf.induction (P := fun id => id ∉ d.runOrder.sorted → ∃ c, TransGen d.Feeds c c ∧
    ReflTransGen d.Feeds c id)
    hid fun id hid ih hleft => ?_
  obtain ⟨a, ha, hopen⟩ : ∃ a, d.Feeds a id ∧ a ∉ d.runOrder.sorted := by
    by_contra hnone
    refine hleft ((mem_sorted_iff hd).mpr ⟨hid, fun a ha => ?_⟩)
    by_contra hopen
    exact hnone ⟨a, ha, hopen⟩
  by_cases hback : TransGen d.Feeds id a
  · exact ⟨id, hback.tail ha, ReflTransGen.refl⟩
  · obtain ⟨c, hc, hca⟩ := ih a (mem_ids_of_feeds ha).1 ⟨TransGen.single ha, hback⟩ hopen
    exact ⟨c, hc, hca.tail ha⟩

/-- What is left over are the blocks on circles, and those behind them. -/
theorem mem_residual_iff (hd : (d.blocks.map Block.id).Nodup) :
    id ∈ d.runOrder.residual ↔ ∃ c, TransGen d.Feeds c c ∧ ReflTransGen d.Feeds c id := by
  rw [mem_residual]
  constructor
  · rintro ⟨hid, hleft⟩
    exact exists_circle_of_not_mem_sorted hd hid hleft
  · rintro ⟨c, hc, hcid⟩
    have hloop : TransGen d.Feeds c id := TransGen.trans_left hc hcid
    obtain ⟨a, _, ha⟩ := TransGen.tail'_iff.mp hloop
    refine ⟨(mem_ids_of_feeds ha).2, fun hsorted => ?_⟩
    have hc' := ((d.arranged_sorted hd).idxOf_lt_of_transGen hsorted hloop).1
    exact (d.arranged_sorted hd).not_transGen hc' hc

theorem residual_eq_nil_iff (hd : (d.blocks.map Block.id).Nodup) :
    d.runOrder.residual = [] ↔ ∀ id, ¬ TransGen d.Feeds id id := by
  rw [List.eq_nil_iff_forall_not_mem]
  constructor
  · intro hnone id hloop
    exact hnone id ((mem_residual_iff hd).mpr ⟨id, hloop, ReflTransGen.refl⟩)
  · intro hnone id hid
    obtain ⟨c, hc, _⟩ := (mem_residual_iff hd).mp hid
    exact hnone c hc

end Diagram

namespace FlowGraph

variable {R : Type} {d : Diagram} {g : FlowGraph R}

/-- A graph that mirrors a diagram has circles where the diagram has. -/
theorem Mirrors.acyclic_iff (h : Mirrors d g) :
    (∀ n, ¬ TransGen g.Feeds n n) ↔ ∀ id, ¬ TransGen d.Feeds id id := by
  constructor
  · intro hnone id hloop
    refine hnone _ (hloop.lift (fun id => (g.nodeOf? id).getD 0) fun a b hab => ?_)
    obtain ⟨s, hs, rfl, rfl⟩ := hab
    obtain ⟨e, he, hes⟩ := h.depicted s hs
    have hsource := nodeOf?_of_blockOf? h.laidOut hes.source
    have htarget := nodeOf?_of_blockOf? h.laidOut hes.target
    exact ⟨e, he, by simp [hsource], by simp [htarget]⟩
  · intro hnone n hloop
    exact hnone _ (hloop.lift g.blockAt fun m k hmk => h.feeds_blockAt hmk)

end FlowGraph

namespace Diagram

variable {d : Diagram}

/-- **Run orders.**  Of a diagram whose blocks have different identifiers, the run order
lists every block once.  A signal into a released block comes from one that is released
before it.  The blocks that are left over are those on circles and those behind a circle.
No count of zero is ever lowered, and the queue runs empty.  If the signals have different
identifiers too, no block is left over if and only if the flow graph of the diagram has no
loops. -/
theorem runOrder_exact (R : Type) (hd : (d.blocks.map Block.id).Nodup) :
    d.runOrder.all.Perm (d.blocks.map Block.id) ∧
      (∀ s ∈ d.attached, s.target.block ∈ d.runOrder.sorted →
        s.source.block ∈ d.runOrder.sorted ∧
        d.runOrder.sorted.idxOf s.source.block < d.runOrder.sorted.idxOf s.target.block) ∧
      (∀ id, id ∈ d.runOrder.residual ↔ ∃ c, TransGen d.Feeds c c ∧
        ReflTransGen d.Feeds c id) ∧
      (∀ fuel, d.sorting.run? d.successors fuel = some (d.sorting.run d.successors fuel)) ∧
      (d.sorting.run d.successors (d.blocks.length + d.signals.length)).queue = [] ∧
      ((d.signals.map Signal.id).Nodup →
        (d.runOrder.residual = [] ↔
          (FlowGraph.ofDiagram d d.runOrder : FlowGraph R).cycles = [])) := by
  refine ⟨all_runOrder_perm hd, fun s hs htarget => ?_, fun id => mem_residual_iff hd,
    fun fuel => ((d.balanced_sorting hd).run fuel).2, queue_run_eq_nil hd,
    fun hsignals => ?_⟩
  · exact (arranged_sorted hd).idxOf_lt htarget ⟨s, hs, rfl, rfl⟩
  · have hmirrors : FlowGraph.Mirrors d (FlowGraph.ofDiagram d d.runOrder : FlowGraph R) :=
      .ofDiagram hsignals
    rw [residual_eq_nil_iff hd, hmirrors.indexed.wired.cycles_cases.2,
      hmirrors.acyclic_iff]

/-- Two blocks on a circle and one behind it, a block that feeds itself, two signals
between the same blocks, and signals from and to blocks that do not exist. -/
def knotted : Diagram where
  name := "knotted"
  blocks := [⟨4, "Y", "Outport", 1, 0, []⟩, ⟨2, "A", "Sum", 2, 1, []⟩,
    ⟨1, "C", "Constant", 0, 1, []⟩, ⟨3, "G", "Gain", 1, 1, []⟩,
    ⟨5, "P", "Product", 2, 1, []⟩, ⟨6, "D", "UnitDelay", 1, 1, []⟩]
  signals :=
    [⟨1, ⟨1, 0⟩, ⟨2, 0⟩⟩, ⟨2, ⟨2, 0⟩, ⟨3, 0⟩⟩, ⟨3, ⟨3, 0⟩, ⟨2, 1⟩⟩, ⟨4, ⟨3, 0⟩, ⟨4, 0⟩⟩,
      ⟨5, ⟨1, 0⟩, ⟨5, 0⟩⟩, ⟨6, ⟨1, 0⟩, ⟨5, 1⟩⟩, ⟨7, ⟨6, 0⟩, ⟨6, 0⟩⟩, ⟨8, ⟨9, 0⟩, ⟨1, 0⟩⟩,
      ⟨9, ⟨5, 0⟩, ⟨9, 0⟩⟩]

theorem runOrder_exact_knotted :
    (knotted.blocks.map Block.id).Nodup ∧ (knotted.signals.map Signal.id).Nodup ∧
      knotted.runOrder = ⟨[1, 5], [4, 2, 3, 6]⟩ ∧
      (∃ c, TransGen knotted.Feeds c c ∧ ReflTransGen knotted.Feeds c 4) ∧
      (¬ ∃ c, TransGen knotted.Feeds c c ∧ ReflTransGen knotted.Feeds c 5) ∧
      (FlowGraph.ofDiagram knotted knotted.runOrder : FlowGraph Float).cycles ≠ [] := by
  have hblocks : (knotted.blocks.map Block.id).Nodup := by decide
  have hsignals : (knotted.signals.map Signal.id).Nodup := by decide
  have horder : knotted.runOrder = ⟨[1, 5], [4, 2, 3, 6]⟩ := by decide +kernel
  obtain ⟨_, _, hresidual, _, _, hcycles⟩ := runOrder_exact Float hblocks
  rw [horder] at hresidual
  refine ⟨hblocks, hsignals, horder, (hresidual 4).mp (by decide), fun h =>
    ?_, fun h => ?_⟩
  · exact absurd ((hresidual 5).mpr h) (by decide)
  · have hnil := (hcycles hsignals).mpr h
    rw [horder] at hnil
    cases hnil

end Diagram
end SignalFlow
