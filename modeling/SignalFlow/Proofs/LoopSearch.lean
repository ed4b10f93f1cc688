import Mathlib.Data.List.Chain
import Mathlib.Data.List.Nodup
import Mathlib.Data.List.Perm.Subperm
import Mathlib.Logic.Relation
import SignalFlow.FlowGraph.Cycles
import SignalFlow.Proofs.Wiring

/-!
# The search for a loop

A search behind a trail either closes the trail to a loop, or leaves a set of nodes that
have been tried and from which no edge leads out: every edge ends at another node of the
set or on the trail, and never at the start.  For the trail of the start alone this set has
everything that the start leads to, so the start lies on no loop.

**Results.**
* `tryEach_searched`, `extend_searched`: what a search gives, over a list of nodes and from
  a node.
* `Wired.cycleThrough_cases`: a loop is found at every node that lies on one.
* `LoopAt.transGen`: all members of a loop lead to where it starts.
-/

open Relation (TransGen)

namespace SignalFlow
namespace FlowGraph

variable {R : Type} {g : FlowGraph R} {start current : Nat} {path tried todo : List Nat}

/-- Different nodes, each of which feeds the next. -/
structure Trail (g : FlowGraph R) (first last : Nat) (path : List Nat) : Prop where
  nodup : path.Nodup
  chain : path.IsChain g.Feeds
  head : path.head? = some first
  last : path.getLast? = some last
  lt : ∀ m ∈ path, m < g.nodes.length

/-- A trail from a node whose last node feeds it. -/
def LoopAt (g : FlowGraph R) (n : Nat) (members : List Nat) : Prop :=
  ∃ last, g.Trail n last members ∧ g.Feeds last n

theorem Trail.singleton {n : Nat} (h : n < g.nodes.length) : g.Trail n n [n] :=
  ⟨List.nodup_singleton n, List.isChain_singleton n, rfl, rfl, by simpa using h⟩

theorem Trail.snoc (h : g.Trail start current path) {next : Nat}
    (hfeeds : g.Feeds current next) (hnew : next ∉ path) (hlt : next < g.nodes.length) :
    g.Trail start next (path ++ [next]) where
  nodup := List.nodup_append_comm.mp (List.nodup_cons.mpr ⟨hnew, h.nodup⟩)
  chain := by
    refine List.isChain_append.mpr ⟨h.chain, List.isChain_singleton next, ?_⟩
    simpa [h.last] using hfeeds
  head := by simp [h.head]
  last := by simp
  lt := by
    intro m hm
    rcases List.mem_append.mp hm with hm | hm
    · exact h.lt m hm
    · exact List.mem_singleton.mp hm ▸ hlt

theorem Trail.length_le (h : g.Trail start current path) :
    path.length ≤ g.nodes.length := by
  have hsub : path ⊆ List.range g.nodes.length := fun m hm =>
    List.mem_range.mpr (h.lt m hm)
  simpa using (h.nodup.subperm hsub).length_le

theorem LoopAt.mem {n : Nat} {members : List Nat} (h : g.LoopAt n members) :
    n ∈ members := by
  obtain ⟨_, htrail, _⟩ := h
  exact List.mem_of_mem_head? htrail.head

theorem LoopAt.lt {n m : Nat} {members : List Nat} (h : g.LoopAt n members)
    (hm : m ∈ members) : m < g.nodes.length := by
  obtain ⟨_, htrail, _⟩ := h
  exact htrail.lt m hm

theorem LoopAt.transGen {n m : Nat} {members : List Nat} (h : g.LoopAt n members)
    (hm : m ∈ members) : TransGen g.Feeds m n := by
  obtain ⟨last, htrail, hfeeds⟩ := h
  refine htrail.chain.backwards_induction (fun m => TransGen g.Feeds m n) _
    (fun _ _ hstep hrest => TransGen.head hstep hrest) (fun hne => ?_) m hm
  have hlast : members.getLast hne = last := by
    simpa [List.getLast?_eq_some_getLast hne] using htrail.last
  exact hlast ▸ TransGen.single hfeeds

/-- Every edge out of a node that has been tried, the trail apart, ends at such a node or
on the trail, and not at the start. -/
def Explored (g : FlowGraph R) (start : Nat) (path tried : List Nat) : Prop :=
  ∀ m ∈ tried, m ∉ path → ∀ n, g.Feeds m n → n ≠ start ∧ (n ∈ tried ∨ n ∈ path)

/-- What a search through `todo` gives. -/
def Searched (g : FlowGraph R) (start : Nat) (path tried todo : List Nat) :
    Option (List Nat) × List Nat → Prop
  | (some found, _) => g.LoopAt start found
  | (none, tried') => tried ⊆ tried' ∧ g.Explored start path tried' ∧
      ∀ n ∈ todo, n ≠ start ∧ (n ∈ tried' ∨ n ∈ path)

theorem Explored.push (h : g.Explored start path tried) (next : Nat) :
    g.Explored start (path ++ [next]) (next :: tried) := by
  intro m hm hpath n hn
  rw [List.mem_append, List.mem_singleton, not_or] at hpath
  obtain ⟨hne, hmem⟩ := h m ((List.mem_cons.mp hm).resolve_left hpath.2) hpath.1 n hn
  exact ⟨hne, hmem.imp (List.mem_cons_of_mem _) (List.mem_append_left _)⟩

/-- A node whose successors have all been tried leaves the trail. -/
theorem Explored.pop {next : Nat} (h : g.Explored start (path ++ [next]) tried)
    (hnext : next ∈ tried)
    (hsucc : ∀ n, g.Feeds next n → n ≠ start ∧ (n ∈ tried ∨ n ∈ path ++ [next])) :
    g.Explored start path tried := by
  have hback : ∀ {n : Nat}, n ∈ tried ∨ n ∈ path ++ [next] → n ∈ tried ∨ n ∈ path := by
    intro n hn
    rw [List.mem_append, List.mem_singleton] at hn
    rcases hn with hn | hn | rfl
    · exact Or.inl hn
    · exact Or.inr hn
    · exact Or.inl hnext
  intro m hm hpath n hn
  by_cases heq : m = next
  · subst heq
    exact (hsucc n hn).imp_right hback
  · exact (h m hm (by simp [hpath, heq]) n hn).imp_right hback

theorem tryEach_searched
    {descend : NodeId → List NodeId → List NodeId → Option (List NodeId) × List NodeId}
    (hg : g.Wired) (htrail : g.Trail start current path)
    (hdescend : ∀ next tried, g.Feeds current next → next ∉ path →
      g.Explored start (path ++ [next]) (next :: tried) →
      g.Searched start (path ++ [next]) (next :: tried) (g.successors next)
        (descend next (path ++ [next]) (next :: tried)))
    (htodo : ∀ n ∈ todo, g.Feeds current n) (hexplored : g.Explored start path tried) :
    g.Searched start path tried todo (tryEach descend start path todo tried) := by
  induction todo generalizing tried with
  | nil => exact ⟨fun _ hm => hm, hexplored, by simp⟩
  | cons next rest ih =>
      have hrest : ∀ n ∈ rest, g.Feeds current n := fun n hn =>
        htodo n (List.mem_cons_of_mem _ hn)
      -- What the rest gives is extended by what is known about `next` already.
      have hcons : ∀ {tried' : List Nat} {r : Option (List Nat) × List Nat},
          tried ⊆ tried' →
          next ≠ start → next ∈ tried' ∨ next ∈ path →
          g.Searched start path tried' rest r →
              g.Searched start path tried (next :: rest) r := by
        intro tried' r hsub hne hmem hr
        rcases r with ⟨_ | found, tried''⟩
        · obtain ⟨hsub', hexplored', hfound⟩ := hr
          refine ⟨fun m hm => hsub' (hsub hm), hexplored', ?_⟩
          rw [List.forall_mem_cons]
          exact ⟨⟨hne, hmem.imp_left fun h => hsub' h⟩, hfound⟩
        · exact hr
      unfold tryEach
      split
      · next heq =>
          obtain rfl : next = start := by simpa using heq
          exact ⟨current, htrail, htodo next (by simp)⟩
      · next hne =>
          have hne' : next ≠ start := by simpa using hne
          split
          · next hold =>
              have hmem : next ∈ tried ∨ next ∈ path := by simpa [or_comm] using hold
              exact hcons (fun _ hm => hm) hne' hmem (ih hrest hexplored)
          · next hnew =>
              simp only [Bool.or_eq_true, List.contains_iff_mem, not_or] at hnew
              have hsearched := hdescend next tried (htodo next (by simp)) hnew.1
                (hexplored.push next)
              split
              · next found tried' heq =>
                  rw [heq] at hsearched
                  exact hsearched
              · next tried' heq =>
                  rw [heq] at hsearched
                  obtain ⟨hsub, hexplored', hsucc⟩ := hsearched
                  have hnext : next ∈ tried' := hsub (by simp)
                  have hpop := hexplored'.pop hnext fun n hn =>
                    hsucc n (hg.mem_successors.mpr hn)
                  exact hcons (fun m hm => hsub (by simp [hm])) hne' (Or.inl hnext)
                    (ih hrest hpop)

/-- The depth is not used up, since a trail meets no node twice. -/
theorem extend_searched (hg : g.Wired) {depth : Nat} (htrail : g.Trail start current path)
    (hdepth : g.nodes.length < path.length + depth)
    (hexplored : g.Explored start path tried) :
    g.Searched start path tried (g.successors current)
      (g.extend start depth current path tried) := by
  induction depth generalizing current path tried with
  | zero =>
      have hle := htrail.length_le
      omega
  | succ depth ih =>
      unfold extend
      refine tryEach_searched hg htrail ?_ (fun n hn => hg.mem_successors.mp hn) hexplored
      intro next tried' hfeeds hnew hpush
      refine ih (htrail.snoc hfeeds hnew (hg.lt_of_feeds hfeeds).2) ?_ hpush
      simp only [List.length_append, List.length_singleton]
      omega

/-- A loop is found at every node that lies on one. -/
theorem Wired.cycleThrough_cases (hg : g.Wired) {n : Nat} (hn : n < g.nodes.length) :
    g.LoopAt n (g.cycleThrough n) ∨ g.cycleThrough n = [] ∧ ¬ TransGen g.Feeds n n := by
  have hnone : g.Explored n [n] [] := by
    intro m hm
    cases hm
  have hsearched : g.Searched n [n] [] (g.successors n)
      (g.extend n g.nodes.length n [n] []) :=
    extend_searched hg (Trail.singleton hn)
      (by simp only [List.length_singleton]; omega) hnone
  unfold cycleThrough
  rcases heq : g.extend n g.nodes.length n [n] [] with ⟨_ | found, tried⟩ <;>
    rw [heq] at hsearched
  · obtain ⟨_, hexplored, hfirst⟩ := hsearched
    refine Or.inr ⟨rfl, fun hloop => ?_⟩
    have hreach : ∀ m, TransGen g.Feeds n m → m ≠ n ∧ m ∈ tried := by
      intro m hm
      induction hm with
      | single hm =>
          obtain ⟨hne, hmem⟩ := hfirst _ (hg.mem_successors.mpr hm)
          exact ⟨hne, hmem.resolve_right (by simpa using hne)⟩
      | tail _ hstep ih =>
          obtain ⟨hne, hmem⟩ := hexplored _ ih.2 (by simpa using ih.1) _ hstep
          exact ⟨hne, hmem.resolve_right (by simpa using hne)⟩
    exact (hreach n hloop).1 rfl
  · exact Or.inl hsearched

end FlowGraph
end SignalFlow
