import Mathlib.Data.List.Chain
import Mathlib.Data.List.Nodup
import Mathlib.Logic.Relation
import SignalFlow.Proofs.Dependency
import SignalFlow.Proofs.GraphCoherence
import SignalFlow.Proofs.LoopSearch

/-!
# Searches for loops, without a bound

The two searches of a flow graph are stated as relations, one rule for each thing that they
can do with the next node; a derivation is a search that ends.  Both go along a trail of
different nodes, so that they go no deeper than there are nodes, and the bounded searches
are the unbounded ones.

The traversal of a whole graph records a loop whenever an edge leads back onto the trail.
As long as it has recorded none, the nodes it is done with stand behind all nodes that they
feed; so a traversal that records nothing has put the nodes of the graph into an order in
which no edge leads back.

**Results.**
* `Tries.unique`, `Explores.unique`: the searches have one result at most.
* `tries_tryEach`, `explores_exploreEach`: the bounded searches end before their depth is
  used up.
* `Explores.surveyed`: what a traversal records, over any number of nodes.
* `Wired.search_exact`: both searches end, and find loops exactly where there are circles.
-/

open Relation (TransGen)

namespace SignalFlow
namespace FlowGraph

variable {R : Type} {g : FlowGraph R} {start next n : Nat}
  {path todo rest tried : List Nat} {x y z : Exploration}

/-- The search for a way back to `start` through the nodes of `todo`, which the last node
of `path` feeds. -/
inductive Tries (g : FlowGraph R) (start : NodeId) :
    List NodeId → List NodeId → List NodeId → Option (List NodeId) × List NodeId → Prop
  | nil (path tried : List NodeId) : Tries g start path [] tried (none, tried)
  | found (path rest tried : List NodeId) :
      Tries g start path (start :: rest) tried (some path, tried)
  | skip {path rest tried : List NodeId} {next : NodeId}
      {r : Option (List NodeId) × List NodeId} (hne : next ≠ start)
      (hold : next ∈ path ∨ next ∈ tried) (hrest : Tries g start path rest tried r) :
      Tries g start path (next :: rest) tried r
  | closed {path rest tried found tried' : List NodeId} {next : NodeId}
      (hne : next ≠ start) (hnew : ¬ (next ∈ path ∨ next ∈ tried))
      (hinner : Tries g start (path ++ [next]) (g.successors next) (next :: tried)
        (some found, tried')) :
      Tries g start path (next :: rest) tried (some found, tried')
  | failed {path rest tried tried' : List NodeId} {next : NodeId}
      {r : Option (List NodeId) × List NodeId} (hne : next ≠ start)
      (hnew : ¬ (next ∈ path ∨ next ∈ tried))
      (hinner : Tries g start (path ++ [next]) (g.successors next) (next :: tried)
        (none, tried'))
      (hrest : Tries g start path rest tried' r) :
      Tries g start path (next :: rest) tried r

/-- The traversal of the nodes of `todo` and of all that lies behind them, where `path`
leads to them. -/
inductive Explores (g : FlowGraph R) : List NodeId → List NodeId → Exploration →
      Exploration → Prop
  | nil (path : List NodeId) (x : Exploration) : Explores g path [] x x
  | skip {path rest : List NodeId} {next : NodeId} {x y : Exploration}
      (hdone : next ∈ x.done) (hrest : Explores g path rest x y) :
      Explores g path (next :: rest) x y
  | close {path rest : List NodeId} {next : NodeId} {x y : Exploration}
      (hdone : next ∉ x.done) (hpath : next ∈ path)
      (hrest : Explores g path rest { x with
        cycles := x.cycles ++ [path.dropWhile fun n => n != next] } y) :
      Explores g path (next :: rest) x y
  | descend {path rest : List NodeId} {next : NodeId} {x y z : Exploration}
      (hdone : next ∉ x.done) (hpath : next ∉ path)
      (hinner : Explores g (path ++ [next]) (g.successors next) x y)
      (hrest : Explores g path rest { y with done := y.done ++ [next] } z) :
      Explores g path (next :: rest) x z

theorem Tries.unique {r r' : Option (List Nat) × List Nat}
    (h : g.Tries start path todo tried r) (h' : g.Tries start path todo tried r') :
    r = r' := by
  induction h generalizing r' with
  | nil =>
      cases h'
      rfl
  | found =>
      cases h' with
      | found => rfl
      | skip hne => exact absurd rfl hne
      | closed hne => exact absurd rfl hne
      | failed hne => exact absurd rfl hne
  | skip hne hold _ ih =>
      cases h' with
      | found => exact absurd rfl hne
      | skip _ _ hrest => exact ih hrest
      | closed _ hnew => exact absurd hold hnew
      | failed _ hnew => exact absurd hold hnew
  | closed hne hnew _ ih =>
      cases h' with
      | found => exact absurd rfl hne
      | skip _ hold => exact absurd hold hnew
      | closed _ _ hinner => exact ih hinner
      | failed _ _ hinner => cases ih hinner
  | failed hne hnew _ _ ihinner ihrest =>
      cases h' with
      | found => exact absurd rfl hne
      | skip _ hold => exact absurd hold hnew
      | closed _ _ hinner => cases ihinner hinner
      | failed _ _ hinner hrest =>
          cases ihinner hinner
          exact ihrest hrest

theorem Explores.unique (h : g.Explores path todo x y)
    (h' : g.Explores path todo x z) : y = z := by
  induction h generalizing z with
  | nil =>
      cases h'
      rfl
  | skip hdone _ ih =>
      cases h' with
      | skip _ hrest => exact ih hrest
      | close hnew => exact absurd hdone hnew
      | descend hnew => exact absurd hdone hnew
  | close hdone hpath _ ih =>
      cases h' with
      | skip hold => exact absurd hold hdone
      | close _ _ hrest => exact ih hrest
      | descend _ hnew => exact absurd hpath hnew
  | descend hdone hpath _ _ ihinner ihrest =>
      cases h' with
      | skip hold => exact absurd hold hdone
      | close _ hold => exact absurd hold hpath
      | descend _ _ hinner hrest =>
          obtain rfl := ihinner hinner
          exact ihrest hrest

section Depth

/-- Different nodes, each of which feeds the next; the last one feeds all nodes of
`todo`. -/
structure Heads (g : FlowGraph R) (path todo : List Nat) : Prop where
  nodup : path.Nodup
  chain : path.IsChain g.Feeds
  path_lt : ∀ m ∈ path, m < g.nodes.length
  todo_lt : ∀ m ∈ todo, m < g.nodes.length
  feeds : ∀ last ∈ path.getLast?, ∀ m ∈ todo, g.Feeds last m

theorem Heads.tail (h : g.Heads path (next :: rest)) : g.Heads path rest where
  nodup := h.nodup
  chain := h.chain
  path_lt := h.path_lt
  todo_lt m hm := h.todo_lt m (List.mem_cons_of_mem _ hm)
  feeds last hlast m hm := h.feeds last hlast m (List.mem_cons_of_mem _ hm)

/-- The first node that is still to be searched goes onto the trail. -/
theorem Heads.push (hg : g.Wired) (h : g.Heads path (next :: rest)) (hnew : next ∉ path) :
    g.Heads (path ++ [next]) (g.successors next) where
  nodup := List.nodup_append_comm.mp (List.nodup_cons.mpr ⟨hnew, h.nodup⟩)
  chain := List.isChain_append.mpr ⟨h.chain, List.isChain_singleton next,
      fun last hlast m hm => by
    obtain rfl : next = m := by simpa using hm
    exact h.feeds last hlast next (by simp)⟩
  path_lt m hm := by
    rcases List.mem_append.mp hm with hm | hm
    · exact h.path_lt m hm
    · exact List.mem_singleton.mp hm ▸ h.todo_lt next (by simp)
  todo_lt m hm := (hg.lt_of_feeds (hg.mem_successors.mp hm)).2
  feeds last hlast m hm := by
    obtain rfl : next = last := by simpa using hlast
    exact hg.mem_successors.mp hm

theorem Heads.length_lt (h : g.Heads path (next :: rest)) (hnew : next ∉ path) :
    path.length < g.nodes.length :=
  Definition.length_lt_of_nodup h.nodup h.path_lt (h.todo_lt next (by simp)) hnew

theorem tries_of_descend
    {descend : NodeId → List NodeId → List NodeId → Option (List NodeId) × List NodeId}
    (hdescend : ∀ next rest tried, g.Heads path (next :: rest) → next ∉ path →
      g.Tries start (path ++ [next]) (g.successors next) (next :: tried)
        (descend next (path ++ [next]) (next :: tried)))
    (h : g.Heads path todo) :
    g.Tries start path todo tried (tryEach descend start path todo tried) := by
  induction todo generalizing tried with
  | nil => exact .nil path tried
  | cons next rest ih =>
      unfold tryEach
      split
      · next heq =>
          obtain rfl : next = start := by simpa using heq
          exact .found path rest tried
      · next hne =>
          have hne : next ≠ start := by simpa using hne
          split
          · next hold =>
              exact .skip hne (by simpa using hold) (ih h.tail)
          · next hnew =>
              have hnew : ¬ (next ∈ path ∨ next ∈ tried) := by simpa using hnew
              have hinner := hdescend next rest tried h fun hmem => hnew (Or.inl hmem)
              split
              · next heq =>
                  rw [heq] at hinner
                  exact .closed hne hnew hinner
              · next heq =>
                  rw [heq] at hinner
                  exact .failed hne hnew hinner (ih h.tail)

/-- The depth of a search is not used up, since some node is not on the trail. -/
theorem tries_tryEach (hg : g.Wired) {depth : Nat} (h : g.Heads path todo)
    (hdepth : g.nodes.length ≤ path.length + depth) :
    g.Tries start path todo tried
      (tryEach (g.extend start depth) start path todo tried) := by
  induction depth generalizing path todo tried with
  | zero =>
      refine tries_of_descend (fun next rest tried hheads hnew => ?_) h
      exact absurd (hheads.length_lt hnew) (by omega)
  | succ depth ih =>
      refine tries_of_descend (fun next rest tried hheads hnew => ?_) h
      refine ih (hheads.push hg hnew) ?_
      simp only [List.length_append, List.length_singleton]
      omega

theorem explores_of_descend {descend : NodeId → List NodeId → Exploration → Exploration}
    (hdescend : ∀ next rest x, g.Heads path (next :: rest) → next ∉ path →
      ∃ y, g.Explores (path ++ [next]) (g.successors next) x y ∧
        descend next path x = { y with done := y.done ++ [next] })
    (h : g.Heads path todo) :
    g.Explores path todo x (exploreEach descend path todo x) := by
  induction todo generalizing x with
  | nil => exact .nil path x
  | cons next rest ih =>
      unfold exploreEach
      split
      · next hdone => exact .skip (by simpa using hdone) (ih h.tail)
      · next hdone =>
          have hdone : next ∉ x.done := by simpa using hdone
          split
          · next hpath => exact .close hdone (by simpa using hpath) (ih h.tail)
          · next hpath =>
              have hpath : next ∉ path := by simpa using hpath
              obtain ⟨y, hinner, heq⟩ := hdescend next rest x h hpath
              rw [heq]
              exact .descend hdone hpath hinner (ih h.tail)

/-- The depth of a traversal is not used up, since some node is not on the trail. -/
theorem explores_exploreEach (hg : g.Wired) {depth : Nat} (h : g.Heads path todo)
    (hdepth : g.nodes.length ≤ path.length + depth) :
    g.Explores path todo x (exploreEach (g.explore depth) path todo x) := by
  induction depth generalizing path todo x with
  | zero =>
      refine explores_of_descend (fun next rest x hheads hnew => ?_) h
      exact absurd (hheads.length_lt hnew) (by omega)
  | succ depth ih =>
      refine explores_of_descend (fun next rest x hheads hnew =>
        ⟨_, ih (hheads.push hg hnew) ?_, rfl⟩) h
      simp only [List.length_append, List.length_singleton]
      omega

theorem Wired.heads_nodes (hg : g.Wired) : g.Heads [] (g.nodes.map Node.id) where
  nodup := List.nodup_nil
  chain := List.isChain_nil
  path_lt := by simp
  todo_lt m hm := by simpa [hg.map_id] using hm
  feeds := by simp

/-- Visiting the nodes of a graph in turn is the traversal of all of them, with nothing on
the trail. -/
theorem foldl_exploreNode (g : FlowGraph R) (nodes : List (Node R)) (x : Exploration) :
    nodes.foldl g.exploreNode x = exploreEach (g.explore g.nodes.length) []
      (nodes.map Node.id) x := by
  induction nodes generalizing x with
  | nil => rfl
  | cons node nodes ih =>
      rw [List.foldl_cons, ih, List.map_cons, exploreEach, exploreNode]
      split <;> rfl

end Depth

section Survey

/-- What is recorded are loops; and while nothing is, nodes stand behind all that they
feed. -/
structure Surveyed (g : FlowGraph R) (x : Exploration) : Prop where
  loopAt : ∀ members ∈ x.cycles, ∃ n, g.LoopAt n members
  arranged : x.cycles = [] → Arranged (fun m n => g.Feeds n m) x.done

/-- The part of a trail from a node that the last one feeds. -/
theorem Heads.loopAt (h : g.Heads path (next :: rest)) (hpath : next ∈ path) :
    g.LoopAt next (path.dropWhile fun n => n != next) := by
  obtain ⟨before, after, rfl, hdrop⟩ := exists_eq_append_dropWhile hpath
  rw [hdrop]
  obtain ⟨last, hlast⟩ : ∃ last, (next :: after).getLast? = some last :=
    ⟨_, List.getLast?_eq_some_getLast (by simp)⟩
  refine ⟨last, ⟨(List.nodup_append.mp h.nodup).2.1, (List.isChain_append.mp h.chain).2.1,
    rfl, hlast, ?_⟩, ?_⟩
  · exact fun m hm => h.path_lt m (List.mem_append_right _ hm)
  · exact h.feeds last (by simpa using hlast) next (by simp)

/-- What a traversal keeps and adds: nothing is forgotten, and if nothing is recorded it is
done with all nodes. -/
structure Advanced (todo : List Nat) (x y : Exploration) : Prop where
  done : x.done ⊆ y.done
  cycles : x.cycles <+: y.cycles
  todo_done : y.cycles = [] → todo ⊆ y.done

theorem Explores.advanced (h : g.Explores path todo x y) : Advanced todo x y := by
  induction h with
  | nil path x => exact ⟨fun _ hm => hm, List.prefix_refl _, fun _ => List.nil_subset _⟩
  | skip hdone _ ih =>
      refine ⟨ih.done, ih.cycles, fun hnil =>
        List.cons_subset.mpr ⟨ih.done hdone, ih.todo_done hnil⟩⟩
  | close hdone hpath _ ih =>
      refine ⟨ih.done, (List.prefix_append _ _).trans ih.cycles, fun hnil => ?_⟩
      -- a loop has been recorded, and stays recorded
      have hprefix := ih.cycles
      rw [hnil, List.prefix_nil] at hprefix
      simp at hprefix
  | descend hdone hpath _ _ ihinner ihrest =>
      refine ⟨fun m hm => ihrest.done (List.mem_append_left _ (ihinner.done hm)),
        ihinner.cycles.trans ihrest.cycles,
        fun hnil => List.cons_subset.mpr ⟨ihrest.done (by simp), ihrest.todo_done hnil⟩⟩

/-- What a traversal records are loops, and it arranges the nodes if it records none. -/
theorem Explores.surveyed (hg : g.Wired) (h : g.Explores path todo x y)
    (hheads : g.Heads path todo) (hx : g.Surveyed x) : g.Surveyed y := by
  induction h with
  | nil => exact hx
  | skip _ _ ih => exact ih hheads.tail hx
  | close _ hpath _ ih =>
      refine ih hheads.tail ⟨fun members hmembers => ?_, by simp⟩
      rcases List.mem_append.mp hmembers with hmembers | hmembers
      · exact hx.loopAt members hmembers
      · rw [List.mem_singleton.mp hmembers]
        exact ⟨_, hheads.loopAt hpath⟩
  | descend _ hpath hinner _ ihinner ihrest =>
      have hy := ihinner (hheads.push hg hpath) hx
      -- the node is done only after the descent from it, which is done with all that it
      -- feeds
      refine ihrest hheads.tail ⟨hy.loopAt, fun hnil =>
        (hy.arranged hnil).snoc fun m hm => ?_⟩
      exact hinner.advanced.todo_done hnil (hg.mem_successors.mpr hm)

/-- The traversal of a whole graph, without a bound. -/
theorem Wired.explores_nodes (hg : g.Wired) :
    g.Explores [] (g.nodes.map Node.id) ⟨[], []⟩
      (g.nodes.foldl g.exploreNode ⟨[], []⟩) := by
  rw [foldl_exploreNode]
  exact explores_exploreEach hg hg.heads_nodes (by simp)

/-- The traversal of a whole graph records loops only, and some loop if there is a
circle. -/
theorem Wired.cycles_cases (hg : g.Wired) :
    (∀ members ∈ g.cycles, ∃ n, g.LoopAt n members) ∧
      (g.cycles = [] ↔ ∀ n, ¬ TransGen g.Feeds n n) := by
  have hsurveyed := hg.explores_nodes.surveyed hg hg.heads_nodes ⟨by simp, fun _ =>
    arranged_nil _⟩
  refine ⟨hsurveyed.loopAt, fun hnil n hloop => ?_, fun hnone => ?_⟩
  · obtain ⟨m, hm, _⟩ := Relation.TransGen.head'_iff.mp hloop
    have hdone : n ∈ (g.nodes.foldl g.exploreNode ⟨[], []⟩).done := by
      refine hg.explores_nodes.advanced.todo_done hnil ?_
      rw [hg.map_id, List.mem_range]
      exact (hg.lt_of_feeds hm).1
    exact (hsurveyed.arranged hnil).not_transGen hdone (Relation.transGen_swap.mpr hloop)
  · refine List.eq_nil_iff_forall_not_mem.mpr fun members hmembers => ?_
    obtain ⟨n, hloop⟩ := hsurveyed.loopAt members hmembers
    exact hnone n (hloop.transGen hloop.mem)

end Survey

section Exactness

theorem Wired.cycleThrough_ne_nil_iff (hg : g.Wired) (hn : n < g.nodes.length) :
    g.cycleThrough n ≠ [] ↔ TransGen g.Feeds n n := by
  rcases hg.cycleThrough_cases hn with hloop | ⟨hnil, hnone⟩
  · exact iff_of_true (List.ne_nil_of_mem hloop.mem) (hloop.transGen hloop.mem)
  · exact iff_of_false (fun hne => hne hnil) hnone

/-- The search from a node, without a bound. -/
theorem Wired.tries_extend (hg : g.Wired) (hn : n < g.nodes.length) :
    g.Tries n [n] (g.successors n) [] (g.extend n g.nodes.length n [n] []) := by
  have hstart : g.Heads [] [n] :=
    ⟨List.nodup_nil, List.isChain_nil, by simp, by simpa using hn, by simp⟩
  obtain ⟨depth, hdepth⟩ : ∃ depth, g.nodes.length = depth + 1 :=
    Nat.exists_eq_add_one.mpr (Nat.zero_lt_of_lt hn)
  rw [hdepth]
  exact tries_tryEach hg (hstart.push hg List.not_mem_nil)
    (by simp only [List.length_singleton]; omega)

/-- **Loops are found exactly.**  In a wired graph, such as all operations build, the
search from a node finds something if and only if the node is on a circle, and then a loop
that starts with it; the nodes on circles are listed; the traversal records loops only, and
none if and only if there is no circle.  Without a bound on the depth, either search has a
result, and it is the one that is given. -/
theorem Wired.search_exact (hg : g.Wired) :
    (∀ n < g.nodes.length,
      (g.cycleThrough n ≠ [] ↔ TransGen g.Feeds n n) ∧
      (g.cycleThrough n ≠ [] → g.LoopAt n (g.cycleThrough n)) ∧
      ∃ r, (∀ r', g.Tries n [n] (g.successors n) [] r' ↔ r' = r) ∧
        g.cycleThrough n = r.1.getD []) ∧
    (∀ n, n ∈ g.nodesOnCycles ↔ TransGen g.Feeds n n) ∧
    (∀ members ∈ g.cycles, ∃ n, g.LoopAt n members) ∧
    (g.cycles = [] ↔ ∀ n, ¬ TransGen g.Feeds n n) ∧
    ∃ x, (∀ x', g.Explores [] (g.nodes.map Node.id) ⟨[], []⟩ x' ↔ x' = x) ∧
      g.cycles = x.cycles := by
  obtain ⟨hloops, hnil⟩ := hg.cycles_cases
  refine ⟨fun n hn => ⟨hg.cycleThrough_ne_nil_iff hn, fun hne => ?_, _, fun r' => ?_, rfl⟩,
    fun n => ?_,
    hloops, hnil, _, fun x' => ?_, rfl⟩
  · exact (hg.cycleThrough_cases hn).resolve_right fun hnone => hne hnone.1
  · exact ⟨fun h => h.unique (hg.tries_extend hn), fun h => h ▸ hg.tries_extend hn⟩
  · rw [nodesOnCycles, hg.map_id, List.mem_filter, List.mem_range]
    constructor
    · rintro ⟨hn, hfound⟩
      exact (hg.cycleThrough_ne_nil_iff hn).mp (by simpa using hfound)
    · intro hloop
      obtain ⟨m, hm, _⟩ := Relation.TransGen.head'_iff.mp hloop
      have hn := (hg.lt_of_feeds hm).1
      exact ⟨hn, by simpa using (hg.cycleThrough_ne_nil_iff hn).mpr hloop⟩
  · exact ⟨fun h => h.unique hg.explores_nodes, fun h => h ▸ hg.explores_nodes⟩

/-- Two circles of three blocks that share an edge, a block that feeds itself twice, and
one on no circle, which the search from the first node tries in vain. -/
def overlapping : List (Operation Float) :=
  [.insertNode 1, .insertNode 2, .insertNode 3, .insertNode 4, .insertNode 5,
    .insertEdge 1 ⟨0, 0⟩ ⟨1, 0⟩ "a", .insertEdge 2 ⟨1, 0⟩ ⟨2, 0⟩ "b",
    .insertEdge 3 ⟨2, 0⟩ ⟨4, 0⟩ "c",
    .insertEdge 4 ⟨1, 0⟩ ⟨3, 0⟩ "d", .insertEdge 5 ⟨3, 0⟩ ⟨0, 0⟩ "e",
    .insertEdge 6 ⟨2, 0⟩ ⟨0, 1⟩ "f",
    .insertEdge 7 ⟨3, 0⟩ ⟨3, 1⟩ "g", .insertEdge 8 ⟨3, 0⟩ ⟨3, 2⟩ "h"]

theorem search_exact_overlapping :
    (Construction.start.performAll overlapping).graph.Wired ∧
      (Construction.start.performAll overlapping).graph.LoopAt 0 [0, 1, 2] ∧
      (Construction.start.performAll overlapping).graph.cycles =
        [[0, 1, 2], [0, 1, 3], [3]] ∧
      (∀ members ∈ (Construction.start.performAll overlapping).graph.cycles,
        ∃ n, (Construction.start.performAll overlapping).graph.LoopAt n members) ∧
      ¬ TransGen (Construction.start.performAll overlapping).graph.Feeds 4 4 := by
  have hallowed : (Construction.start : Construction Float).AllowsAll overlapping := by
    decide
  have hwired := (Construction.sound_start.performAll hallowed).indexed.wired
  obtain ⟨hsearch, hnodes, hloops, _⟩ := hwired.search_exact
  have hfound : (Construction.start.performAll overlapping).graph.cycleThrough 0 =
    [0, 1, 2] := by decide
  have hloop := (hsearch 0 (by decide)).2.1 (by rw [hfound]; decide)
  rw [hfound] at hloop
  exact ⟨hwired, hloop, by decide, hloops, fun h => absurd ((hnodes 4).mpr h) (by decide)⟩

end Exactness

end FlowGraph
end SignalFlow
