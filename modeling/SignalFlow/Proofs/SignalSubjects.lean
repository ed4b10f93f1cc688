import SignalFlow.Assumption.Reader
import SignalFlow.Assumption.Seeding
import SignalFlow.Proofs.Depiction
import SignalFlow.Proofs.FactMeaning
import SignalFlow.Proofs.Writing

/-!
# Which signal a fact is about

A signal fact is used as a bound of the variable of the edge it is found on.  All that
propagation writes is about this variable: facts are retargeted to it, and the facts that
say nothing name it.  Assumptions are written as they are: an atom that names a variable is
about this variable, on whatever edge it is.

**Results.**
* `Edge.ownFacts_addFacts`: what added facts have to be about.
* `Assumptions.seed_eq`: seeding adds to every edge the statements about its pin.
* `Propagation.ownFacts_iff`: facts are about the signals they are found on exactly if no
  assumption about a signal names another variable.
-/

namespace SignalFlow

variable {R : Type}

section Subjects

/-- All constraints of a signal fact are about the term. -/
def Fact.Concerns (t : Term R) (p : Fact R) : Prop :=
  ∀ k ∈ p.items, k.subject = t

/-- The signal facts of an edge are about its variable. -/
def Edge.OwnFacts (e : Edge R) : Prop :=
  ∀ p ∈ e.facts, p.Concerns e.term

theorem Fact.concerns_retarget (t : Term R) (p : Fact R) : (p.retarget t).Concerns t := by
  cases p with
  | single k => simp [Concerns, retarget, items]
  | boundary b => exact b.about_retarget t
  | discrete bs =>
      intro k hk
      obtain ⟨b', hb', hkb⟩ := List.mem_flatMap.mp hk
      obtain ⟨b, _, rfl⟩ := List.mem_map.mp hb'
      exact b.about_retarget t k hkb
  | control gs => simp [Concerns, retarget, items]
  | data rs => simp [Concerns, retarget, items]

theorem Fact.concerns_noInformation (x : String) (k : Category) :
    (Fact.noInformation x k : Fact R).Concerns (.var x) := by
  cases k <;> simp [Concerns, noInformation, items, Boundary.unbounded, Constraint.subject]

variable [BEq R]

theorem Term.eq_var_of_beq {t : Term R} {x : String} (h : (t == .var x) = true) :
    t = .var x := by
  cases t with
  | var y => exact congrArg Term.var (eq_of_beq (α := String) h)
  | _ => cases h

theorem Constraint.subject_beq_of_beq {k k' : Constraint R} (h : (k == k') = true) :
    (k.subject == k'.subject) = true := by
  cases k with
  | interval i =>
      cases k' with
      | interval i' =>
          have hparts :
            (i.term == i'.term && (i.lower == i'.lower && i.upper == i'.upper)) = true := h
          exact (Bool.and_eq_true_iff.mp hparts).1
      | relation r => cases h
  | relation r =>
      cases k' with
      | interval i => cases h
      | relation r' =>
          have hparts : (r.lhs == r'.lhs && (r.op == r'.op && r.rhs == r'.rhs)) = true := h
          exact (Bool.and_eq_true_iff.mp hparts).1

/-- Constraints of equal facts have equal partners. -/
theorem Fact.exists_item_of_beq {p q : Fact R} (h : (p == q) = true) {k : Constraint R}
    (hk : k ∈ p.items) : ∃ k' ∈ q.items, (k == k') = true := by
  cases p with
  | single k₁ =>
      cases q with
      | single k₂ =>
          obtain rfl := List.mem_singleton.mp hk
          exact ⟨k₂, List.mem_singleton_self k₂, h⟩
      | _ => cases h
  | boundary b =>
      cases q with
      | boundary b' => exact exists_mem_beq h hk
      | _ => cases h
  | discrete bs =>
      cases q with
      | discrete bs' =>
          obtain ⟨b, hb, hkb⟩ := List.mem_flatMap.mp hk
          obtain ⟨b', hb', hbb'⟩ := exists_mem_beq h hb
          obtain ⟨k', hk', hkk'⟩ := exists_mem_beq hbb' hkb
          exact ⟨k', List.mem_flatMap.mpr ⟨b', hb', hk'⟩, hkk'⟩
      | _ => cases h
  | control gs => cases hk
  | data rs => cases hk

theorem Fact.Concerns.of_beq {p q : Fact R} {x : String} (hq : q.Concerns (.var x))
    (h : (p == q) = true) : p.Concerns (.var x) := by
  intro k hk
  obtain ⟨k', hk', hkk'⟩ := Fact.exists_item_of_beq h hk
  have hsubject := Constraint.subject_beq_of_beq hkk'
  rw [hq k' hk'] at hsubject
  exact Term.eq_var_of_beq hsubject

end Subjects

variable [Scalar R]

namespace Edge

theorem term_addFact (e : Edge R) (p : Fact R) : (e.addFact p).term = e.term := by
  have hbare : (e.addFact p).bare.term = e.bare.term :=
    congrArg Edge.term (e.bare_addFact p)
  exact hbare

/-- An added fact has to be about the edge, also if an equal one is there already. -/
theorem ownFacts_addFact (e : Edge R) (p : Fact R) : (e.addFact p).OwnFacts ↔
      e.OwnFacts ∧ p.Concerns e.term := by
  unfold OwnFacts
  rw [term_addFact, facts_addFact]
  constructor
  · intro h
    refine ⟨fun q hq => h q (mem_insertLast_of_mem hq), ?_⟩
    obtain ⟨q, hq, rfl | hpq⟩ := exists_mem_insertLast_self e.facts p
    · exact h q hq
    · exact (h q hq).of_beq hpq
  · rintro ⟨hfacts, hp⟩ q hq
    rcases mem_or_mem_of_mem_insertLast hq with hq | rfl
    · exact hfacts q hq
    · exact hp

theorem ownFacts_addFacts (e : Edge R) (ps : List (Fact R)) :
    (e.addFacts ps).OwnFacts ↔ e.OwnFacts ∧ ∀ p ∈ ps, p.Concerns e.term := by
  unfold addFacts
  induction ps generalizing e with
  | nil => simp
  | cons p ps ih =>
      rw [List.foldl_cons, ih, ownFacts_addFact, term_addFact,
        List.forall_mem_cons, and_assoc]

end Edge

namespace FlowGraph

variable {g g' : FlowGraph R}

/-- What propagation writes to an edge is about its variable. -/
theorem Write.ownFacts (h : Write g g') (hg : ∀ e ∈ g.edges, e.OwnFacts) :
    ∀ e ∈ g'.edges, e.OwnFacts := by
  cases h with
  | fact i t p ht =>
      refine forall_mem_modify hg fun e he hown => (e.ownFacts_addFact _).mpr ⟨hown, ?_⟩
      rw [ht e he]
      exact p.concerns_retarget e.term
  | baseline i =>
      refine forall_mem_modify hg fun e _ hown =>
        (e.ownFacts_addFacts _).mpr ⟨hown, fun p hp => ?_⟩
      obtain ⟨k, _, rfl⟩ := List.mem_map.mp hp
      exact Fact.concerns_noInformation e.var k
  | attach n p => exact hg
  | consume i position =>
      exact forall_mem_modify hg fun _ _ hown => hown
  | consumeAll i =>
      exact forall_mem_modify hg fun _ _ hown => hown

omit [Scalar R] in
/-- Facts that are about their signals in the end were so from the start. -/
theorem Extends.ownFacts (h : g.Extends g') (hg' : ∀ e ∈ g'.edges, e.OwnFacts) :
    ∀ e ∈ g.edges, e.OwnFacts := by
  intro e he p hp
  obtain ⟨i, hi⟩ := List.mem_iff_getElem?.mp he
  obtain ⟨e', he', hbare, hfacts⟩ := h.exists_grown hi
  have hterm : e'.bare.term = e.bare.term := congrArg Edge.term hbare
  have hown : p.Concerns e'.term := hg' e' (List.mem_of_getElem? he') p (hfacts.subset hp)
  exact hterm ▸ hown

end FlowGraph

section Assumptions

/-- A statement about a signal names no other variable. -/
def Statement.Own (x : String) : Statement R → Prop
  | .signal atoms => ∀ a ∈ atoms, ∀ y ∈ a.subject, y = x
  | .control _ _ => True

omit [Scalar R] in
theorem Atom.subject_constraint (a : Atom R) (t : Term R) :
    (a.constraint t).subject = (a.subject.map Term.var).getD t := by
  unfold Atom.constraint
  cases a.subject <;> cases a.condition <;> rfl

theorem Statement.concerns_fact_iff (s : Statement R) (x : String) :
    (s.fact (.var x)).Concerns (.var x) ↔ s.Own x := by
  cases s with
  | signal atoms =>
      simp only [Fact.Concerns, Statement.fact, Fact.items, List.forall_mem_map,
        Atom.subject_constraint, Own]
      refine forall₂_congr fun a _ => ?_
      cases a.subject <;> simp
  | control conditions consequences =>
      simp [Fact.Concerns, Statement.fact, Fact.items, Own]

/-- The statements about the pin that an edge leaves from, in the order in which they are
written. -/
def Assumptions.statementsAt (as : Assumptions R) (d : Diagram) (g : FlowGraph R)
    (e : Edge R) : List (Statement R) :=
  as.flatMap fun a =>
    if Assumptions.selectedNode? d g a.selector = some e.source.node then
      (a.pins.filter fun p => e.source.pin + 1 == p.index).flatMap PinAssumption.statements
    else []

theorem Edge.bare_assume (ss : List (Statement R)) (e : Edge R) :
    (e.assume ss).bare = e.bare :=
  e.bare_addFacts _

theorem Edge.assume_assume (ss ss' : List (Statement R)) (e : Edge R) :
    (e.assume ss).assume ss' = e.assume (ss ++ ss') := by
  have hterm : (e.assume ss).bare.term = e.bare.term :=
    congrArg Edge.term (e.bare_assume ss)
  have hterm' : (e.assume ss).term = e.term := hterm
  unfold assume at hterm' ⊢
  rw [hterm', List.map_append]
  simp only [addFacts, List.foldl_append]

namespace Assumptions

variable {g : FlowGraph R}

theorem seedPin_eq (h : g.Indexed) (n : NodeId) (p : PinAssumption R) :
    seedPin n g p = g.mapEdges fun e =>
      e.assume (if e.source.node = n ∧ e.source.pin + 1 = p.index then p.statements
        else []) := by
  have hfold := h.foldl_modifyEdge n (fun e => e.source.pin + 1 == p.index) fun _ =>
    Edge.assume p.statements
  unfold seedPin FlowGraph.edgesFrom
  rw [List.foldl_map]
  refine hfold.trans (congrArg g.mapEdges (funext fun e => ?_))
  by_cases hn : e.source.node = n <;> by_cases hp : e.source.pin + 1 = p.index <;>
    simp [hn, hp] <;> rfl

/-- Assuming something about edges, again and again. -/
theorem mapEdges_assume_mapEdges (g : FlowGraph R) {ss ss' : Edge R → List (Statement R)}
    (hss' : ∀ e e' : Edge R, e.bare = e'.bare → ss' e = ss' e') :
    (g.mapEdges fun e => e.assume (ss e)).mapEdges (fun e => e.assume (ss' e)) =
      g.mapEdges fun e => e.assume (ss e ++ ss' e) := by
  simp only [FlowGraph.mapEdges, List.map_map, Function.comp_def]
  congr 1
  refine List.map_congr_left fun e _ => ?_
  rw [hss' _ e (e.bare_assume (ss e)), Edge.assume_assume]

theorem foldl_seedPin_eq (h : g.Indexed) (n : NodeId) (pins : List (PinAssumption R)) :
    pins.foldl (seedPin n) g = g.mapEdges fun e =>
      e.assume (if e.source.node = n then
        (pins.filter fun p => e.source.pin + 1 == p.index).flatMap PinAssumption.statements
          else []) := by
  induction pins generalizing g with
  | nil => simp [FlowGraph.mapEdges, Edge.assume, Edge.addFacts]
  | cons p pins ih =>
      have hindexed : (seedPin n g p).Indexed := by
        rw [seedPin_eq h]
        exact h.of_layout (FlowGraph.layout_mapEdges (fun e => e.bare_assume _) g)
      rw [List.foldl_cons, ih hindexed, seedPin_eq h, mapEdges_assume_mapEdges]
      · refine congrArg g.mapEdges (funext fun e => congrArg (fun ss => e.assume ss) ?_)
        by_cases hn : e.source.node = n <;> by_cases hp : e.source.pin + 1 = p.index <;>
          simp [hn, hp]
      · intro e e' hbare
        rw [Edge.source_of_bare hbare]

omit [Scalar R] in
/-- The nodes that are selected are a matter of the nodes alone. -/
theorem selectedNode?_mapEdges (d : Diagram) (g : FlowGraph R) (f : Edge R → Edge R)
    (s : Selector) : selectedNode? d (g.mapEdges f) s = selectedNode? d g s := by
  unfold selectedNode? FlowGraph.nodeOf? FlowGraph.mapEdges
  rfl

theorem seedBlock_eq (h : g.Indexed) (d : Diagram) (a : BlockAssumption R) :
    seedBlock d g a = g.mapEdges fun e => e.assume (statementsAt [a] d g e) := by
  unfold seedBlock
  cases hselected : selectedNode? d g a.selector with
  | none => simp [statementsAt, hselected, FlowGraph.mapEdges, Edge.assume, Edge.addFacts]
  | some n =>
      refine (foldl_seedPin_eq h n a.pins).trans (congrArg g.mapEdges (funext fun e => ?_))
      simp [statementsAt, hselected, eq_comm]

/-- Seeding adds to every edge the statements about its pin. -/
theorem seed_eq (h : g.Indexed) (as : Assumptions R) (d : Diagram) :
    as.seed d g = g.mapEdges fun e => e.assume (as.statementsAt d g e) := by
  unfold seed
  induction as generalizing g with
  | nil => simp [statementsAt, FlowGraph.mapEdges, Edge.assume, Edge.addFacts]
  | cons a as ih =>
      have hindexed : (seedBlock d g a).Indexed := by
        rw [seedBlock_eq h]
        exact h.of_layout (FlowGraph.layout_mapEdges (fun e => e.bare_assume _) g)
      rw [List.foldl_cons, ih hindexed, seedBlock_eq h, mapEdges_assume_mapEdges]
      · refine congrArg g.mapEdges (funext fun e => congrArg (fun ss => e.assume ss) ?_)
        simp [statementsAt, selectedNode?_mapEdges]
      · intro e e' hbare
        unfold statementsAt
        rw [Edge.source_of_bare hbare]

end Assumptions

end Assumptions

namespace Propagation

/-- **Facts about their own signals.**  Whatever is assumed about a diagram: after seeding
and propagation, every signal fact is about the variable of the edge it is found on, in all
of its disjuncts, exactly if no statement about a signal names another variable. -/
theorem ownFacts_iff (c : Setting) (order : RunOrder) (as : Assumptions R) :
    (∀ e ∈ (run c order (as.seed c.diagram (.ofDiagram c.diagram order))).graph.edges,
      e.OwnFacts) ↔
      ∀ e ∈ (FlowGraph.ofDiagram c.diagram order : FlowGraph R).edges,
        ∀ s ∈ as.statementsAt c.diagram (.ofDiagram c.diagram order) e, s.Own e.var := by
  have hindexed : (FlowGraph.ofDiagram c.diagram order : FlowGraph R).Indexed :=
    .ofDiagram c.diagram order
  have hblank : (FlowGraph.ofDiagram c.diagram order : FlowGraph R).Blank :=
    .ofDiagram c.diagram order
  generalize (FlowGraph.ofDiagram c.diagram order : FlowGraph R) = g at hindexed hblank ⊢
  have hseed := Assumptions.seed_eq hindexed as c.diagram
  have hwired : (as.seed c.diagram g).Wired := by
    rw [hseed]
    exact (hindexed.of_layout
      (FlowGraph.layout_mapEdges (fun e => e.bare_assume _) g)).wired
  have hwrites := writes_run c order hwired
  have hpropagated : (∀ e ∈ (run c order (as.seed c.diagram g)).graph.edges, e.OwnFacts) ↔
      ∀ e ∈ (as.seed c.diagram g).edges, e.OwnFacts :=
    ⟨hwrites.extends.ownFacts, hwrites.invariant (P := fun g => ∀ e ∈ g.edges, e.OwnFacts)
      fun _ _ hwrite => hwrite.ownFacts⟩
  rw [hpropagated, hseed, FlowGraph.mapEdges, List.forall_mem_map]
  refine forall₂_congr fun e he => ?_
  have hnone : e.OwnFacts := by simp [Edge.OwnFacts, hblank.edges e he]
  rw [Edge.assume, Edge.ownFacts_addFacts, List.forall_mem_map]
  exact ⟨fun h s hs => (s.concerns_fact_iff e.var).mp (h.2 s hs),
    fun h => ⟨hnone, fun s hs => (s.concerns_fact_iff e.var).mpr (h s hs)⟩⟩

/-- A divided signal. -/
def quotient : Diagram where
  name := "quotient"
  blocks := [⟨1, "A", "Inport", 0, 1, []⟩, ⟨2, "Q", "Product", 1, 1, [("Inputs", "/")]⟩]
  signals := [⟨1, ⟨1, 0⟩, ⟨2, 0⟩⟩]

/-- A bound that is stated at the output of `A`, about another variable. -/
def foreignBound : String :=
  "<invariants><block id=\"1\"><port index=\"1\">" ++
    "<interval term=\"B_out\" lower=\"1\"/></port></block></invariants>"

/-- The graph of the quotient after seeding and propagation. -/
def quotientGraph (as : Assumptions Float) : FlowGraph Float :=
  (run ⟨quotient, .builtin, {}⟩ quotient.runOrder
    (as.seed quotient (.ofDiagram quotient quotient.runOrder))).graph

/-- The document is accepted; its bound is found on the edge of `A` and is about `B_out`;
and it settles that the divisor `A_out` is not zero, which is an obligation otherwise. -/
theorem foreignBound_settles_divisor :
    ∃ as : Assumptions Float, Assumptions.read foreignBound = .ok as ∧
      ¬ (∀ e ∈ (quotientGraph as).edges, e.OwnFacts) ∧
      ((quotientGraph as).withObligations (Oracle.interval 64) {} quotient).obligations =
        [] ∧
      ((quotientGraph []).withObligations (Oracle.interval 64) {} quotient).obligations ≠
        [] := by
  have hread : ((Assumptions.read foreignBound : Except _ (Assumptions Float)).toOption.any
      fun as =>
      ((quotientGraph as).edges.any fun e => e.facts.any fun p => p.items.any fun k =>
        !(k.subject == e.term)) &&
        ((quotientGraph as).withObligations
            (Oracle.interval 64) {} quotient).obligations.isEmpty) = true := by
    decide +kernel
  have hobligation : ((quotientGraph []).withObligations
      (Oracle.interval 64) {} quotient).obligations.isEmpty = false := by
    decide +kernel
  obtain ⟨as, has, hforeign⟩ := (Option.any_eq_true _ _).mp hread
  rw [Bool.and_eq_true, List.isEmpty_iff] at hforeign
  refine ⟨as, ?_, fun hown => ?_, hforeign.2, fun hnil => ?_⟩
  · cases hdocument : (Assumptions.read foreignBound : Except _ (Assumptions Float)) with
    | error fault => simp [hdocument, Except.toOption] at has
    | ok as' => simpa [hdocument, Except.toOption] using has
  · obtain ⟨e, he, hfact⟩ := List.any_eq_true.mp hforeign.1
    obtain ⟨p, hp, hitem⟩ := List.any_eq_true.mp hfact
    obtain ⟨k, hk, hne⟩ := List.any_eq_true.mp hitem
    have hself : ((Term.var e.var : Term Float) == .var e.var) = true :=
      beq_self_eq_true e.var
    rw [hown e he p hp k hk, Edge.term, hself] at hne
    cases hne
  · rw [hnil] at hobligation
    cases hobligation

end Propagation

end SignalFlow
