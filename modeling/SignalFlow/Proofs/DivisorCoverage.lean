import SignalFlow.Encoding.Block
import SignalFlow.Proofs.BlockMeaning
import SignalFlow.Proofs.DerivedObligations
import SignalFlow.Proofs.SignalSubjects

/-!
# Divisors and obligations

The encoding of a product divides by the terms at its divisor inputs.  For every such input
that is connected, the divisor has to be shown not to be zero, or a fact on the edge rules
zero out.  The two are found in different ways: encodings look up the signal in the
diagram, and obligations look up the edge in the graph.

An input that is not connected has no edge.  The encoding divides by a variable of its own,
about which nothing is known, and there is no obligation.  The same can happen to a
connected input whose signal shares its identifier with another one, as only one of them
has an edge.

**Results.**
* `Encoding.mem_denominators_product`: what the encoding of a product divides by.
* `FlowGraph.exists_inputEdge`, `FlowGraph.inputEdge?_eq_none`: inputs with and without an
  edge.
* `Obligation.exists_edge_of_nonzero`: divisors in obligations are variables of edges.
* `Obligation.divisors_covered`: which divisors are covered, and which are not.
-/

namespace SignalFlow

variable {R : Type} [Scalar R]

section Names

/-- The last character of a name that is not a digit. -/
def lastLetter? (x : String) : Option Char :=
  (x.toList.reverse.dropWhile Char.isDigit).head?

theorem lastLetter?_append_toString (x : String) (n : Nat) :
    lastLetter? (x ++ toString n) = lastLetter? x := by
  have hdigits : ∀ c ∈ (toString n).toList.reverse, c.isDigit = true := by
    intro c hc
    have hmem : c ∈ Nat.toDigits 10 n := by
      rw [List.mem_reverse] at hc
      exact Nat.toList_repr ▸ hc
    exact Nat.isDigit_of_mem_toDigits (by decide) (by decide) hmem
  rw [lastLetter?, String.toList_append, List.reverse_append,
    List.dropWhile_append_of_pos hdigits, lastLetter?]

theorem lastLetter?_outputVar (b : Block) (pin : Nat) :
    lastLetter? (b.outputVar pin) = some 't' := by
  have hout : lastLetter? (b.varBase ++ "_out") = some 't' := by
    rw [lastLetter?, String.toList_append, List.reverse_append]
    rfl
  unfold Block.outputVar
  split
  · exact hout
  · rw [lastLetter?_append_toString, hout]

/-- The variable of an input that is not connected is that of no output. -/
theorem Block.outputVar_ne_free (b b' : Block) (pin pin' : Nat) :
    b.outputVar pin ≠ b'.varBase ++ "_in" ++ toString pin' := by
  intro h
  have hin : lastLetter? (b'.varBase ++ "_in") = some 'n' := by
    rw [lastLetter?, String.toList_append, List.reverse_append]
    rfl
  have hletter := congrArg lastLetter? h
  rw [lastLetter?_outputVar, lastLetter?_append_toString, hin] at hletter
  cases hletter

end Names

/-! ### What is divided by -/

namespace Term

mutual

/-- The divisors of all quotients in a term. -/
def denominators : Term R → List (Term R)
  | .num _ => []
  | .var _ => []
  | .add ts => denominatorsOf ts
  | .mul ts => denominatorsOf ts
  | .neg t => denominators t
  | .div t u => denominators t ++ u :: denominators u
  | .pow t u => denominators t ++ denominators u

/-- The divisors of all quotients in several terms. -/
def denominatorsOf : List (Term R) → List (Term R)
  | [] => []
  | t :: ts => denominators t ++ denominatorsOf ts

end

omit [Scalar R] in
theorem denominatorsOf_eq (ts : List (Term R)) :
    denominatorsOf ts = ts.flatMap denominators := by
  induction ts with
  | nil => rfl
  | cons t ts ih => rw [denominatorsOf, ih, List.flatMap_cons]

omit [Scalar R] in
theorem flatMap_factors (t : Term R) :
    t.factors.flatMap denominators = t.denominators := by
  cases t <;> simp [factors, denominators, denominatorsOf_eq]

theorem denominators_product (ts : List (Term R)) :
    (product ts).denominators = ts.flatMap denominators := by
  have hflat : (ts.flatMap factors).flatMap denominators = ts.flatMap denominators := by
    rw [List.flatMap_assoc]
    exact List.flatMap_congr fun t _ => t.flatMap_factors
  rw [← hflat]
  unfold product
  split
  · next h => simp [h, denominators]
  · next t h => simp [h]
  · rw [denominators, denominatorsOf_eq]

omit [Scalar R] in
theorem denominators_foldl_div (t : Term R) (us : List (Term R)) :
    (us.foldl Term.div t).denominators = t.denominators ++ us.flatMap fun u =>
      u :: u.denominators := by
  induction us generalizing t with
  | nil => simp
  | cons u us ih =>
      rw [List.foldl_cons, ih, denominators, List.flatMap_cons, List.append_assoc]

end Term

namespace Encoding

variable {d : Diagram} {b : Block}

/-- The variable that is read at an input. -/
def inputName (d : Diagram) (b : Block) (pin : Nat) : String :=
  (d.inputVar? b.id pin).getD (b.varBase ++ "_in" ++ toString (pin + 1))

omit [Scalar R] in
theorem input_eq (d : Diagram) (b : Block) (pin : Nat) :
    (input d b pin : Term R) = .var (inputName d b pin) := by
  unfold input inputName
  cases d.inputVar? b.id pin <;> rfl

omit [Scalar R] in
/-- The operands of a product are the variables at its inputs, each with its mark. -/
theorem mem_operands_iff {divisor : Bool} {u : Term R} :
    (divisor, u) ∈ List.zip b.divisors (inputs d b) ↔
      ∃ pin, b.divisors[pin]? = some divisor ∧ u = .var (inputName d b pin) := by
  rw [List.mem_iff_getElem?]
  refine exists_congr fun pin => ?_
  rw [List.getElem?_zip_eq_some]
  refine and_congr_right fun hpin => ?_
  have hlt : pin < max b.inputs 1 := by
    have hlength : b.divisors.length = max b.inputs 1 := b.length_invertedBy _ _ _
    exact hlength ▸ (List.getElem?_eq_some_iff.mp hpin).1
  rw [inputs, List.getElem?_map, List.getElem?_range hlt, Option.map_some, input_eq,
    Option.some.injEq, eq_comm]

/-- The encoding of a product divides by the variables at its divisor inputs, and by
nothing else. -/
theorem mem_denominators_product (d : Diagram) (b : Block) :
    ∃ t : Term R, (product d b).definitions = [.simple (b.outputVar 0) t] ∧
      ∀ u, u ∈ t.denominators ↔ ∃ pin, b.divisors[pin]? = some true ∧
        u = .var (inputName d b pin) := by
  refine ⟨_, rfl, fun u => ?_⟩
  -- Operands are variables, in which nothing is divided by.
  have hplain : ∀ o ∈ List.zip b.divisors (inputs d b),
      (o.2 : Term R).denominators = [] := by
    rintro ⟨divisor, u⟩ hmem
    obtain ⟨pin, _, rfl⟩ := mem_operands_iff.mp hmem
    rfl
  have hnumerator :
      (((List.zip b.divisors (inputs d b)).filter fun o => !o.1).map Prod.snd).flatMap
      (Term.denominators (R := R)) = [] := by
    rw [List.flatMap_map, List.flatMap_eq_nil_iff]
    exact fun o ho => hplain o (List.mem_filter.mp ho).1
  rw [Term.denominators_foldl_div, Term.denominators_product, hnumerator, List.nil_append,
    List.flatMap_map, List.mem_flatMap]
  constructor
  · rintro ⟨⟨divisor, t⟩, ho, hu⟩
    obtain ⟨hmem, hdivisor⟩ := List.mem_filter.mp ho
    obtain rfl : divisor = true := hdivisor
    rw [hplain _ hmem, List.mem_singleton] at hu
    rw [hu]
    exact mem_operands_iff.mp hmem
  · intro hu
    exact ⟨(true, u), List.mem_filter.mpr ⟨mem_operands_iff.mpr hu, rfl⟩,
      List.mem_cons_self ..⟩

end Encoding

/-! ### Edges of inputs -/

namespace FlowGraph

variable {c : Setting} {n : NodeId}

/-- The graph of a diagram after propagation. -/
def propagated (R : Type) [Scalar R] (c : Setting) : FlowGraph R :=
  (Propagation.run c c.diagram.runOrder (.ofDiagram c.diagram c.diagram.runOrder)).graph

theorem writes_propagated (c : Setting) :
    Writes (ofDiagram c.diagram c.diagram.runOrder) (propagated R c) :=
  Propagation.writes_run c _ (Indexed.ofDiagram _ _).wired

theorem indexed_propagated (c : Setting) : (propagated R c).Indexed :=
  (Indexed.ofDiagram _ _).of_layout (writes_propagated c).extends.layout

theorem obligations_propagated (c : Setting) : (propagated R c).obligations = [] :=
  (writes_propagated c).obligations_eq.trans (Blank.ofDiagram _ _).obligations

/-- All facts are about the signals they are found on. -/
theorem ownFacts_propagated (c : Setting) : ∀ e ∈ (propagated R c).edges, e.OwnFacts := by
  refine (writes_propagated c).invariant (P := fun g => ∀ e ∈ g.edges, e.OwnFacts)
    (fun _ _ hwrite => hwrite.ownFacts) fun e he => ?_
  simp [Edge.OwnFacts, (Blank.ofDiagram _ _).edges e he]

theorem forall_depicted_propagated (c : Setting) :
    ∀ e ∈ (propagated R c).edges, ∃ s ∈ c.diagram.attached,
      Depicts c.diagram (propagated R c) e s :=
  forall_depicted_of_layout (exists_depicted_ofDiagram c.diagram)
    (writes_propagated c).extends.layout

theorem exists_node_propagated {b : Block} (hb : c.diagram.block? b.id = some b) :
    ∃ n, (propagated R c).blockOf? n = some b.id := by
  have hlayout := (writes_propagated (R := R) c).extends.layout
  have hmem := (mem_blocks_ofDiagram (R := R) c.diagram b.id).mpr
    (List.mem_map_of_mem (mem_ids_of_block? hb).1)
  rw [← map_block_layout, ← hlayout, map_block_layout] at hmem
  obtain ⟨n, hn⟩ := List.mem_iff_getElem?.mp hmem
  exact ⟨n, by rw [blockOf?_eq, hn]⟩

omit [Scalar R] in
/-- A block has one node only. -/
theorem Indexed.eq_of_blockOf? {g : FlowGraph R} (h : g.Indexed) {m : NodeId}
    {id : BlockId} (hm : g.blockOf? m = some id)
    (hn : g.blockOf? n = some id) : m = n := by
  rw [blockOf?_eq] at hm hn
  exact (List.getElem?_inj (List.getElem?_eq_some_iff.mp hm).1 h.blocks).mp
    (hm.trans hn.symm)

omit [Scalar R] in
/-- The edge at a pin is the one that ends there. -/
theorem OneEdgePerPin.inputEdge?_eq {g : FlowGraph R} (h : g.OneEdgePerPin)
    (hg : g.Indexed) {e : Edge R} (he : e ∈ g.edges) :
    g.inputEdge? e.target.node e.target.pin = some e := by
  have hincoming : e ∈ g.incoming e.target.node := hg.wired.mem_incoming.mpr ⟨he, rfl⟩
  cases hfound : g.inputEdge? e.target.node e.target.pin with
  | none => exact absurd (beq_self_eq_true _) (List.find?_eq_none.mp hfound e hincoming)
  | some e' =>
      obtain ⟨he', hnode⟩ := hg.wired.mem_incoming.mp (List.mem_of_find?_eq_some hfound)
      have hpin : e'.target.pin = e.target.pin := by simpa using List.find?_some hfound
      have hid := h _ _ e' e (hg.wired.getElem?_id he') (hg.wired.getElem?_id he)
        ((Socket.mk.injEq ..).mpr ⟨hnode, hpin⟩)
      rw [← hg.wired.getElem?_id he, ← hid, hg.wired.getElem?_id he']

/-- An input at which no signal ends has no edge. -/
theorem inputEdge?_eq_none {id : BlockId} {pin : Nat}
    (hn : (propagated R c).blockOf? n = some id) (h : ∀ s ∈ c.diagram.signals,
      s.target ≠ ⟨id, pin⟩) : (propagated R c).inputEdge? n pin = none := by
  rw [inputEdge?, List.find?_eq_none]
  intro e he hpin
  obtain ⟨hedge, htarget⟩ := (indexed_propagated c).wired.mem_incoming.mp he
  obtain ⟨s, hs, hdepicts⟩ := forall_depicted_propagated c e hedge
  refine h s (Diagram.mem_attached.mp hs).1 ?_
  have hblock : some id = some s.target.block := hn.symm.trans (htarget ▸ hdepicts.target)
  rw [Pin.mk.injEq]
  exact ⟨(Option.some.inj hblock).symm, hdepicts.target_pin.symm.trans
    (by simpa using hpin)⟩

/-- An input at which a signal ends has its edge, unless the signal shares its
identifier. -/
theorem exists_inputEdge (hpins : (c.diagram.signals.map Signal.target).Nodup) {s : Signal}
    (hs : s ∈ c.diagram.attached)
    (hn : (propagated R c).blockOf? n = some s.target.block) :
    (∃ e, (propagated R c).inputEdge? n s.target.index = some e ∧
      Depicts c.diagram (propagated R c) e s) ∨
      ∃ s' ∈ c.diagram.signals, s' ≠ s ∧ s'.id = s.id := by
  obtain ⟨e₀, he₀, hid⟩ := exists_edge_ofDiagram (R := R) hs
  obtain ⟨s', hs', hdepicts₀⟩ := exists_depicted_ofDiagram c.diagram e₀ he₀
  by_cases hsame : s' = s
  · left
    subst hsame
    obtain ⟨i, hi⟩ := List.mem_iff_getElem?.mp he₀
    obtain ⟨e, he, hbare, _⟩ := (writes_propagated c).extends.exists_grown hi
    have hdepicts := hdepicts₀.of_layout (writes_propagated c).extends.layout hbare
    have hedge : e ∈ (propagated R c).edges := List.mem_of_getElem? he
    have hindexed := indexed_propagated (R := R) c
    have hnode : e.target.node = n := hindexed.eq_of_blockOf? hdepicts.target hn
    have hone := hindexed.oneEdgePerPin (forall_depicted_propagated c) hpins
    refine ⟨e, ?_, hdepicts⟩
    rw [← hnode, ← hdepicts.target_pin]
    exact hone.inputEdge?_eq hindexed hedge
  · exact .inr ⟨s', (Diagram.mem_attached.mp hs').1, hsame,
      hdepicts₀.signal.symm.trans hid⟩

end FlowGraph

/-! ### Obligations for divisors -/

namespace Obligation

variable {oracle : Oracle R} {l : Limits} {d : Diagram} {g : FlowGraph R} {x : String}

/-- Only divisions require that a variable is not zero, and it is the variable of an
edge. -/
theorem exists_edge_of_nonzero (h : nonzero x ∈ derive oracle l d g) :
    ∃ e ∈ g.edges, e.var = x := by
  rcases exists_of_mem_derive h with ⟨b, n, hp⟩ | ⟨y, hy | hy⟩
  · obtain ⟨e, he, heq⟩ := exists_divisorEdge hp
    obtain ⟨⟨divisor, pin⟩, _, hedge⟩ := List.mem_filterMap.mp he
    have hedge' : g.inputEdge? n pin = some e := (Option.ite_none_right_eq_some.mp hedge).2
    refine ⟨e, FlowGraph.mem_edges_of_inputEdge? hedge', ?_⟩
    have hvar : (Term.var x : Term R) = .var e.var :=
      congrArg Relation.lhs (Formula.rel.inj heq)
    exact (Term.var.inj hvar).symm
  · cases congrArg Relation.op (Formula.rel.inj hy)
  · cases congrArg Relation.op (Formula.rel.inj hy)

end Obligation

/-- The fact is about the variable, and leaves no room for zero. -/
structure Fact.ExcludesZero (x : String) (p : Fact R) : Prop where
  concerns : p.Concerns (.var x)
  crossesZero : p.crossesZero = false
  ne_zero : (∀ k ∈ p.items, ∀ t ∈ k.bounds, t.IsBound) →
    ∀ (ρ : ExtendedReading R) (v : Valuation ℝ),
    p.toFormula.TrueAt ρ v → v x ≠ 0

theorem Fact.excludesZero {x : String} {p : Fact R} (hconcerns : p.Concerns (.var x))
    (hcrosses : p.crossesZero = false) : p.ExcludesZero x where
  concerns := hconcerns
  crossesZero := hcrosses
  ne_zero hbounds ρ _ htrue :=
    p.ne_zero_of_crossesZero ρ (fun k hk => ⟨hconcerns k hk, hbounds k hk⟩) hcrosses htrue

namespace Obligation

/-- The variable at an input has to be shown not to be zero, or a fact on the edge of the
input excludes zero. -/
def Covered (oracle : Oracle R) (l : Limits) (c : Setting) (n : NodeId) (pin : Nat)
    (x : String) : Prop :=
  nonzero x ∈ ((FlowGraph.propagated R c).withObligations oracle l c.diagram).obligations ∨
    ∃ e, (FlowGraph.propagated R c).inputEdge? n pin = some e ∧ ∃ p ∈ informative e,
    p.ExcludesZero x

variable {oracle : Oracle R} {l : Limits} {c : Setting} {n : NodeId}
  {b : Block} {pin : Nat}

/-- The divisor on an edge is covered. -/
theorem covered_of_inputEdge? (hn : (FlowGraph.propagated R c).blockOf? n = some b.id)
    (hb : c.diagram.block? b.id = some b)
    (hkind : kind? b = some .product ∨ kind? b = some .divide)
    (hpin : b.divisors[pin]? = some true) {e : Edge R}
    (he : (FlowGraph.propagated R c).inputEdge? n pin = some e) :
    Covered oracle l c n pin e.var := by
  by_cases h : nonzero e.var ∈ ofDivision (FlowGraph.propagated R c) b n
  · left
    rw [mem_obligations_iff (FlowGraph.obligations_propagated c), derive]
    have hnode : n ∈ (FlowGraph.propagated R c).nodes.map Node.id := by
      rw [(FlowGraph.indexed_propagated c).wired.map_id, List.mem_range]
      obtain ⟨node, hnode, _⟩ := Option.map_eq_some_iff.mp hn
      exact (List.getElem?_eq_some_iff.mp hnode).1
    have hmem := mem_forNodes hnode (by rw [hn, Option.bind_some, hb]) h
    simp only [List.mem_append]
    exact .inl (.inl (.inl hmem))
  · right
    obtain ⟨p, hp, hcrosses⟩ := exists_fact_of_not_mem_ofDivision hkind hpin he h
    have hown := FlowGraph.ownFacts_propagated c e (FlowGraph.mem_edges_of_inputEdge? he)
    exact ⟨e, he, p, hp, Fact.excludesZero (hown p (List.mem_filter.mp hp).1) hcrosses⟩

end Obligation

namespace Encoding

variable {d : Diagram} {b b' : Block} {pin : Nat} {s : Signal}

/-- The variable at an input is that of the signal that ends there. -/
theorem inputName_of_signal (hpins : (d.signals.map Signal.target).Nodup)
    (hs : s ∈ d.signals) (htarget : s.target = ⟨b.id, pin⟩)
    (hb' : d.block? s.source.block = some b') :
    inputName d b pin = b'.outputVar s.source.index := by
  have hincoming : d.incoming? b.id pin = some s := by
    cases hfound : d.incoming? b.id pin with
    | none =>
        have hnot := List.find?_eq_none.mp hfound s hs
        simp [htarget] at hnot
    | some s' =>
        have htarget' : s'.target = ⟨b.id, pin⟩ := by
          rw [Pin.mk.injEq]
          simpa using List.find?_some hfound
        have hmem : s' ∈ d.signals := List.mem_of_find?_eq_some hfound
        rw [List.inj_on_of_nodup_map hpins hmem hs (htarget'.trans htarget.symm)]
  rw [inputName, Diagram.inputVar?, hincoming]
  simp only [hb', Option.map_some, Option.getD_some]

/-- The variable at an input that is not connected is not that of an output. -/
theorem inputName_of_free (h : ∀ s ∈ d.signals, s.target ≠ ⟨b.id, pin⟩) :
    inputName d b pin = b.varBase ++ "_in" ++ toString (pin + 1) := by
  have hincoming : d.incoming? b.id pin = none := by
    refine List.find?_eq_none.mpr fun s hs hfound => h s hs ?_
    rw [Pin.mk.injEq]
    simpa using hfound
  rw [inputName, Diagram.inputVar?, hincoming, Option.getD_none]

end Encoding

namespace Obligation

/-- The encoding of a product divides by the variables at its divisor inputs.  Such a
variable is covered if the input is connected, unless the signal shares its identifier with
another one.  If the input is not connected, the variable is not covered: nothing is
required of it, and there is no edge that could have a fact. -/
theorem divisors_covered (c : Setting) (oracle : Oracle R) (l : Limits) {b : Block}
    {k : BlockKind} (hends : ∀ s ∈ c.diagram.signals, c.diagram.hasBlock s.source.block ∧
      c.diagram.hasBlock s.target.block)
    (hpins : (c.diagram.signals.map Signal.target).Nodup)
    (hb : c.diagram.block? b.id = some b) (hk : BlockKind.ofTag? b.type = some k)
    (hdivides : k = .product ∨ k = .divide) :
    ∃ (t : Term R) (n : NodeId), (Encoding.ofBlock c.diagram b k).definitions =
      [.simple (b.outputVar 0) t] ∧
      (FlowGraph.propagated R c).blockOf? n = some b.id ∧
      (∀ u, u ∈ t.denominators ↔
        ∃ pin, b.divisors[pin]? = some true ∧
          u = .var (Encoding.inputName c.diagram b pin)) ∧
      ∀ pin, b.divisors[pin]? = some true →
        (∀ s ∈ c.diagram.signals, s.target = ⟨b.id, pin⟩ →
          Covered oracle l c n pin (Encoding.inputName c.diagram b pin) ∨
            ∃ s' ∈ c.diagram.signals, s' ≠ s ∧ s'.id = s.id) ∧
        ((∀ s ∈ c.diagram.signals, s.target ≠ ⟨b.id, pin⟩) →
          nonzero (Encoding.inputName c.diagram b pin) ∉
              ((FlowGraph.propagated R c).withObligations oracle l c.diagram).obligations ∧
            (FlowGraph.propagated R c).inputEdge? n pin = none) := by
  obtain ⟨t, hdefinition, hdenominators⟩ :=
    Encoding.mem_denominators_product (R := R) c.diagram b
  have hencoding : (Encoding.ofBlock c.diagram b k : Encoding R) =
      Encoding.product c.diagram b := by
    rcases hdivides with rfl | rfl <;> rfl
  have hkind : kind? b = some .product ∨ kind? b = some .divide := by
    rcases hdivides with rfl | rfl
    · exact Or.inl hk
    · exact Or.inr hk
  obtain ⟨n, hn⟩ := FlowGraph.exists_node_propagated (R := R) hb
  refine ⟨t, n, hencoding ▸ hdefinition, hn, hdenominators, fun pin hpin =>
    ⟨fun s hs htarget => ?_, fun hfree => ?_⟩⟩
  · have hattached : s ∈ c.diagram.attached := Diagram.mem_attached.mpr ⟨hs, hends s hs⟩
    have hblock : (FlowGraph.propagated R c).blockOf? n = some s.target.block := by
      rw [hn, htarget]
    refine (FlowGraph.exists_inputEdge hpins hattached hblock).imp_left ?_
    rintro ⟨e, he, hdepicts⟩
    obtain ⟨b', hb', hvar⟩ := hdepicts.var
    rw [Encoding.inputName_of_signal hpins hs htarget hb', ← hvar]
    rw [htarget] at he
    exact covered_of_inputEdge? hn hb hkind hpin he
  · refine ⟨fun hmem => ?_, FlowGraph.inputEdge?_eq_none hn hfree⟩
    rw [mem_obligations_iff (FlowGraph.obligations_propagated c)] at hmem
    obtain ⟨e, he, hvar⟩ := exists_edge_of_nonzero hmem
    obtain ⟨s, _, hdepicts⟩ := FlowGraph.forall_depicted_propagated c e he
    obtain ⟨b', _, hvar'⟩ := hdepicts.var
    rw [Encoding.inputName_of_free hfree, hvar'] at hvar
    exact b'.outputVar_ne_free b _ _ hvar

/-- A product that divides by two of its inputs. -/
def twofoldQuotient : Block :=
  ⟨2, "Q", "Product", 3, 1, [("Inputs", "*//")]⟩

/-- Only the first divisor is connected. -/
def halfConnected : Diagram where
  name := "halfConnected"
  blocks := [⟨1, "A", "Inport", 0, 1, []⟩, twofoldQuotient]
  signals := [⟨1, ⟨1, 0⟩, ⟨2, 1⟩⟩]

/-- The encoding divides by `A_out` and by `Q_in3`, and only `A_out` is covered. -/
theorem divisors_covered_halfConnected :
    ∃ (t : Term Float) (n : NodeId),
      (Encoding.ofBlock halfConnected twofoldQuotient .product).definitions =
        [.simple (twofoldQuotient.outputVar 0) t] ∧
      (FlowGraph.propagated Float ⟨halfConnected, .builtin, {}⟩).blockOf? n =
        some twofoldQuotient.id ∧
      (.var "A_out" ∈ t.denominators ∧
        Covered (Oracle.interval 64 : Oracle Float) {} ⟨halfConnected, .builtin,
          {}⟩ n 1 "A_out") ∧
      .var "Q_in3" ∈ t.denominators ∧
        ¬Covered (Oracle.interval 64 : Oracle Float) {} ⟨halfConnected, .builtin, {}⟩ n 2
          "Q_in3" := by
  have hends : ∀ s ∈ halfConnected.signals, halfConnected.hasBlock s.source.block ∧
      halfConnected.hasBlock s.target.block := by decide
  have hpins : (halfConnected.signals.map Signal.target).Nodup := by decide
  have hblock : halfConnected.block? twofoldQuotient.id = some twofoldQuotient := by decide
  have hdivisors : twofoldQuotient.divisors = [false, true, true] := by decide +kernel
  have hconnected : Encoding.inputName halfConnected twofoldQuotient 1 = "A_out" := by
    decide +kernel
  have hfree : Encoding.inputName halfConnected twofoldQuotient 2 = "Q_in3" := by
    decide +kernel
  obtain ⟨t, n, hdefinition, hn, hdenominators, hcovered⟩ :=
    divisors_covered ⟨halfConnected, .builtin, {}⟩
    (Oracle.interval 64 : Oracle Float) {} hends hpins hblock
      (by decide : _ = some .product) (Or.inl rfl)
  refine ⟨t, n, hdefinition, hn, ⟨?_, ?_⟩, ?_, ?_⟩
  · exact (hdenominators _).mpr ⟨1, by rw [hdivisors]; rfl, by rw [hconnected]⟩
  · have hfirst :=
      (hcovered 1 (by rw [hdivisors]; rfl)).1 _ (List.mem_singleton_self _) rfl
    rw [hconnected] at hfirst
    refine hfirst.resolve_right ?_
    rintro ⟨s, hs, hne, _⟩
    exact hne (List.mem_singleton.mp hs)
  · exact (hdenominators _).mpr ⟨2, by rw [hdivisors]; rfl, by rw [hfree]⟩
  · have hsecond := (hcovered 2 (by rw [hdivisors]; rfl)).2 (by decide)
    rw [hfree] at hsecond
    rintro (hmem | ⟨e, he, _⟩)
    · exact hsecond.1 hmem
    · rw [hsecond.2] at he
      cases he

end Obligation
end SignalFlow
