import SignalFlow.Proofs.Encoded
import SignalFlow.Proofs.ModelOccurrence
import SignalFlow.Proofs.StageRun

/-!
# Which defined names are eliminated

Unfolding is meant to leave a model that reads no defined name.  A name goes if it is known
as a vector, or if its closed definition does not use the name.  Two kinds of names stay:

* A name given by cases over two vectors is lifted twice.  Its elements are then elements
  of elements, which are not read as elements of the name.
* A name can come to use itself although the definitions have no circle, if the way leads
  through an element of a vector: the search for circles does not see that an element
  depends on its vector.

**Results.**
* `Definition.closed_of_close`: what becomes of the names of a list that is closed.
* `Definition.Closed.not_mentions_unfoldAll`,
  `Definition.Closed.mentions_unfoldAll_follower`: the names that unfolding takes out of
  every model, and those that it leaves in some.
* `Analysis.defined_names_eliminated`: what this means for the model of a diagram.
-/

namespace SignalFlow

variable {R : Type} [Scalar R]

namespace Definition

/-- Lifting and closing of a list come to their ends. -/
def ClosingEnds (ds : List (Definition R)) : Prop :=
  ∃ lifted last, exhaust? liftStep? (distinct ds) = some lifted ∧
    exhaust? closeStep? lifted = some last

/-- Lifting a model over the vectors of a list comes to its end. -/
def LiftingEnds (ds : List (Definition R)) (m : HybridModel R) : Prop :=
  ∃ l, exhaust? HybridModel.Lifting.step? ⟨(widths ds).reverse, [], m⟩ = some l

/-- The name is a vector, or the definition of the name does not use the name. -/
def Eliminable (closed : List (Definition R)) (x : String) : Prop :=
  IsVectorName closed x ∨ ∃ d ∈ closed, d.IsScalar ∧ d.name = x ∧ d.mentions x = false

instance (d : Definition R) : Decidable d.IsScalar :=
  match d with
  | .simple _ _ => isTrue trivial
  | .cases _ _ => isTrue trivial
  | .vector _ _ => isFalse id
  | .width _ _ => isFalse id

instance (ds : List (Definition R)) (x : String) : Decidable (IsVectorName ds x) :=
  decidable_of_iff (∃ d ∈ ds, d.widthNote?.map Prod.fst = some x)
    (by simp [IsVectorName, Option.map_eq_some_iff])

instance (closed : List (Definition R)) (x : String) : Decidable (Eliminable closed x) :=
  inferInstanceAs (Decidable (IsVectorName closed x ∨
    ∃ d ∈ closed, d.IsScalar ∧ d.name = x ∧ d.mentions x = false))

omit [Scalar R] in
theorem VectorValued.of_subset {ds es : List (Definition R)} (hsub : ∀ d ∈ ds, d ∈ es)
    {x : String} (h : VectorValued ds x) : VectorValued es x := by
  induction h with
  | vector x ts mem => exact .vector x ts (hsub _ mem)
  | width x n mem => exact .width x n (hsub _ mem)
  | uses d v mem mentions _ ih => exact .uses d v (hsub d mem) mentions ih

omit [Scalar R] in
theorem Traced.of_subset {given given' ds : List (Definition R)} (h : Traced given ds)
    (hsub : ∀ d ∈ given, d ∈ given') : Traced given' ds := by
  have hle : UsesPart given ≤ UsesPart given' := by
    rintro x y ⟨e, he, huses⟩
    exact ⟨e, hsub e he, huses⟩
  intro d hd z hz
  exact Relation.TransGen.mono hle _ _ (h d hd z hz)

/-- A closed list: no vector is used as a whole, definitions that do not use themselves are
used nowhere, and every given name is known as a vector, is defined, or was given by cases
over two vectors. -/
structure Closed (given closed : List (Definition R)) : Prop where
  elementwise : Elementwise closed
  traced : Traced given closed
  not_mentions : ∀ d ∈ closed, d.IsScalar → d.mentions d.name = false →
    ∀ e ∈ closed, e.mentions d.name = false
  named : ∀ d ∈ given, d.isWidth = false → IsVectorName closed d.name ∨
    IsScalarName closed d.name ∨ CasesOverTwoVectors given d.name

omit [Scalar R] in
theorem isScalar_or_vector {d : Definition R} (h : d.isWidth = false) :
    d.IsScalar ∨ ∃ ts, d = .vector d.name ts := by
  cases d with
  | simple x t => exact Or.inl trivial
  | vector x ts => exact Or.inr ⟨ts, rfl⟩
  | cases x cs => exact Or.inl trivial
  | width x n => cases h

theorem Lifted.named {given ds : List (Definition R)} (h : Lifted given ds)
    (hplain : ∀ d ∈ given, PlainName d.name) {d : Definition R} (hd : d ∈ given)
    (hwidth : d.isWidth = false) :
    IsVectorName ds d.name ∨ IsScalarName ds d.name ∨
      CasesOverTwoVectors given d.name := by
  rcases h.kept d hd hwidth with hmem | ⟨ts, hmem⟩ | ⟨x, cs, v, rfl, _, _, hmem⟩ | htwo
  · rcases isScalar_or_vector hwidth with hs | ⟨ts, hts⟩
    · exact Or.inr (Or.inl ⟨d, hmem, hs, rfl⟩)
    · rw [hts] at hmem
      exact Or.inl ⟨_, hmem, ts.length, rfl⟩
  · exact Or.inl ⟨_, hmem, ts.length, rfl⟩
  · -- The first element tells that there is a vector.
    refine Or.inl ⟨_, hmem, 1, ?_⟩
    have hx : PlainName x := hplain _ hd
    simp only [liftedOnce, widthNote?, name]
    rw [elementOf?_elementName hx (by decide)]
    rfl
  · exact Or.inr (Or.inr htwo)

/-- What becomes of the names of a list that is closed. -/
theorem closed_of_close {given closed : List (Definition R)}
    (hplain : ∀ d ∈ given, PlainName d.name) (htidy : Tidy given)
    (hclose : close given = .ok closed) (hends : ClosingEnds given) :
    Closed given closed := by
  obtain ⟨_, hcycle, rfl⟩ := close_eq_ok hclose
  obtain ⟨lifted, last, hlift, hlast⟩ := hends
  have hsub : ∀ d ∈ distinct given, d ∈ given := fun d hd => mem_of_mem_distinct hd
  have hplain' : ∀ d ∈ distinct given, PlainName d.name := fun d hd => hplain d (hsub d hd)
  obtain ⟨hlifted, htraced, hwhole⟩ := lifted_of_exhaust? hplain' (htidy.of_subset hsub)
    (fun d hd => not_mentions_self_of_cycle? hcycle hd) hlift
  obtain ⟨hcloses, htraced, hnot⟩ :=
    closesTo_of_exhaust? ⟨hlifted.tidy, hwhole⟩ htraced hlast
  rw [liftAll, exhaust_of_exhaust? hlift, closeAll, exhaust_of_exhaust? hlast]
  refine ⟨hcloses.elementwise, htraced.of_subset hsub, hnot, ?_⟩
  intro d hd hwidth
  obtain ⟨e, he, hname, hewidth⟩ :
      ∃ e ∈ distinct given, e.name = d.name ∧ e.isWidth = false := by
    obtain ⟨e, he, rfl | hde⟩ := exists_mem_distinct hd
    · exact ⟨e, he, rfl, hwidth⟩
    · refine ⟨e, he, (name_eq_of_beq hde).symm, ?_⟩
      rcases parts_of_beq hde with ⟨_, _, _, rfl, rfl, _⟩ | ⟨_, _, _, rfl, rfl, _⟩ |
        ⟨_, _, _, rfl, rfl, _⟩ | ⟨_, _, rfl, rfl⟩
      · rfl
      · rfl
      · rfl
      · exact hwidth
  rw [← hname]
  rcases hlifted.named hplain' he hewidth with hv | hs | ⟨cs, v, w, hmem, hne, hv, hw, hm⟩
  · exact Or.inl ((hcloses.vectors e.name).mpr hv)
  · exact Or.inr (Or.inl (hcloses.scalars e.name hs))
  · exact Or.inr (Or.inr
      ⟨cs, v, w, hsub _ hmem, hne, hv.of_subset hsub, hw.of_subset hsub, hm⟩)

/-- An eliminable name is taken out of every model. -/
theorem Closed.not_mentions_unfoldAll {given closed : List (Definition R)}
    (h : Closed given closed) {x : String} (hplain : PlainName x)
    (hx : Eliminable closed x) {m : HybridModel R} (hends : LiftingEnds closed m) :
    (m.unfoldAll closed).mentions x = false := by
  obtain ⟨l, hl⟩ := hends
  rw [HybridModel.unfoldAll, HybridModel.liftAll, exhaust_of_exhaust? hl]
  have hmem : ∀ d ∈ closed.filter fun d => !d.isWidth, d ∈ closed :=
    fun d hd => List.mem_of_mem_filter hd
  rcases hx with hv | ⟨d, hd, hs, rfl, hself⟩
  · refine HybridModel.not_mentions_foldl_unfoldModel
      (HybridModel.not_mentions_of_lifted hl hplain hv) ?_
    intro e he
    exact h.elementwise.not_mentions x hv e (hmem e he)
  · have hd' : d ∈ closed.filter fun d => !d.isWidth :=
      List.mem_filter.mpr ⟨hd, by simp [isWidth_of_isScalar hs]⟩
    exact HybridModel.not_mentions_of_unfolded hd' hs
      (fun e he => h.not_mentions d hd hs hself e (hmem e he)) _

/-- A name that is not eliminable stays in a plant that follows it. -/
theorem Closed.mentions_unfoldAll_follower {given closed : List (Definition R)}
    (h : Closed given closed) {x : String} (hplain : PlainName x)
    (hx : ¬Eliminable closed x) :
    LiftingEnds closed (HybridModel.follower x) ∧
      ((HybridModel.follower x).unfoldAll closed).mentions x = true := by
  refine HybridModel.mentions_unfoldAll_follower (fun hv => hx (Or.inl hv)) ?_
  intro d hd
  refine ⟨hplain, ?_, ?_⟩
  · intro hs hname
    by_contra hm
    exact hx (Or.inr ⟨d, hd, hs, hname, by simpa using hm⟩)
  · rintro y cs rfl
    exact h.elementwise.tidy.cases y cs hd

omit [Scalar R] in
/-- Why a name is not eliminable. -/
theorem Closed.cases_of_not_eliminable {given closed : List (Definition R)}
    (h : Closed given closed) {d : Definition R} (hd : d ∈ given)
    (hwidth : d.isWidth = false) (hplain : PlainName d.name)
    (hx : ¬Eliminable closed d.name) :
    CasesOverTwoVectors given d.name ∨
      Relation.TransGen (UsesPart given) d.name d.name := by
  rcases h.named d hd hwidth with hv | ⟨e, he, hs, hname⟩ | htwo
  · exact absurd (Or.inl hv) hx
  · have hself : e.mentions d.name = true := by
      by_contra hm
      exact hx (Or.inr ⟨e, he, hs, hname, by simpa using hm⟩)
    have htrace := h.traced e he d.name hself
    rw [hname, vectorOf_of_plain hplain] at htrace
    exact Or.inr htrace
  · exact Or.inl htwo

end Definition

namespace Analysis

/-- The definitions that the blocks of a diagram give. -/
def encodedDefinitions (c : AnalysisSetting R) (d : Diagram) : List (Definition R) :=
  (Encoding.ofDiagram c.catalogue d d.runOrder).definitions

/-- The loops of unfolding come to their ends: those over the definitions, and the one over
the model. -/
def UnfoldingEnds (c : AnalysisSetting R) (d : Diagram) : Prop :=
  Definition.ClosingEnds (encodedDefinitions c d) ∧
    ∀ closed, Definition.close (encodedDefinitions c d) = .ok closed →
      Definition.LiftingEnds closed (unresolvedModel c d)

/-- **Elimination of defined names.**  In the model of a diagram without errors, no name
that a block defines is read if it is eliminable.  Any other name stays in some model that
reads it; such a name is given by cases over two vectors, or is used in its own definition
by way of an element. -/
theorem defined_names_eliminated (c : AnalysisSetting R) (d : Diagram)
    (hok : (run c d .resolve).hasErrors = false) (hends : UnfoldingEnds c d) :
    ∃ closed m, Definition.close (encodedDefinitions c d) = .ok closed ∧
      (run c d .resolve).model = some m ∧
      ∀ e ∈ encodedDefinitions c d, e.isWidth = false →
        (Definition.Eliminable closed e.name → m.mentions e.name = false) ∧
        (¬Definition.Eliminable closed e.name →
          (∃ m₀, Definition.LiftingEnds closed m₀ ∧
            (m₀.unfoldAll closed).mentions e.name = true) ∧
          (Definition.CasesOverTwoVectors (encodedDefinitions c d) e.name ∨
            Relation.TransGen (Definition.UsesPart (encodedDefinitions c d)) e.name
              e.name)) := by
  obtain ⟨closed, hclose, hmodel⟩ := exists_resolved c d hok
  have hplain : ∀ e ∈ encodedDefinitions c d, PlainName e.name :=
    fun e he => Encoding.plain_of_mem_definitions he
  have hclosed :=
    Definition.closed_of_close hplain (Encoding.tidy_definitions _ _ _) hclose hends.1
  refine ⟨closed, _, hclose, hmodel, ?_⟩
  intro e he hwidth
  refine ⟨?_, ?_⟩
  · intro helim
    exact hclosed.not_mentions_unfoldAll (hplain e he) helim (hends.2 closed hclose)
  · intro hstay
    obtain ⟨hlift, hm⟩ := hclosed.mentions_unfoldAll_follower (hplain e he) hstay
    exact ⟨⟨_, hlift, hm⟩, hclosed.cases_of_not_eliminable he hwidth (hplain e he) hstay⟩

section Witness

/-- A loop through an element: a hold passes a vector on whose one element it is made
of. -/
def elementLoop : Diagram where
  name := "loop"
  blocks :=
    [⟨1, "W", "ZeroOrderHold", 1, 1, []⟩, ⟨2, "M", "Mux", 1, 1, []⟩,
      ⟨3, "D", "Demux", 1, 1, []⟩, ⟨4, "Y", "Outport", 1, 0, []⟩]
  signals :=
    [⟨1, ⟨1, 0⟩, ⟨3, 0⟩⟩, ⟨2, ⟨3, 0⟩, ⟨2, 0⟩⟩, ⟨3, ⟨2, 0⟩, ⟨1, 0⟩⟩, ⟨4, ⟨3, 0⟩, ⟨4, 0⟩⟩]

/-- The definitions of the loop after closing. -/
def elementLoopClosed : List (Definition Float) :=
  [.vector "W_out" [.var "D_out"], .vector "M_out" [.var "D_out"], .width "M_out" 1,
    .simple "D_out" (.var "D_out")]

/-- The definitions of the loop after lifting. -/
def elementLoopLifted : List (Definition Float) :=
  [.vector "W_out" [.var "M_out[0]"], .vector "M_out" [.var "D_out"], .width "M_out" 1,
    .simple "D_out" (.var "W_out[0]")]

theorem lift_elementLoop :
    exhaust? Definition.liftStep?
      (distinct (encodedDefinitions binary64Setting elementLoop)) =
      some elementLoopLifted :=
  exhaust?_of_exhaustWithin (n := 2) rfl

theorem closing_elementLoop :
    exhaust? Definition.closeStep? elementLoopLifted = some elementLoopClosed :=
  exhaust?_of_exhaustWithin (n := 9) rfl

theorem close_elementLoop :
    Definition.close (encodedDefinitions binary64Setting elementLoop) =
      .ok elementLoopClosed := by
  rw [Definition.close_of_wellFormed rfl rfl, Definition.liftAll,
    exhaust_of_exhaust? lift_elementLoop, Definition.closeAll,
    exhaust_of_exhaust? closing_elementLoop]
  rfl

/-- The model of the loop as it is emitted, and what it reads of the name that stays. -/
theorem lifted_elementLoop :
    ∃ l, exhaust? HybridModel.Lifting.step?
      ⟨(Definition.widths elementLoopClosed).reverse, [],
        unresolvedModel binary64Setting elementLoop⟩ = some l ∧
      ((elementLoopClosed.filter fun d => !d.isWidth).foldl Definition.unfoldModel
        l.model).mentions "D_out" = true := by
  have heval : ((exhaustWithin HybridModel.Lifting.step? 9
      ⟨(Definition.widths elementLoopClosed).reverse, [],
        unresolvedModel binary64Setting elementLoop⟩).any fun l =>
      ((elementLoopClosed.filter fun d => !d.isWidth).foldl Definition.unfoldModel
        l.model).mentions "D_out") = true := by
    decide +kernel
  obtain ⟨l, hl, hm⟩ := (Option.any_eq_true _ _).mp heval
  exact ⟨l, exhaust?_of_exhaustWithin hl, hm⟩

/-- The vectors of the loop are eliminated, but the element stays, although no error is
reported. -/
theorem elementLoop_keeps_element :
    (run binary64Setting elementLoop .resolve).hasErrors = false ∧
      UnfoldingEnds binary64Setting elementLoop ∧
      ∃ m, (run binary64Setting elementLoop .resolve).model = some m ∧
        m.mentions "W_out" = false ∧ m.mentions "M_out" = false ∧
          m.mentions "D_out" = true := by
  have hbefore : (beforeResolve binary64Setting elementLoop).hasErrors = false := by
    decide +kernel
  have hok := not_hasErrors_of_close _ _ hbefore close_elementLoop
  obtain ⟨l, hl, hstay⟩ := lifted_elementLoop
  have hends : UnfoldingEnds binary64Setting elementLoop := by
    refine ⟨⟨_, _, lift_elementLoop, closing_elementLoop⟩, ?_⟩
    intro closed hclose
    rw [close_elementLoop] at hclose
    cases hclose
    exact ⟨l, hl⟩
  refine ⟨hok, hends, ?_⟩
  obtain ⟨closed, m, hclose, hm, hall⟩ := defined_names_eliminated _ _ hok hends
  rw [close_elementLoop] at hclose
  cases hclose
  refine ⟨m, hm, ?_, ?_, ?_⟩
  · exact (hall (.simple "W_out" (.var "M_out")) (.head _) rfl).1 (by decide +kernel)
  · exact (hall (.vector "M_out" [.var "D_out"]) (.tail _ (.head _)) rfl).1
      (by decide +kernel)
  · obtain ⟨closed, hclose, hmodel⟩ := exists_resolved _ _ hok
    have hclosed : closed = elementLoopClosed := by
      rw [show Definition.close (Encoding.ofDiagram binary64Setting.catalogue elementLoop
        elementLoop.runOrder).definitions = .ok elementLoopClosed from close_elementLoop]
        at hclose
      cases hclose
      rfl
    rw [hm, Option.some.injEq] at hmodel
    rw [hmodel, hclosed, HybridModel.unfoldAll, HybridModel.liftAll,
      exhaust_of_exhaust? hl]
    exact hstay

/-- The model that the blocks of a diagram give. -/
def encodedModel (d : Diagram) : HybridModel Float :=
  (Encoding.ofDiagram .builtin d d.runOrder).toModel d.name

/-- A switch between two vectors. -/
def switchOverVectors : Diagram where
  name := "m"
  blocks :=
    [⟨1, "A", "Inport", 0, 1, []⟩, ⟨2, "M1", "Mux", 2, 1, []⟩, ⟨3, "M2", "Mux", 2, 1, []⟩,
      ⟨4, "S", "Switch", 3, 1, []⟩, ⟨5, "Y", "Outport", 1, 0, []⟩]
  signals :=
    [⟨1, ⟨1, 0⟩, ⟨2, 0⟩⟩, ⟨2, ⟨1, 0⟩, ⟨2, 1⟩⟩, ⟨3, ⟨1, 0⟩, ⟨3, 0⟩⟩, ⟨4, ⟨1, 0⟩, ⟨3, 1⟩⟩,
      ⟨5, ⟨2, 0⟩, ⟨4, 0⟩⟩, ⟨6, ⟨1, 0⟩, ⟨4, 1⟩⟩, ⟨7, ⟨3, 0⟩, ⟨4, 2⟩⟩, ⟨8, ⟨4, 0⟩, ⟨5, 0⟩⟩]

/-- The definitions are closed without a fault, but the output of the switch is given by
cases over two vectors: it is not eliminable, and the model that the blocks give still
reads it. -/
theorem switchOverVectors_keeps_output :
    ∃ closed, Definition.close (encodedDefinitions binary64Setting switchOverVectors) =
      .ok closed ∧
      ¬Definition.Eliminable closed "S_out" ∧
      ((encodedModel switchOverVectors).unfoldAll closed).mentions "S_out" = true := by
  have heval : (((exhaustWithin Definition.liftStep? 9
      (distinct (encodedDefinitions binary64Setting switchOverVectors))).bind
        (exhaustWithin Definition.closeStep? 99)).any fun last =>
      !decide (Definition.Eliminable (distinct last) "S_out") &&
        (exhaustWithin HybridModel.Lifting.step? 99
            ⟨(Definition.widths (distinct last)).reverse, [],
              encodedModel switchOverVectors⟩).any fun l =>
          (((distinct last).filter fun d => !d.isWidth).foldl Definition.unfoldModel
            l.model).mentions "S_out") =
      true := by
    decide +kernel
  obtain ⟨last, hlast, hkept⟩ := (Option.any_eq_true _ _).mp heval
  obtain ⟨lifted, hlift, hclosing⟩ := Option.bind_eq_some_iff.mp hlast
  obtain ⟨hstays, hreads⟩ := Bool.and_eq_true_iff.mp hkept
  obtain ⟨l, hl, hmentions⟩ := (Option.any_eq_true _ _).mp hreads
  refine ⟨distinct last, ?_, by simpa using hstays, ?_⟩
  · rw [Definition.close_of_wellFormed rfl rfl, Definition.liftAll,
      exhaust_of_exhaust? (exhaust?_of_exhaustWithin hlift), Definition.closeAll,
      exhaust_of_exhaust? (exhaust?_of_exhaustWithin hclosing)]
  · rw [HybridModel.unfoldAll, HybridModel.liftAll,
      exhaust_of_exhaust? (exhaust?_of_exhaustWithin hl)]
    exact hmentions

end Witness

end Analysis

end SignalFlow
