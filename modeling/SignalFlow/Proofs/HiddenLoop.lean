import Mathlib.Data.Finset.Card
import Mathlib.Logic.Relation
import SignalFlow.Proofs.ElementClosure
import SignalFlow.Proofs.Elimination
import SignalFlow.Proofs.LiftingEnds

/-!
# Loops that the search for circles does not see

The search for circles looks at the given definitions.  It knows that a vector is made of
its elements, but not that a name which is given by a term or by cases becomes a vector
when it is lifted.  So a definition that uses an element of such a name hides a dependency,
and a loop through it stays unseen.

**Results.**
* `exists_layered_of_acyclic`: parts without a circle have a rank.
* `exists_origin`: what lifting makes of a definition, and what it uses.
* `exists_hidden_of_circle`: every circle of the parts passes a hidden element, if no
  circle is seen.
* `Analysis.closing_ends_unless_hidden`: what this means for the definitions of a diagram.
* `Analysis.negative_feedback_never_closes`, `Analysis.positive_feedback_unreported`:
  hidden loops.
-/

open Relation (TransGen ReflTransGen)

namespace SignalFlow

namespace Term

variable {R : Type}

/-- The variable `x`, negated `n` times. -/
def negations (x : String) : Nat → Term R
  | 0 => .var x
  | n + 1 => .neg (negations x n)

theorem mentions_negations (x y : String) (n : Nat) :
    (negations x n : Term R).mentions y = (x == y) := by
  induction n with
  | zero => rw [negations, mentions]
  | succ n ih => rw [negations, mentions, ih]

theorem subst_negations [Scalar R] (x : String) (n : Nat) :
    (negations x n : Term R).subst x (.neg (.var x)) = negations x (n + 1) := by
  induction n with
  | zero => simp [negations, subst]
  | succ n ih => rw [negations, subst, ih, ← negations]

theorem beq_negations [BEq R] (x : String) (n : Nat) :
    beq (negations x (n + 1) : Term R) (negations x n) = false := by
  induction n with
  | zero => rfl
  | succ n ih => exact ih

end Term

namespace Definition

variable {R : Type}

/-- The definition of `x`, which may be an element, uses `y`. -/
def UsesElement (ds : List (Definition R)) (x y : String) : Prop :=
  ∃ p ∈ ds.flatMap parts, p.name = x ∧ p.mentions y = true

/-- Parts without a circle have a rank: the number of parts that they lead to. -/
theorem exists_layered_of_acyclic {ds : List (Definition R)}
    (h : ∀ x, ¬TransGen (UsesElement ds) x x) :
    ∃ rank, Layered rank ((ds.flatMap parts).map name) (ds.flatMap parts) := by
  classical
  refine ⟨fun x => {y ∈ ((ds.flatMap parts).map name).toFinset | TransGen
    (UsesElement ds) x y}.card, ?_, rfl, ?_⟩
  · intro p hp
    obtain ⟨_, _, hp⟩ := List.mem_flatMap.mp hp
    exact isScalar_of_mem_parts hp
  · intro p hp x hx hm
    have huse : UsesElement ds p.name x := ⟨p, hp, rfl, hm⟩
    refine Finset.card_lt_card
      (Finset.ssubset_iff_subset_ne.mpr ⟨fun y hy => ?_, fun heq => ?_⟩)
    · rw [Finset.mem_filter] at hy ⊢
      exact ⟨hy.1, TransGen.head huse hy.2⟩
    · have hmem : x ∈ {y ∈ ((ds.flatMap parts).map name).toFinset | TransGen
          (UsesElement ds) p.name y} :=
        Finset.mem_filter.mpr ⟨List.mem_toFinset.mpr hx, TransGen.single huse⟩
      rw [← heq] at hmem
      exact h x (Finset.mem_filter.mp hmem).2

section Origins

/-- What lifting can make of a definition: it uses what the definition uses, or elements of
it. -/
structure DescendsFrom (d origin : Definition R) : Prop where
  isWidth : d.isWidth = origin.isWidth
  name : vectorOf d.name = origin.name
  mentions : ∀ y, d.mentions y = true → origin.mentions y = true ∨
    ∃ v i, y = Term.elementName v i ∧ PlainName v ∧ origin.mentions v = true
  elements : ∀ x us, origin = .vector x us → ∃ ts, d = .vector x ts ∧ ts.length = us.length

theorem DescendsFrom.refl {d : Definition R} (h : PlainName d.name) : DescendsFrom d d :=
  ⟨rfl, vectorOf_of_plain h, fun _ hy => Or.inl hy, fun _ us hd => ⟨us, hd, rfl⟩⟩

variable [Scalar R]

theorem DescendsFrom.lift {d e origin : Definition R} {v : String} {n : Nat}
    (h : DescendsFrom d origin) (hv : PlainName v) (hm : d.mentions v = true)
    (he : e ∈ d.lift v n) : DescendsFrom e origin where
  isWidth := by
    rw [← h.isWidth]
    cases d with
    | simple y t => rw [List.mem_singleton.mp he]; rfl
    | vector y ts => rw [List.mem_singleton.mp he]; rfl
    | cases y cs =>
        obtain ⟨_, _, rfl⟩ := List.mem_map.mp he
        rfl
    | width y k => rw [List.mem_singleton.mp he]
  name := (vectorOf_name_of_mem_lift he).trans h.name
  mentions := by
    intro y hy
    rcases mentions_of_mem_lift he hy with ⟨hdy, _⟩ | ⟨i, rfl⟩
    · exact h.mentions y hdy
    · -- The vector itself is used by the origin, since it is no element.
      rcases h.mentions v hm with ho | ⟨w, j, rfl, _⟩
      · exact Or.inr ⟨v, i, rfl, hv, ho⟩
      · exact absurd hv (not_plain_elementName w j)
  elements := by
    intro x us hx
    obtain ⟨ts, rfl, hlength⟩ := h.elements x us hx
    exact ⟨_, List.mem_singleton.mp he, by simpa using hlength⟩

/-- Every lifted definition descends from a given one. -/
theorem exists_origin {given lifted : List (Definition R)}
    (hplain : ∀ d ∈ given, PlainName d.name) (htidy : Tidy given)
    (h : exhaust? liftStep? given = some lifted) :
    ∀ d ∈ lifted, ∃ o ∈ given, DescendsFrom d o := by
  refine ((reaches_of_exhaust? h).1.invariant
    (P := fun ds => Lifted given ds ∧ ∀ d ∈ ds, ∃ o ∈ given, DescendsFrom d o) ?_
    ⟨Lifted.start hplain htidy, fun d hd => ⟨d, hd, .refl (hplain d hd)⟩⟩).2
  rintro ds next ⟨hlifted, horigin⟩ hstep
  refine ⟨hlifted.step hstep, fun e he => ?_⟩
  obtain ⟨d, v, n, hrep, hv, hm⟩ := liftStep?_eq_some hstep
  rcases hrep.new e he with he | he
  · exact horigin e he
  · obtain ⟨o, ho, hd⟩ := horigin d hrep.mem
    have hplainv :=
      hlifted.tidy.plain_of_isVectorName (mem_map_fst_widths.mp (List.mem_map_of_mem hv))
    exact ⟨o, ho, hd.lift hplainv hm he⟩

end Origins

section Circles

theorem vectorOf_name_of_mem_parts {d p : Definition R} (h : p ∈ d.parts) :
    vectorOf p.name = vectorOf d.name := by
  cases d with
  | simple x t => rw [List.mem_singleton.mp h]
  | vector x ts =>
      obtain ⟨t, i, _, rfl⟩ := mem_parts_vector.mp h
      exact vectorOf_elementName x i
  | cases x cs => rw [List.mem_singleton.mp h]
  | width x n => cases h

theorem isWidth_of_mem_parts {d p : Definition R} (h : p ∈ d.parts) :
    d.isWidth = false := by
  cases d with
  | width x n => cases h
  | _ => rfl

theorem elementNames_of_vector {d : Definition R} {ts : List (Term R)}
    (h : d = .vector d.name ts) :
    d.elementNames = (List.range ts.length).map (Term.elementName d.name) := by
  cases d with
  | vector x us =>
      cases h
      rfl
  | _ => cases h

/-- An element is used of a name that is given by a term or by cases. -/
def HiddenElement (given : List (Definition R)) (y : String) : Prop :=
  (∃ o ∈ given, o.mentions y = true) ∧ ¬PlainName y ∧ IsScalarName given (vectorOf y)

variable {given lifted : List (Definition R)} {rank : String → Nat}

/-- A use of a part is a dependency of the given definitions, unless the part is hidden. -/
theorem lower_or_hidden (horigin : ∀ d ∈ lifted, ∃ o ∈ given, DescendsFrom d o)
    (hrank : ∀ d ∈ given, ∀ e ∈ given, d.dependsOn e = true → rank e.name < rank d.name)
    {x y z : String} (hxy : UsesElement lifted x y) (hyz : UsesElement lifted y z) :
    rank (vectorOf y) < rank (vectorOf x) ∨ HiddenElement given y := by
  obtain ⟨p, hp, rfl, hm⟩ := hxy
  obtain ⟨q, hq, rfl, _⟩ := hyz
  obtain ⟨d, hd, hp⟩ := List.mem_flatMap.mp hp
  obtain ⟨e, he, hq⟩ := List.mem_flatMap.mp hq
  obtain ⟨o, ho, hdo⟩ := horigin d hd
  obtain ⟨u, hu, heu⟩ := horigin e he
  have howidth : o.isWidth = false := hdo.isWidth ▸ isWidth_of_mem_parts hp
  have huwidth : u.isWidth = false := heu.isWidth ▸ isWidth_of_mem_parts hq
  have hname : vectorOf q.name = u.name := (vectorOf_name_of_mem_parts hq).trans heu.name
  have hlower : o.mentions u.name = true ∨ (∃ w ∈ u.elementNames, o.mentions w = true) →
      rank (vectorOf q.name) < rank (vectorOf p.name) := by
    intro huses
    rw [hname, vectorOf_name_of_mem_parts hp, hdo.name]
    refine hrank o ho u hu ?_
    simpa [dependsOn, howidth, huwidth] using huses
  rcases hdo.mentions q.name (mentions_iff_parts.mpr ⟨p, hp, hm⟩) with
    hoq | ⟨v, i, hqv, hv, hov⟩
  · by_cases hplain : PlainName q.name
    · have huname : u.name = q.name := by rw [← hname, vectorOf_of_plain hplain]
      exact Or.inl (hlower (Or.inl (by rw [huname]; exact hoq)))
    · rcases isScalar_or_vector huwidth with hs | ⟨us, hus⟩
      · exact Or.inr ⟨⟨o, ho, hoq⟩, hplain, u, hu, hs, hname.symm⟩
      · obtain ⟨ts, rfl, hlength⟩ := heu.elements u.name us hus
        obtain ⟨t, i, hi, rfl⟩ := mem_parts_vector.mp hq
        have hlt : i < us.length := hlength ▸ (List.getElem?_eq_some_iff.mp hi).1
        refine Or.inl (hlower (Or.inr ⟨_, ?_, hoq⟩))
        rw [elementNames_of_vector hus]
        exact List.mem_map_of_mem (List.mem_range.mpr hlt)
  · refine Or.inl (hlower (Or.inl ?_))
    rw [← hname, hqv, vectorOf_elementName, vectorOf_of_plain hv]
    exact hov

/-- Every circle of the parts passes a hidden element, if the given definitions have a
rank. -/
theorem exists_hidden_of_circle (horigin : ∀ d ∈ lifted, ∃ o ∈ given, DescendsFrom d o)
    (hrank : ∀ d ∈ given, ∀ e ∈ given, d.dependsOn e = true → rank e.name < rank d.name)
    {x : String} (hx : TransGen (UsesElement lifted) x x) :
    ∃ y, HiddenElement given y ∧ TransGen (UsesElement lifted) x y ∧
      TransGen (UsesElement lifted) y x := by
  by_contra hno
  -- Along a circle without a hidden element the rank falls.
  have hstep : ∀ w z, TransGen (UsesElement lifted) x z → UsesElement lifted w z →
      ReflTransGen (UsesElement lifted) z x → rank (vectorOf z) < rank (vectorOf w) := by
    intro w z hxz hwz hzx
    have hback : TransGen (UsesElement lifted) z x := TransGen.trans_right hzx hx
    obtain ⟨z', hzz', _⟩ := TransGen.head'_iff.mp hback
    refine (lower_or_hidden horigin hrank hwz hzz').resolve_right fun hhidden => ?_
    exact hno ⟨z, hhidden, hxz, hback⟩
  have hfalls : ∀ z, TransGen (UsesElement lifted) x z →
      ReflTransGen (UsesElement lifted) z x →
      rank (vectorOf z) < rank (vectorOf x) := by
    intro z hxz
    induction hxz with
    | single hxz => exact hstep x _ (TransGen.single hxz) hxz
    | tail hxw hwz ih =>
        intro hzx
        exact lt_trans (hstep _ _ (hxw.tail hwz) hwz hzx) (ih (ReflTransGen.head hwz hzx))
  exact lt_irrefl _ (hfalls x hx ReflTransGen.refl)

end Circles

end Definition

namespace Analysis

open Definition

variable {R : Type} [Scalar R]

/-- **Closing the definitions of a diagram.**  If no conflict and no circle is seen,
lifting ends.  If the parts of the lifted definitions have no circle either, closing ends
too.  Any circle that they have passes an element of a name which is given by a term or by
cases. -/
theorem closing_ends_unless_hidden (c : AnalysisSetting R) (d : Diagram)
    (hconflict : conflict? (distinct (encodedDefinitions c d)) = none)
    (hcycle : cycle? (distinct (encodedDefinitions c d)) = none) :
    ∃ lifted, exhaust? liftStep? (distinct (encodedDefinitions c d)) = some lifted ∧
      ((∀ x, ¬TransGen (UsesElement lifted) x x) →
        ∃ closed, exhaust? closeStep? lifted = some closed) ∧
      ∀ x, TransGen (UsesElement lifted) x x →
        ∃ y, HiddenElement (distinct (encodedDefinitions c d)) y ∧
          TransGen (UsesElement lifted) x y ∧ TransGen (UsesElement lifted) y x := by
  have hplain : ∀ e ∈ distinct (encodedDefinitions c d), PlainName e.name :=
    fun e he => Encoding.plain_of_mem_definitions (mem_of_mem_distinct he)
  have htidy : Tidy (distinct (encodedDefinitions c d)) :=
    (Encoding.tidy_definitions _ _ _).of_subset fun e he => mem_of_mem_distinct he
  obtain ⟨lifted, hlift⟩ := exists_lifted hplain htidy
  obtain ⟨hlifted, _, hwhole⟩ := lifted_of_exhaust? hplain htidy
    (fun e he => not_mentions_self_of_cycle? hcycle he) hlift
  obtain ⟨rank, hrank⟩ := exists_rank_of_wellFormed hconflict hcycle
  refine ⟨lifted, hlift, fun hacyclic => ?_, fun x hx => ?_⟩
  · obtain ⟨rank', hlayered⟩ := exists_layered_of_acyclic hacyclic
    exact LayeredParts.exists_closed ⟨⟨hlifted.tidy, hwhole⟩, hlayered⟩
  · exact exists_hidden_of_circle (exists_origin hplain htidy hlift) hrank hx

section Feedback

/-- A sum of one input, whose value is taken apart and put together again to a vector that
is fed back. -/
def feedback (sign : String) : Diagram where
  name := "loop"
  blocks :=
    [⟨1, "S", "Sum", 1, 1, [("Inputs", sign)]⟩, ⟨2, "M", "Mux", 1, 1, []⟩,
      ⟨3, "D", "Demux", 1, 1, []⟩, ⟨4, "Y", "Outport", 1, 0, []⟩]
  signals :=
    [⟨1, ⟨1, 0⟩, ⟨3, 0⟩⟩, ⟨2, ⟨3, 0⟩, ⟨2, 0⟩⟩, ⟨3, ⟨2, 0⟩, ⟨1, 0⟩⟩, ⟨4, ⟨3, 0⟩, ⟨4, 0⟩⟩]

/-- The definitions of a feedback, with the element of the sum and the element that is fed
back. -/
def feedbackWith (sum element : Term Float) : List (Definition Float) :=
  [.vector "S_out" [sum], .vector "M_out" [.var "D_out"], .width "M_out" 1,
    .simple "D_out" element]

theorem lift_negative_feedback :
    exhaust? liftStep? (distinct (encodedDefinitions binary64Setting (feedback "-"))) =
      some (feedbackWith (.neg (.var "M_out[0]")) (.var "S_out[0]")) :=
  exhaust?_of_exhaustWithin (n := 2) rfl

theorem lift_positive_feedback :
    exhaust? liftStep? (distinct (encodedDefinitions binary64Setting (feedback "+"))) =
      some (feedbackWith (.var "M_out[0]") (.var "S_out[0]")) :=
  exhaust?_of_exhaustWithin (n := 2) rfl

/-- The closing of a negative feedback after three steps. -/
theorem reaches_negated :
    Reaches closeStep? (feedbackWith (.neg (.var "M_out[0]")) (.var "S_out[0]"))
      (feedbackWith (Term.negations "D_out" 1) (.neg (.var "D_out"))) :=
  .head rfl (.head rfl (.head rfl .refl))

variable (n : Nat)

theorem dependsOn_negations (other : Definition Float) :
    (Definition.vector "S_out" [Term.negations "D_out" n]).dependsOn other =
      (Definition.vector "S_out" [.var "D_out"]).dependsOn other := by
  simp [dependsOn, isWidth, Definition.mentions, Term.mentions_negations]

theorem inlined_negations_vector :
    (Definition.vector "S_out" [Term.negations "D_out" n] : Definition Float).inlined
      (.vector "M_out" [.var "D_out"]) = [] := by
  rw [inlined, inline_eq, dependsOn_negations]
  rfl

theorem inlined_negations :
    (Definition.vector "S_out" [Term.negations "D_out" n] : Definition Float).inlined
      (.simple "D_out" (.neg (.var "D_out"))) =
        [.vector "S_out" [Term.negations "D_out" (n + 1)]] := by
  have hchange :
      ((Definition.vector "S_out" [Term.negations "D_out" (n + 1)] : Definition Float) ==
      .vector "S_out" [Term.negations "D_out" n]) = false := by
    rw [vector_beq, List.cons_beq_cons]
    change (_ && (Term.beq _ _ && _)) = _
    rw [Term.beq_negations]
    rfl
  have hresults : inlineResults
      (Definition.vector "S_out" [Term.negations "D_out" n] : Definition Float)
      (.simple "D_out" (.neg (.var "D_out"))) =
          [.vector "S_out" [Term.negations "D_out" (n + 1)]] := by
    simp [inlineResults, inlinePlain, substTerm, substEach, replacements,
      Term.subst_negations]
  have hdepends : (Definition.vector "S_out" [.var "D_out"]).dependsOn
      (.simple "D_out" (.neg (.var "D_out")) : Definition Float) = true := rfl
  rw [inlined, inline_eq, dependsOn_negations, hdepends, hresults]
  simp [hchange]

/-- From then on a step adds one negation to the sum, and nothing else. -/
theorem closeStep?_negations :
    closeStep? (feedbackWith (Term.negations "D_out" n) (.neg (.var "D_out"))) =
      some (feedbackWith (Term.negations "D_out" (n + 1)) (.neg (.var "D_out"))) := by
  have hvector : inlineInto? (.vector "M_out" [.var "D_out"]) 1 0
      (feedbackWith (Term.negations "D_out" n) (.neg (.var "D_out"))) = none := by
    rw [feedbackWith, inlineInto?_cons, inlined_negations_vector]
    rfl
  have helement : inlineInto? (.simple "D_out" (.neg (.var "D_out"))) 3 0
      (feedbackWith (Term.negations "D_out" n) (.neg (.var "D_out"))) =
      some (feedbackWith (Term.negations "D_out" (n + 1)) (.neg (.var "D_out"))) := by
    rw [feedbackWith, inlineInto?_cons, inlined_negations]
    rfl
  -- The sum is tried first, and the width third: nothing uses them.
  change List.findSome? _ [(_, 0), (_, 1), (_, 2), (_, 3)] = _
  rw [List.findSome?_cons, List.findSome?_cons, List.findSome?_cons, List.findSome?_cons]
  simp only [hvector, helement]
  rfl

theorem closing_negative_feedback :
    exhaust? closeStep? (feedbackWith (.neg (.var "M_out[0]")) (.var "S_out[0]")) =
      none := by
  rw [exhaust?_of_reaches reaches_negated]
  refine exhaust?_eq_none
    (P := fun ds => ∃ n, ds = feedbackWith (Term.negations "D_out" n)
      (.neg (.var "D_out"))) ?_ ⟨1, rfl⟩
  rintro _ ⟨n, rfl⟩
  exact ⟨_, closeStep?_negations n, n + 1, rfl⟩

/-- A negative feedback is not seen as a circle, and its definitions are closed without
end. -/
theorem negative_feedback_never_closes :
    conflict? (distinct (encodedDefinitions binary64Setting (feedback "-"))) = none ∧
      cycle? (distinct (encodedDefinitions binary64Setting (feedback "-"))) = none ∧
      ∃ lifted, exhaust? liftStep?
        (distinct (encodedDefinitions binary64Setting (feedback "-"))) = some lifted ∧
        exhaust? closeStep? lifted = none ∧
        ∃ y,
          HiddenElement (distinct (encodedDefinitions binary64Setting (feedback "-"))) y ∧
          TransGen (UsesElement lifted) y y := by
  have hconflict :
    conflict? (distinct (encodedDefinitions binary64Setting (feedback "-"))) = none := rfl
  have hcycle :
    cycle? (distinct (encodedDefinitions binary64Setting (feedback "-"))) = none := rfl
  obtain ⟨lifted, hlift, hends, hhidden⟩ :=
    closing_ends_unless_hidden binary64Setting (feedback "-") hconflict hcycle
  have hnone : exhaust? closeStep? lifted = none := by
    rw [lift_negative_feedback, Option.some.injEq] at hlift
    exact hlift ▸ closing_negative_feedback
  have hcircle : ∃ x, TransGen (UsesElement lifted) x x := by
    by_contra hno
    obtain ⟨closed, hclosed⟩ := hends fun x hx => hno ⟨x, hx⟩
    rw [hnone] at hclosed
    cases hclosed
  obtain ⟨x, hx⟩ := hcircle
  obtain ⟨y, hy, hxy, hyx⟩ := hhidden x hx
  exact ⟨hconflict, hcycle, lifted, hlift, hnone, y, hy, hyx.trans hxy⟩

/-- A positive feedback is a circle that is not reported: closing ends with a definition of
an element by itself. -/
theorem positive_feedback_unreported :
    (run binary64Setting (feedback "+") .resolve).hasErrors = false ∧
      ∃ lifted, exhaust? liftStep?
        (distinct (encodedDefinitions binary64Setting (feedback "+"))) = some lifted ∧
        TransGen (UsesElement lifted) "D_out" "D_out" ∧
        exhaust? closeStep? lifted = some
          (feedbackWith (.var "D_out") (.var "D_out")) := by
  have hbefore : (beforeResolve binary64Setting (feedback "+")).hasErrors = false := by
    decide +kernel
  have hclose :
      Definition.close (encodedDefinitions binary64Setting (feedback "+")) = .ok _ :=
    Definition.close_of_wellFormed rfl rfl
  refine ⟨not_hasErrors_of_close _ _ hbefore hclose, _, lift_positive_feedback, ?_,
    exhaust?_of_exhaustWithin (n := 9) rfl⟩
  have hD : UsesElement (feedbackWith (.var "M_out[0]") (.var "S_out[0]")) "D_out"
      "S_out[0]" :=
    ⟨.simple "D_out" (.var "S_out[0]"), .tail _ (.tail _ (.head _)), rfl, rfl⟩
  have hS : UsesElement (feedbackWith (.var "M_out[0]") (.var "S_out[0]")) "S_out[0]"
      "M_out[0]" :=
    ⟨.simple "S_out[0]" (.var "M_out[0]"), .head _, rfl, rfl⟩
  have hM :
      UsesElement (feedbackWith (.var "M_out[0]") (.var "S_out[0]")) "M_out[0]" "D_out" :=
    ⟨.simple "M_out[0]" (.var "D_out"), .tail _ (.head _), rfl, rfl⟩
  exact .head hD (.head hS (.single hM))

end Feedback

end Analysis
end SignalFlow
