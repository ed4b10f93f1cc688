import Mathlib.Algebra.Order.Field.Rat
import SignalFlow.Proofs.ExactValue
import SignalFlow.Proofs.ScalarClosure

/-!
# Closing keeps the meaning of definitions

A valuation satisfies a definition of a name by a term if the name has the value of the
term, and a definition by cases if the name has the value of every case whose guard holds.
A list of definitions without vectors is closed by inlining; the closed list is satisfied
by the same valuations.

Cases have to be exhaustive: if no guard of `y` holds, the definition of `y` says nothing,
and a definition that is split by the cases of `y` says nothing either.

**Results.**
* `satisfied_inlineScalar`: where the inlined definition is satisfied, inlining keeps
  satisfaction.
* `exhaustive_inlineScalar`: inlining keeps cases exhaustive.
* `satisfied_close_iff`: closing keeps satisfaction.
-/

namespace SignalFlow

variable {R : Type} {K : Type*} [Scalar R] [Field K] [LinearOrder K]

namespace Definition

/-- A valuation gives the defined names the values that the definition says. -/
def Satisfied (ρ : Reading R K) (v : Valuation K) : Definition R → Prop
  | .simple x t => v x = t.eval ρ v
  | .vector x ts => ∀ e ∈ ts.zipIdx, v (Term.elementName x e.2) = e.1.eval ρ v
  | .cases x cs => ∀ c ∈ cs, c.1.Holds ρ v → v x = c.2.eval ρ v
  | .width _ _ => True

/-- Whatever the valuation, the guard of a case holds. -/
def Exhaustive (ρ : Reading R K) : Definition R → Prop
  | .cases _ cs => ∀ v : Valuation K, ∃ c ∈ cs, c.1.Holds ρ v
  | _ => True

variable {ρ : Reading R K} {v : Valuation K}

/-- Equal definitions are satisfied alike. -/
theorem satisfied_of_beq {a b : Definition R} (h : (a == b) = true)
    (hb : b.Satisfied ρ v) : a.Satisfied ρ v := by
  rcases parts_of_beq h with ⟨x, t, u, rfl, rfl, htu⟩ | ⟨x, ts, us, rfl, rfl, htu⟩ |
    ⟨x, cs, es, rfl, rfl, hce⟩ | ⟨x, n, rfl, rfl⟩
  · exact hb.trans (Term.eval_eq_of_beq ρ v t u htu).symm
  · have hmap : ts.map (Term.eval ρ v) = us.map (Term.eval ρ v) :=
      map_eq_of_beq (Term.eval_eq_of_beq ρ v) htu
    rintro ⟨t, i⟩ hti
    have hget : ts[i]? = some t := List.mem_zipIdx_iff_getElem?.mp hti
    have hvalue : (us.map (Term.eval ρ v))[i]? = some (t.eval ρ v) := by
      rw [← hmap, List.getElem?_map, hget]
      rfl
    obtain ⟨u, hu, hut⟩ := Option.map_eq_some_iff.mp (List.getElem?_map ▸ hvalue)
    rw [← hut]
    exact hb (u, i) (List.mem_zipIdx_iff_getElem?.mpr hu)
  · have hmap : cs.map (fun c => c.1.Holds ρ v → v x = c.2.eval ρ v) =
        es.map (fun c => c.1.Holds ρ v → v x = c.2.eval ρ v) := by
      refine map_eq_of_beq ?_ hce
      intro c e hc
      obtain ⟨hguard, hvalue⟩ := Bool.and_eq_true_iff.mp hc
      rw [Term.eval_eq_of_beq ρ v c.2 e.2 hvalue,
        propext (Formula.holds_iff_of_beq ρ v c.1 e.1 hguard)]
    have hall : ∀ q ∈ es.map (fun c => c.1.Holds ρ v → v x = c.2.eval ρ v), q :=
      List.forall_mem_map.mpr hb
    rw [← hmap] at hall
    exact List.forall_mem_map.mp hall
  · trivial

/-- The distinct definitions of a list say as much as the list. -/
theorem satisfied_distinct_iff {ds : List (Definition R)} :
    (∀ d ∈ distinct ds, d.Satisfied ρ v) ↔ ∀ d ∈ ds, d.Satisfied ρ v := by
  constructor
  · intro h d hd
    obtain ⟨e, he, rfl | hde⟩ := exists_mem_distinct hd
    · exact h e he
    · exact satisfied_of_beq hde (h e he)
  · exact fun h d hd => h d (mem_of_mem_distinct hd)

/-- Setting a name to the value of a case that holds changes nothing where the definition
is satisfied. -/
theorem update_eq_of_holds {y : String} {alternatives : List (Formula R × Term R)}
    (hsat : (Definition.cases y alternatives).Satisfied ρ v) {a : Formula R × Term R}
    (ha : a ∈ alternatives) (hguard : a.1.Holds ρ v) :
    Function.update v y (a.2.eval ρ v) = v := by
  rw [← hsat a ha hguard, Function.update_eq_self]

/-- Where the definition of `y` by cases is satisfied, a case and its parts split by the
cases of `y` ask for the same. -/
theorem splitCase_iff {x y : String} {alternatives : List (Formula R × Term R)}
    (hsat : (Definition.cases y alternatives).Satisfied ρ v)
    (hex : (Definition.cases y alternatives).Exhaustive ρ) (c : Formula R × Term R) :
    (∀ b ∈ splitCase y alternatives c, b.1.Holds ρ v → v x = b.2.eval ρ v) ↔
      (c.1.Holds ρ v → v x = c.2.eval ρ v) := by
  unfold splitCase
  split
  · constructor
    · intro h hc
      obtain ⟨a, ha, hguard⟩ := hex v
      have hb := h _ (List.mem_map.mpr ⟨a, ha, rfl⟩)
      simp only [Formula.holds_conj, List.forall_mem_cons, List.not_mem_nil, false_implies,
        implies_true, and_true, Formula.holds_subst, Term.eval_subst,
        update_eq_of_holds hsat ha hguard] at hb
      exact hb ⟨hc, hguard⟩
    · intro h b hb hguards
      obtain ⟨a, ha, rfl⟩ := List.mem_map.mp hb
      simp only [Formula.holds_conj, List.forall_mem_cons, List.not_mem_nil, false_implies,
        implies_true, and_true, Formula.holds_subst] at hguards
      rw [update_eq_of_holds hsat ha hguards.2] at hguards
      rw [Term.eval_subst, update_eq_of_holds hsat ha hguards.2]
      exact h hguards.1
  · simp

/-- Where the inlined definition is satisfied, inlining keeps satisfaction. -/
theorem satisfied_inlineScalar {e d : Definition R} (he : e.IsScalar) (hd : d.IsScalar)
    (hsat : d.Satisfied ρ v) (hex : d.Exhaustive ρ) :
    (e.inlineScalar d).Satisfied ρ v ↔ e.Satisfied ρ v := by
  cases d with
  | simple y u =>
      have hupdate : Function.update v y (u.eval ρ v) = v := by
        have hy : v y = u.eval ρ v := hsat
        rw [← hy, Function.update_eq_self]
      cases e with
      | simple x t =>
          simp only [inlineScalar, Satisfied, Term.eval_subst, hupdate]
      | cases x cs =>
          simp only [inlineScalar, Satisfied, List.forall_mem_map, Formula.holds_subst,
            Term.eval_subst, hupdate]
      | vector x ts => exact he.elim
      | width x n => exact he.elim
  | cases y alternatives =>
      cases e with
      | simple x t =>
          simp only [inlineScalar, byCases, Satisfied, List.forall_mem_map]
          constructor
          · intro h
            obtain ⟨a, ha, hguard⟩ := hex v
            rw [h a ha hguard, Term.eval_subst, update_eq_of_holds hsat ha hguard]
          · intro h a ha hguard
            rw [h, Term.eval_subst, update_eq_of_holds hsat ha hguard]
      | cases x cs =>
          simp only [inlineScalar, Satisfied, List.forall_mem_flatMap]
          exact forall₂_congr fun c _ => splitCase_iff hsat hex c
      | vector x ts => exact he.elim
      | width x n => exact he.elim
  | vector y us => exact hd.elim
  | width y n => exact hd.elim

/-- Inlining keeps cases exhaustive: the guards hold where those of the definition hold
after the inlined name is set to one of its values. -/
theorem exhaustive_inlineScalar {e d : Definition R} (he : e.IsScalar) (hd : d.IsScalar)
    (hee : e.Exhaustive ρ) (hde : d.Exhaustive ρ) : (e.inlineScalar d).Exhaustive ρ := by
  cases d with
  | simple y u =>
      cases e with
      | simple x t => trivial
      | cases x cs =>
          intro v
          obtain ⟨c, hc, hguard⟩ := hee (Function.update v y (u.eval ρ v))
          exact ⟨_, List.mem_map.mpr ⟨c, hc, rfl⟩,
            (Formula.holds_subst ρ v _ _ _).mpr hguard⟩
      | vector x ts => exact he.elim
      | width x n => exact he.elim
  | cases y alternatives =>
      cases e with
      | simple x t =>
          intro v
          obtain ⟨a, ha, hguard⟩ := hde v
          exact ⟨_, List.mem_map.mpr ⟨a, ha, rfl⟩, hguard⟩
      | cases x cs =>
          intro v
          obtain ⟨a, ha, hguard⟩ := hde v
          obtain ⟨c, hc, hcase⟩ := hee (Function.update v y (a.2.eval ρ v))
          by_cases hm : (c.1.mentions y || c.2.mentions y) = true
          · refine ⟨(.conj [c.1.subst y a.2, a.1], c.2.subst y a.2), ?_, ?_⟩
            · refine List.mem_flatMap.mpr ⟨c, hc, ?_⟩
              rw [splitCase, if_pos hm]
              exact List.mem_map.mpr ⟨a, ha, rfl⟩
            · simp [Formula.holds_subst, hcase, hguard]
          · refine ⟨c, List.mem_flatMap.mpr ⟨c, hc, ?_⟩, ?_⟩
            · rw [splitCase, if_neg hm]
              exact List.mem_singleton_self c
            · have hno : c.1.mentions y = false := by
                simp only [Bool.or_eq_true, not_or] at hm
                simpa using hm.1
              exact (Formula.holds_update_of_not_mentions ρ v hno _).mp hcase
      | vector x ts => exact he.elim
      | width x n => exact he.elim
  | vector y us => exact hd.elim
  | width y n => exact hd.elim

/-! ### Lists of definitions -/

/-- Definitions without vectors, by exhaustive cases, that are satisfied by the same
valuations as `ds`. -/
structure SaysAs (ρ : Reading R K) (ds es : List (Definition R)) : Prop where
  scalar : ∀ e ∈ es, e.IsScalar
  exhaustive : ∀ e ∈ es, e.Exhaustive ρ
  satisfied : ∀ v : Valuation K, (∀ e ∈ es, e.Satisfied ρ v) ↔ ∀ d ∈ ds, d.Satisfied ρ v

/-- A step of closing keeps what a list says. -/
theorem SaysAs.step {ds es next : List (Definition R)} (h : SaysAs ρ ds es)
    (hstep : closeStep? es = some next) : SaysAs ρ ds next := by
  refine ⟨?_, ?_, ?_⟩
  · exact forall_mem_of_closeStep? h.scalar hstep h.scalar
      fun e d he hd _ _ => isScalar_inlineScalar he hd
  · exact forall_mem_of_closeStep? h.scalar hstep h.exhaustive
      fun e d he hd hex hdex => exhaustive_inlineScalar he hd hex hdex
  · intro v
    obtain ⟨before, e, after, d, rfl, hd, hdmem, _, rfl⟩ :=
      closeStep?_of_isScalar h.scalar hstep
    have hes := h.scalar e (by simp)
    have hds := h.scalar d hdmem
    have hdex := h.exhaustive d hdmem
    rw [← h.satisfied v]
    simp only [List.append_assoc, List.singleton_append, List.forall_mem_append,
      List.forall_mem_cons]
    -- The inlined definition stands elsewhere in the list, so it is satisfied on both
    -- sides.
    have hdsat : (∀ f ∈ before, f.Satisfied ρ v) → (∀ f ∈ after, f.Satisfied ρ v) →
        d.Satisfied ρ v := by
      intro hbefore hafter
      rcases List.mem_append.mp hd with hd | hd
      · exact hbefore d hd
      · exact hafter d hd
    constructor
    · rintro ⟨hbefore, hinl, hafter⟩
      have hsat := hdsat hbefore hafter
      exact ⟨hbefore, (satisfied_inlineScalar hes hds hsat hdex).mp hinl, hafter⟩
    · rintro ⟨hbefore, he, hafter⟩
      have hsat := hdsat hbefore hafter
      exact ⟨hbefore, (satisfied_inlineScalar hes hds hsat hdex).mpr he, hafter⟩

/-- Definitions of plain names by terms and exhaustive cases are satisfied by the same
valuations as their closed form. -/
theorem satisfied_close_iff (ρ : Reading R K) {ds closed : List (Definition R)}
    (hscalar : ∀ d ∈ ds, d.IsScalar) (hname : ∀ d ∈ ds, PlainName d.name)
    (hex : ∀ d ∈ ds, d.Exhaustive ρ) (h : close ds = .ok closed) (v : Valuation K) :
    (∀ d ∈ ds, d.Satisfied ρ v) ↔ ∀ d ∈ closed, d.Satisfied ρ v := by
  obtain ⟨_, _, rfl⟩ := close_eq_ok h
  have hstart : SaysAs ρ ds (distinct ds) :=
    ⟨fun d hd => hscalar d (mem_of_mem_distinct hd), fun d hd =>
      hex d (mem_of_mem_distinct hd),
      fun _ => satisfied_distinct_iff⟩
  have hlift : liftAll (distinct ds) = distinct ds :=
    liftAll_of_isScalar hstart.scalar fun d hd => hname d (mem_of_mem_distinct hd)
  have hend : SaysAs ρ ds (closeAll (distinct ds)) :=
    exhaust_invariant (fun _ _ hes hstep => hes.step hstep) hstart
  rw [hlift, satisfied_distinct_iff, hend.satisfied v]

/-- **Closing keeps satisfaction.**  It ends, its result defines the same names without
using any of them, and the same valuations satisfy it. -/
theorem close_satisfied_iff (ρ : Reading R K) {ds closed : List (Definition R)}
    (hscalar : ∀ d ∈ ds, d.IsScalar) (hname : ∀ d ∈ ds, PlainName d.name)
    (hex : ∀ d ∈ ds, d.Exhaustive ρ) (h : close ds = .ok closed) :
    (∃ last, exhaust? closeStep? (distinct ds) = some last ∧ closed = distinct last) ∧
      ClosedForm ds closed ∧
      ∀ v, (∀ d ∈ ds, d.Satisfied ρ v) ↔ ∀ d ∈ closed, d.Satisfied ρ v := by
  obtain ⟨last, hlast, hclosed, hform⟩ := closedForm_of_close hscalar hname h
  exact ⟨⟨last, hlast, hclosed⟩, hform, satisfied_close_iff ρ hscalar hname hex h⟩

section Witness

/-- A sum over a selection over a product. -/
def selectedSum : List (Definition Float) :=
  [.simple "y" (.add [.var "s", .num 1]),
   .cases "s" [(.compare (.var "g") .lt (.num 0), .var "g"),
     (.compare (.var "g") .ge (.num 0), .var "u")],
   .simple "g" (.mul [.num 2, .var "u"])]

/-- The closed form of `selectedSum`. -/
def selectedSumClosed : List (Definition Float) :=
  [.cases "y" [(.compare (.mul [.num 2, .var "u"]) .lt (.num 0),
     .add [.mul [.num 2, .var "u"], .num 1]),
     (.compare (.mul [.num 2, .var "u"]) .ge (.num 0), .add [.var "u", .num 1])],
   .cases "s" [(.compare (.mul [.num 2, .var "u"]) .lt (.num 0), .mul [.num 2, .var "u"]),
     (.compare (.mul [.num 2, .var "u"]) .ge (.num 0), .var "u")],
   .simple "g" (.mul [.num 2, .var "u"])]

theorem close_selectedSum : close selectedSum = .ok selectedSumClosed := by
  have hlift : liftAll (distinct selectedSum) = selectedSum :=
    exhaust_of_exhaust? (exhaust?_of_exhaustWithin (n := 1) rfl)
  have hclose : closeAll selectedSum = selectedSumClosed :=
    exhaust_of_exhaust? (exhaust?_of_exhaustWithin (n := 4) rfl)
  rw [close_of_wellFormed (by decide) (by decide), hlift, hclose]
  rfl

/-- Exact rational values, with a power that ignores its exponent. -/
def rationalReading : Reading Float ℚ :=
  Binary64.exactReading fun a _ => a

theorem exhaustive_selectedSum : ∀ d ∈ selectedSum, d.Exhaustive rationalReading := by
  intro d hd
  simp only [selectedSum, List.mem_cons, List.not_mem_nil, or_false] at hd
  rcases hd with rfl | rfl | rfl
  · trivial
  · intro v
    have hzero : rationalReading.lit (0 : Float) = 0 := rfl
    rcases lt_or_ge (v "g") 0 with h | h
    · refine ⟨_, List.mem_cons_self, ?_⟩
      simpa [Formula.compare, Relation.Holds, Comparison.Compares, hzero] using h
    · refine ⟨_, List.mem_cons_of_mem _ List.mem_cons_self, ?_⟩
      simpa [Formula.compare, Relation.Holds, Comparison.Compares, hzero] using h
  · trivial

theorem close_satisfied_iff_selectedSum :
    close selectedSum = .ok selectedSumClosed ∧ ClosedForm selectedSum selectedSumClosed ∧
      ∀ v, (∀ d ∈ selectedSum, d.Satisfied rationalReading v) ↔
        ∀ d ∈ selectedSumClosed, d.Satisfied rationalReading v := by
  have hscalar : ∀ d ∈ selectedSum, d.IsScalar := by
    simp [selectedSum, IsScalar]
  have hname : ∀ d ∈ selectedSum, PlainName d.name := by decide
  exact ⟨close_selectedSum,
    (close_satisfied_iff rationalReading hscalar hname exhaustive_selectedSum
      close_selectedSum).2⟩

end Witness

end Definition
end SignalFlow
