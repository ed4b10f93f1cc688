import Mathlib.Algebra.Order.AbsoluteValue.Basic
import Mathlib.Algebra.Order.Field.Basic
import Mathlib.Data.Finset.Max
import SignalFlow.Encoding.Block
import SignalFlow.Proofs.ExtendedRational

/-!
# Definitions by cases

The output of a block may be given by cases.  In every valuation exactly one guard holds,
and the term of its case has the value that the block computes: so cases neither contradict
each other nor leave the output open.

`Encoding.selected` lists the values of the cases whose guards hold.  That it is a single
value `y`, and that the block yields `y`, is what has to be shown.  `Block.Yields` says
what a block yields without terms and guards.

For a minimum or maximum block every guard compares one input with all others, strictly
with those before it; it holds at the first of the extreme inputs and nowhere else, however
many inputs are equal.

**Results.**
* `existsUnique_first_max`: among finitely many values there is one first greatest value.
* `holds_extremeGuard_iff`, `exists_switchGuard`: guards in terms of values.
* `selected_byGuard`, `selected_saturation`, `selected_minMax`: the case that is selected,
  for each encoding.
* `Encoding.guards_partition`: exactly one case is selected, and it is the right one.
-/

namespace SignalFlow

section FirstMaximum

variable {α : Type*} [LinearOrder α] {n : ℕ} {u : ℕ → α}

/-- The value at `k` exceeds those before it, and is exceeded by none of the others. -/
def IsFirstMax (n : ℕ) (u : ℕ → α) (k : ℕ) : Prop :=
  k < n ∧ ∀ j < n, j ≠ k → if j < k then u j < u k else u j ≤ u k

theorem IsFirstMax.le {k : ℕ} (h : IsFirstMax n u k) {j : ℕ} (hj : j < n) : u j ≤ u k := by
  by_cases hjk : j = k
  · rw [hjk]
  · have hbeaten := h.2 j hj hjk
    split at hbeaten
    · exact hbeaten.le
    · exact hbeaten

/-- The first greatest value is the greatest. -/
theorem IsFirstMax.isGreatest {k : ℕ} (h : IsFirstMax n u k) :
    IsGreatest (u '' Set.Iio n) (u k) := by
  refine ⟨⟨k, h.1, rfl⟩, ?_⟩
  rintro _ ⟨j, hj, rfl⟩
  exact h.le hj

/-- Among finitely many values there is one first greatest value. -/
theorem existsUnique_first_max (hn : 0 < n) (u : ℕ → α) : ∃! k, IsFirstMax n u k := by
  classical
  have hexists : ∃ k, k < n ∧ ∀ j < n, u j ≤ u k := by
    obtain ⟨k, hk, hmax⟩ :=
      (Finset.range n).exists_max_image u ⟨0, Finset.mem_range.mpr hn⟩
    exact ⟨k, Finset.mem_range.mp hk, fun j hj => hmax j (Finset.mem_range.mpr hj)⟩
  obtain ⟨hlt, hmax⟩ := Nat.find_spec hexists
  refine ⟨Nat.find hexists, ⟨hlt, fun j hj _ => ?_⟩, fun k hk => ?_⟩
  · split
    · next hbefore =>
        refine lt_of_not_ge fun hge => Nat.find_min hexists hbefore ⟨hj, fun i hi => ?_⟩
        exact (hmax i hi).trans hge
    · exact hmax j hj
  · -- Of two such values neither comes first.
    rcases lt_trichotomy k (Nat.find hexists) with hbefore | heq | hbehind
    · exact absurd ⟨hk.1, fun i hi => hk.le hi⟩ (Nat.find_min hexists hbefore)
    · exact heq
    · have hbeaten := hk.2 _ hlt hbehind.ne
      rw [if_pos hbehind] at hbeaten
      exact absurd (hmax k hk.1) (not_le.mpr hbeaten)

end FirstMaximum

variable {R : Type} [Scalar R] {K : Type*} [Field K] [LinearOrder K]

/-! ### What blocks yield -/

namespace Block

/-- The value of a parameter. -/
def paramValue? (b : Block) (ρ : Reading R K) (v : Valuation K)
    (key : String) : Option K :=
  (b.paramTerm? key).map (Term.eval ρ v)

/-- The comparison that a relational block makes. -/
def comparison (b : Block) : Comparison :=
  ((b.param? "Operator").bind Comparison.ofSymbol?).getD .ge

/-- The control value makes a switch select its first input. -/
def Passes (b : Block) (ρ : Reading R K) (v : Valuation K) (control : K) : Prop :=
  let criteria := ((b.param? "Criteria").getD "u2 >= Threshold").toList
  let threshold := (b.paramValue? ρ v "Threshold").getD 0
  if occursIn ['~', '='] criteria then control ≠ 0
  else if criteria.contains '>' && !occursIn ['>', '='] criteria then threshold < control
  else threshold ≤ control

/-- The value cut off at the limits that there are. -/
def cutOff (lower upper : Option K) (x : K) : K :=
  upper.elim (lower.elim x (max x)) (min (lower.elim x (max x)))

/-- From the values `u` at its inputs the block yields `y`. -/
def Yields (b : Block) (ρ : Reading R K) (v : Valuation K) (u : ℕ → K) (k : BlockKind)
    (y : K) : Prop :=
  match k with
  | .abs => y = |u 0|
  | .switch => (b.Passes ρ v (u 1) ∧ y = u 0) ∨ (¬b.Passes ρ v (u 1) ∧ y = u 2)
  | .relationalOperator => y = if b.comparison.Compares (u 0) (u 1) then 1 else 0
  | .minMax => if b.takesMaximum then IsGreatest (u '' Set.Iio b.inputs) y
      else IsLeast (u '' Set.Iio b.inputs) y
  | .saturation =>
      y = cutOff (b.paramValue? ρ v "LowerLimit") (b.paramValue? ρ v "UpperLimit") (u 0)
  | _ => False

/-- The output of the block is given by cases: a minimum or maximum has several inputs, and
a saturation has a limit. -/
def ByCases (R : Type) [Scalar R] (b : Block) : BlockKind → Prop
  | .abs => True
  | .switch => True
  | .relationalOperator => True
  | .minMax => 2 ≤ b.inputs
  | .saturation => (b.paramTerm? "LowerLimit" : Option (Term R)).isSome ∨
      (b.paramTerm? "UpperLimit" : Option (Term R)).isSome
  | _ => False

end Block

/-! ### Selected cases -/

namespace Encoding

variable {ρ : Reading R K} {v : Valuation K} {d : Diagram} {b : Block}

/-- The values of the cases whose guards hold. -/
def selected (ρ : Reading R K) (v : Valuation K)
    (cs : List (Formula R × Term R)) : List K :=
  (cs.filter fun c => c.1.Holds ρ v).map fun c => c.2.eval ρ v

@[simp] theorem selected_cons (p : Formula R) (t : Term R)
    (cs : List (Formula R × Term R)) :
    selected ρ v ((p, t) :: cs) = if p.Holds ρ v then t.eval ρ v :: selected ρ v cs
      else selected ρ v cs := by
  by_cases hp : p.Holds ρ v <;> simp [selected, hp]

@[simp] theorem selected_nil : selected ρ v ([] : List (Formula R × Term R)) = [] := by
  simp [selected]

@[simp] theorem holds_compare_iff {t u : Term R} {op : Comparison} :
    (Formula.compare t op u).Holds ρ v ↔ op.Compares (t.eval ρ v) (u.eval ρ v) := by
  rw [Formula.compare, Formula.holds_rel]
  rfl

/-- A guard that is a comparison selects one of two terms. -/
theorem selected_byGuard (t : Term R) (op : Comparison) (u x y : Term R) :
    selected ρ v [(.compare t op u, x), (opposite (.compare t op u), y)] =
      [if op.Compares (t.eval ρ v) (u.eval ρ v) then x.eval ρ v else y.eval ρ v] := by
  have hopposite : (opposite (.compare t op u)).Holds ρ v ↔
      ¬op.Compares (t.eval ρ v) (u.eval ρ v) := by
    rw [← Comparison.compares_negate]
    exact holds_compare_iff
  by_cases h : op.Compares (t.eval ρ v) (u.eval ρ v) <;> simp [hopposite, h]

theorem selected_abs [IsStrictOrderedRing K] {u : Term R}
    (hu : u.negate.eval ρ v = -u.eval ρ v) :
    selected ρ v [(.compare u .ge (.num 0), u), (.compare u .lt (.num 0), u.negate)] =
      [|u.eval ρ v|] := by
  refine (selected_byGuard u .ge (.num 0) u u.negate).trans ?_
  rw [Term.eval_num, ρ.lit_zero, hu]
  by_cases h : 0 ≤ u.eval ρ v
  · simp [Comparison.Compares, h, abs_of_nonneg]
  · simp [Comparison.Compares, h, abs_of_neg (not_le.mp h)]

/-- The input, or the limit that it is beyond. -/
theorem selected_saturation (u : Term R) (lower upper : Option (Term R))
    (hordered : ∀ lo ∈ lower, ∀ hi ∈ upper, lo.eval ρ v ≤ hi.eval ρ v) :
    selected ρ v (upper.toList.map (fun hi => (Formula.compare u .gt hi, hi))
      ++ lower.toList.map (fun lo => (Formula.compare u .lt lo, lo))
      ++ [(.conj (upper.toList.map (fun hi => Formula.compare u .le hi)
        ++ lower.toList.map (fun lo => Formula.compare u .ge lo)), u)]) =
      [Block.cutOff (lower.map (Term.eval ρ v)) (upper.map (Term.eval ρ v))
        (u.eval ρ v)] := by
  cases upper with
  | none =>
      cases lower with
      | none => simp [Block.cutOff]
      | some lo =>
          by_cases hlow : u.eval ρ v < lo.eval ρ v
          · simp [Comparison.Compares, Block.cutOff, hlow, hlow.le]
          · simp [Comparison.Compares, Block.cutOff, hlow, not_lt.mp hlow]
  | some hi =>
      cases lower with
      | none =>
          by_cases hhigh : hi.eval ρ v < u.eval ρ v
          · simp [Comparison.Compares, Block.cutOff, hhigh, hhigh.le]
          · simp [Comparison.Compares, Block.cutOff, hhigh, not_lt.mp hhigh]
      | some lo =>
          have hle : lo.eval ρ v ≤ hi.eval ρ v := hordered lo rfl hi rfl
          by_cases hhigh : hi.eval ρ v < u.eval ρ v
          · -- Beyond the upper limit the input is not below the lower one.
            have hlow : lo.eval ρ v ≤ u.eval ρ v := hle.trans hhigh.le
            simp [Comparison.Compares, Block.cutOff, hhigh, hhigh.le, hlow,
              not_lt.mpr hlow, not_le.mpr hhigh]
          · by_cases hlow : u.eval ρ v < lo.eval ρ v
            · simp [Comparison.Compares, Block.cutOff, hhigh, hlow, hlow.le, hle]
            · simp [Comparison.Compares, Block.cutOff, hhigh, hlow, not_lt.mp hhigh,
                not_lt.mp hlow]

/-! ### Extreme inputs -/

/-- The guard of an input holds if the input beats all others, those before it strictly. -/
theorem holds_extremeGuard_iff {maximum : Bool} {n k : ℕ} {term : ℕ → Term R}
    {t : Term R} :
    (extremeGuard maximum ((List.range n).map term) k t).Holds ρ v ↔ ∀ j < n, j ≠ k →
      (if j < k then (if maximum then Comparison.gt else .lt) else if maximum then .ge
        else .le).Compares
        (t.eval ρ v) ((term j).eval ρ v) := by
  unfold extremeGuard
  rw [Formula.holds_conj, List.forall_mem_map]
  constructor
  · intro h j hj hne
    have hmem : (term j, j) ∈ ((List.range n).map term).zipIdx.filter fun p =>
        p.2 != k := by
      rw [List.mem_filter, List.mem_zipIdx_iff_getElem?]
      simp [hj, hne]
    exact holds_compare_iff.mp (h _ hmem)
  · rintro h ⟨u, j⟩ hmem
    obtain ⟨hmem, hne⟩ := List.mem_filter.mp hmem
    have hget : ((List.range n).map term)[j]? = some u :=
      List.mem_zipIdx_iff_getElem?.mp hmem
    obtain ⟨hlt, rfl⟩ := List.getElem?_eq_some_iff.mp hget
    have hj : j < n := by simpa using hlt
    simpa using h j hj (by simpa using hne)

/-- The guard of an input of a maximum block holds at the first greatest input. -/
theorem holds_extremeGuard_max {n k : ℕ} (hk : k < n) (term : ℕ → Term R) :
    (extremeGuard true ((List.range n).map term) k (term k)).Holds ρ v ↔
      IsFirstMax n (fun i => (term i).eval ρ v) k := by
  rw [holds_extremeGuard_iff, IsFirstMax, and_iff_right hk]
  refine forall₃_congr fun j _ _ => ?_
  split <;> rfl

/-- The guard of an input of a minimum block holds at the first least input. -/
theorem holds_extremeGuard_min {n k : ℕ} (hk : k < n) (term : ℕ → Term R) :
    (extremeGuard false ((List.range n).map term) k (term k)).Holds ρ v ↔
      IsFirstMax n (fun i => OrderDual.toDual ((term i).eval ρ v)) k := by
  rw [holds_extremeGuard_iff, IsFirstMax, and_iff_right hk]
  refine forall₃_congr fun j _ _ => ?_
  split <;> rfl

/-- If one guard of many holds, then its case is selected. -/
theorem selected_range {n k : ℕ} (hk : k < n) {guard : ℕ → Formula R} (term : ℕ → Term R)
    (hguard : ∀ j < n, (guard j).Holds ρ v ↔ j = k) :
    selected ρ v ((List.range n).map fun j => (guard j, term j)) =
      [(term k).eval ρ v] := by
  have hfilter : (List.range n).filter (fun j => decide ((guard j).Holds ρ v)) = [k] := by
    calc (List.range n).filter (fun j => decide ((guard j).Holds ρ v))
        = (List.range n).filter (· == k) := by
          refine List.filter_congr fun j hj => ?_
          rw [Bool.eq_iff_iff, decide_eq_true_iff, beq_iff_eq]
          exact hguard j (List.mem_range.mp hj)
      _ = List.replicate ((List.range n).count k) k := List.filter_beq k
      _ = [k] := by
        rw [List.count_eq_one_of_mem List.nodup_range (List.mem_range.mpr hk),
          List.replicate_one]
  rw [selected, List.filter_map, List.map_map]
  exact congrArg (List.map fun j => (term j).eval ρ v) hfilter

/-- The first extreme input is selected. -/
theorem selected_minMax (ρ : Reading R K) (v : Valuation K) {n : ℕ} (hn : 0 < n)
    (maximum : Bool) (term : ℕ → Term R) :
    ∃ y, selected ρ v ((List.range n).map fun k =>
        (extremeGuard maximum ((List.range n).map term) k (term k), term k)) = [y] ∧
      if maximum then IsGreatest ((fun i => (term i).eval ρ v) '' Set.Iio n) y
      else IsLeast ((fun i => (term i).eval ρ v) '' Set.Iio n) y := by
  cases maximum with
  | true =>
      obtain ⟨k, hk, hunique⟩ := existsUnique_first_max hn fun i => (term i).eval ρ v
      refine ⟨_, selected_range hk.1 term fun j hj => ?_, hk.isGreatest⟩
      rw [holds_extremeGuard_max hj]
      exact ⟨hunique j, fun h => h ▸ hk⟩
  | false =>
      obtain ⟨k, hk, hunique⟩ := existsUnique_first_max hn fun i =>
        OrderDual.toDual ((term i).eval ρ v)
      refine ⟨_, selected_range hk.1 term fun j hj => ?_, hk.isGreatest⟩
      rw [holds_extremeGuard_min hj]
      exact ⟨hunique j, fun h => h ▸ hk⟩

/-! ### Blocks -/

/-- The condition of a switch, as a comparison of values. -/
theorem exists_switchGuard (ρ : Reading R K) (v : Valuation K) (b : Block)
    (control : Term R) :
    ∃ (op : Comparison) (t : Term R), b.switchGuard control = .compare control op t ∧
      (op.Compares (control.eval ρ v) (t.eval ρ v) ↔ b.Passes ρ v (control.eval ρ v)) := by
  have hthreshold : ((b.paramTerm? "Threshold").getD (.num 0) : Term R).eval ρ v =
      (b.paramValue? ρ v "Threshold").getD 0 := by
    rw [Block.paramValue?]
    cases (b.paramTerm? "Threshold" : Option (Term R)) with
    | none => exact ρ.lit_zero
    | some t => rfl
  unfold Block.switchGuard Block.Passes
  dsimp only
  split
  · exact ⟨.ne, .num 0, rfl, by simp [Comparison.Compares, ρ.lit_zero]⟩
  · split
    · next hge =>
        refine ⟨.ge, _, rfl, ?_⟩
        rw [hge, Bool.not_true, Bool.and_false, if_neg Bool.false_ne_true,
          Comparison.Compares, hthreshold]
    · next hge =>
        rw [Bool.eq_false_iff.mpr hge, Bool.not_false, Bool.and_true]
        split
        · exact ⟨.gt, _, rfl, by rw [Comparison.Compares, hthreshold]⟩
        · exact ⟨.ge, _, rfl, by rw [Comparison.Compares, hthreshold]⟩

omit [LinearOrder K] in
theorem eval_negate_input (ρ : Reading R K) (v : Valuation K) (d : Diagram)
    (b : Block) (pin : ℕ) :
    (input d b pin : Term R).negate.eval ρ v = -(input d b pin : Term R).eval ρ v := by
  unfold input
  split <;> exact Term.eval_neg ρ v _

/-- With several inputs there is a case for each of them. -/
theorem minMax_eq (h : 2 ≤ b.inputs) :
    (minMax d b : Encoding R) = byCases b ((List.range b.inputs).map fun k =>
      (extremeGuard b.takesMaximum ((List.range b.inputs).map (input d b)) k (input d b k),
        input d b k)) := by
  have hinputs : (inputs d b : List (Term R)) = (List.range b.inputs).map (input d b) := by
    rw [inputs, max_eq_left (by omega)]
  unfold minMax
  rw [hinputs]
  split
  · next u hu =>
      have hlength := congrArg List.length hu
      simp only [List.length_map, List.length_range, List.length_singleton] at hlength
      omega
  · congr 1
    refine List.ext_getElem (by simp) fun k _ _ => ?_
    simp

/-- With a limit there is a case for each limit, and one for the values within them. -/
theorem saturation_eq (h : b.ByCases R .saturation) :
    (saturation d b : Encoding R) = byCases b
      ((b.paramTerm? "UpperLimit").toList.map
        (fun hi => (Formula.compare (input d b 0) .gt hi, hi))
        ++ (b.paramTerm? "LowerLimit").toList.map
          (fun lo => (Formula.compare (input d b 0) .lt lo, lo))
        ++
          [(.conj ((b.paramTerm? "UpperLimit").toList.map
          (fun hi => Formula.compare (input d b 0) .le hi)
          ++ (b.paramTerm? "LowerLimit").toList.map
            (fun lo => Formula.compare (input d b 0) .ge lo)),
            input d b 0)]) := by
  refine if_neg fun hempty => ?_
  simp only [List.isEmpty_iff, List.append_eq_nil_iff, List.map_eq_nil_iff,
    Option.toList_eq_nil_iff] at hempty
  simp [Block.ByCases, hempty.1, hempty.2] at h

/-- The guards of an encoding exclude each other and leave nothing out: one case is
selected, and its term has the value that the block yields. -/
theorem guards_partition [IsStrictOrderedRing K] (ρ : Reading R K) (v : Valuation K)
    (d : Diagram) (b : Block) {k : BlockKind} (hk : b.ByCases R k)
    (hlimits : k = .saturation → ∀ lo ∈ b.paramValue? ρ v "LowerLimit",
      ∀ hi ∈ b.paramValue? ρ v "UpperLimit",
      lo ≤ hi) :
    ∃ cs y, (ofBlock d b k : Encoding R).definitions = [.cases (b.outputVar 0) cs] ∧
      selected ρ v cs = [y] ∧ b.Yields ρ v
      (fun pin => (input d b pin : Term R).eval ρ v) k y := by
  cases k
  case abs => exact ⟨_, _, rfl, selected_abs (eval_negate_input ρ v d b 0), rfl⟩
  case switch =>
    obtain ⟨op, t, hguard, hpasses⟩ := exists_switchGuard ρ v b (input d b 1)
    refine ⟨_, _, ?_, selected_byGuard (input d b 1) op t (input d b 0) (input d b 2), ?_⟩
    · simp [ofBlock, switch, byGuard, byCases, define, hguard]
    · simp only [Block.Yields, ← hpasses]
      split
      · next h => exact .inl ⟨h, rfl⟩
      · next h => exact .inr ⟨h, rfl⟩
  case relationalOperator =>
    refine ⟨_, _, rfl, selected_byGuard (input d b 0) b.comparison (input d b 1) (.num 1)
      (.num 0), ?_⟩
    simp [Block.Yields, ρ.lit_one, ρ.lit_zero]
  case minMax =>
    have hpos : 0 < b.inputs := Nat.zero_lt_of_lt hk
    obtain ⟨y, hselected, hextreme⟩ := selected_minMax ρ v hpos b.takesMaximum (input d b)
    refine ⟨_, y, ?_, hselected, hextreme⟩
    rw [ofBlock, minMax_eq hk]
    rfl
  case saturation =>
    have hordered : ∀ lo ∈ (b.paramTerm? "LowerLimit" : Option (Term R)),
        ∀ hi ∈ (b.paramTerm? "UpperLimit" : Option (Term R)), lo.eval ρ v ≤ hi.eval ρ v :=
      fun lo hlo hi hhi => hlimits rfl _ (Option.mem_map_of_mem _ hlo) _
        (Option.mem_map_of_mem _ hhi)
    refine ⟨_, _, ?_, selected_saturation (input d b 0) _ _ hordered, rfl⟩
    rw [ofBlock, saturation_eq hk]
    rfl
  all_goals exact hk.elim

/-- A limiter between a number and a variable. -/
def limiter : Block :=
  ⟨2, "S", "Saturation", 1, 1, [("LowerLimit", "0.5"), ("UpperLimit", "top")]⟩

/-- The maximum of three inputs. -/
def highest : Block :=
  ⟨3, "M", "MinMax", 3, 1, [("Function", "max")]⟩

/-- The limiter is fed by the same signal as two inputs of the maximum. -/
def limited : Diagram where
  name := "limited"
  blocks := [⟨1, "A", "Inport", 0, 1, []⟩, limiter, highest]
  signals := [⟨1, ⟨1, 0⟩, ⟨2, 0⟩⟩, ⟨2, ⟨1, 0⟩, ⟨3, 0⟩⟩, ⟨3, ⟨1, 0⟩, ⟨3, 1⟩⟩]

/-- All inputs are equal, and beyond the upper limit. -/
def limitedValues : Valuation ℝ := fun x => if x = "top" then 1 else 1 + 1

theorem guards_partition_limited :
    (∃ cs, (ofBlock limited limiter .saturation : Encoding ExtendedRational).definitions =
        [.cases (limiter.outputVar 0) cs] ∧
      selected ExtendedRational.exact_reading.real limitedValues cs = [1]) ∧
    ∃ cs, (ofBlock limited highest .minMax : Encoding ExtendedRational).definitions =
        [.cases (highest.outputVar 0) cs] ∧
      selected ExtendedRational.exact_reading.real limitedValues cs = [1 + 1] := by
  constructor
  · have hlow : limiter.paramValue? ExtendedRational.exact_reading.real limitedValues
        "LowerLimit" =
        some (1 / 2) := by
      have hread : (Scalar.read? "0.5" : Option ExtendedRational) = some
        (.finite (1 / 2)) := by decide +kernel
      have hparam : limiter.param? "LowerLimit" = some "0.5" := by decide
      simp [Block.paramValue?, Block.paramTerm?, hparam, hread]
    have hhigh : limiter.paramValue? ExtendedRational.exact_reading.real limitedValues
        "UpperLimit" = some 1 := by
      have hread : (Scalar.read? "top" : Option ExtendedRational) = none := by
        decide +kernel
      have hparam : limiter.param? "UpperLimit" = some "top" := by decide
      simp [Block.paramValue?, Block.paramTerm?, hparam, hread, limitedValues]
    have hcases : limiter.ByCases ExtendedRational .saturation := by
      left
      rw [Block.paramValue?, Option.map_eq_some_iff] at hlow
      obtain ⟨t, ht, _⟩ := hlow
      rw [ht, Option.isSome_some]
    have hordered : ∀ lo ∈ limiter.paramValue? ExtendedRational.exact_reading.real
        limitedValues "LowerLimit",
        ∀ hi ∈ limiter.paramValue? ExtendedRational.exact_reading.real limitedValues
            "UpperLimit", lo ≤ hi := by
      simp only [hlow, hhigh, Option.mem_some_iff, forall_eq']
      norm_num
    obtain ⟨cs, y, hdefinitions, hselected, hyields⟩ :=
      guards_partition _ limitedValues limited limiter hcases fun _ => hordered
    refine ⟨cs, hdefinitions, ?_⟩
    have hinput : (input limited limiter 0 : Term ExtendedRational) = .var "A_out" := rfl
    simp only [Block.Yields, hlow, hhigh, hinput] at hyields
    have hbeyond : limitedValues "A_out" = 1 + 1 := if_neg (by decide)
    rw [hselected, hyields, Term.eval_var, hbeyond]
    norm_num [Block.cutOff]
  · have hcases : highest.ByCases ExtendedRational .minMax := Nat.le_succ 2
    obtain ⟨cs, y, hdefinitions, hselected, hyields⟩ :=
      guards_partition ExtendedRational.exact_reading.real limitedValues limited highest
        hcases fun h => by cases h
    refine ⟨cs, hdefinitions, ?_⟩
    have hmaximum : highest.takesMaximum = true := by decide +kernel
    rw [Block.Yields, if_pos hmaximum] at hyields
    obtain ⟨pin, hpin, rfl⟩ := hyields.1
    rw [hselected]
    have hinputs : ∀ pin < 3, ∃ x, (input limited highest pin : Term ExtendedRational) =
        .var x ∧ x ≠ "top" := by
      intro pin hpin
      obtain rfl | rfl | rfl : pin = 0 ∨ pin = 1 ∨ pin = 2 := by omega
      · exact ⟨"A_out", rfl, by decide⟩
      · exact ⟨"A_out", rfl, by decide⟩
      · exact ⟨"M_in3", rfl, by decide⟩
    obtain ⟨x, hx, hne⟩ := hinputs pin hpin
    simp [hx, limitedValues, hne]

end Encoding
end SignalFlow
