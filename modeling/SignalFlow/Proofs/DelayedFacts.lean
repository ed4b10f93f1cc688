import SignalFlow.Proofs.BlockAgreement
import SignalFlow.Proofs.Execution

/-!
# Facts along runs of blocks with a discrete state

A delay or a discrete integrator is encoded by an initial condition and an update.  A *run*
starts in a state that satisfies the initial condition and executes the update again and
again; between two steps everything but the output may change.  The facts at the input are
true in all states.

A delay widens a fact with constant bounds by the initial value, where that is a numeral or
absent.  Such a fact is true of the output in all states.  Any other fact is passed on as
it is: an initial value that is empty, or a name, is not taken into account, though the
encoding starts there, and neither is one where a bound is a name.  If the bounds do not
change, the fact is true in all states exactly if it is true in the first.  An integrator
passes nothing on.  The limits of its output are facts, but no part of its encoding.

**Results.**
* `Encoding.run_delay_iff`, `Encoding.run_discreteIntegrator_iff`: the output of a block
  along a run.
* `TransferRule.delayed_true_iff`: which facts are true along runs.
* `TransferRule.limit_exceeded`: a run along which the limit of an integrator is false.
-/

namespace SignalFlow

variable {R : Type} [Scalar R] {ρ : ExtendedReading R}

/-! ### Facts with constant and with steady bounds -/

theorem Constraint.allows_congr {v v' : Valuation ℝ} {c : Constraint R}
    (h : ∀ t ∈ c.bounds, t.extended ρ v = t.extended ρ v') (a : EReal) :
    c.Allows ρ v a ↔ c.Allows ρ v' a := by
  cases c with
  | interval i =>
      have hlower : ∀ b ∈ i.lower,
          b.value.extended ρ v = b.value.extended ρ v' := fun b hb =>
        h _ (by simp [bounds, Option.mem_def.mp hb])
      have hupper : ∀ b ∈ i.upper,
          b.value.extended ρ v = b.value.extended ρ v' := fun b hb =>
        h _ (by simp [bounds, Option.mem_def.mp hb])
      unfold Allows
      refine and_congr (forall₂_congr fun b hb => ?_) (forall₂_congr fun b hb => ?_)
      · rw [hlower b hb]
      · rw [hupper b hb]
  | relation r =>
      show r.op.Compares a (r.rhs.extended ρ v) ↔ r.op.Compares a (r.rhs.extended ρ v')
      rw [h r.rhs (by simp [bounds])]

namespace Fact

/-- All bounds are constant. -/
def Ranged (p : Fact R) : Prop :=
  ∀ c ∈ p.items, c.range?.isSome = true

/-- All bounds have the same values in all states. -/
def Steady (ρ : ExtendedReading R) (w : Nat → Valuation ℝ) (p : Fact R) : Prop :=
  ∀ c ∈ p.items, ∀ t ∈ c.bounds, ∀ m n, t.extended ρ (w m) = t.extended ρ (w n)

theorem allows_congr {v v' : Valuation ℝ} {p : Fact R} (hsignal : p.category = .signal)
    (h : ∀ c ∈ p.items, ∀ t ∈ c.bounds, t.extended ρ v = t.extended ρ v') (a : EReal) :
    p.Allows ρ v a ↔ p.Allows ρ v' a := by
  cases p with
  | single c => exact Constraint.allows_congr (h c (List.mem_singleton_self c)) a
  | boundary b =>
      exact exists_congr fun c => and_congr_right fun hc =>
        Constraint.allows_congr (h c hc) a
  | discrete bs =>
      refine exists_congr fun b => and_congr_right fun hb => exists_congr fun c =>
        and_congr_right fun hc => ?_
      exact Constraint.allows_congr (h c (List.mem_flatMap.mpr ⟨b, hb, hc⟩)) a
  | control gs => cases hsignal
  | data rs => cases hsignal

/-- Constant bounds are steady. -/
theorem Ranged.steady (hρ : ρ.Exact) {p : Fact R} (h : p.Ranged) (hdet : p.Determinate)
    (w : Nat → Valuation ℝ) : p.Steady ρ w := by
  intro c hc t ht m n
  obtain ⟨a, ha⟩ : ∃ a, t.value? = some a := by
    obtain ⟨r, hr⟩ := Option.isSome_iff_exists.mp (h c hc)
    cases c with
    | interval i =>
        change i.range? = some r at hr
        unfold Interval.range? at hr
        split at hr
        · next lo loStrict hi hiStrict hlower hupper =>
            rcases List.mem_append.mp ht with ht | ht <;> obtain ⟨b, hb, rfl⟩ :=
              List.mem_map.mp ht
            · rw [Option.mem_toList.mp hb] at hlower
              obtain ⟨a, ha, _⟩ := Option.map_eq_some_iff.mp hlower
              exact ⟨a, ha⟩
            · rw [Option.mem_toList.mp hb] at hupper
              obtain ⟨a, ha, _⟩ := Option.map_eq_some_iff.mp hupper
              exact ⟨a, ha⟩
        · cases hr
    | relation r' =>
        obtain rfl := List.mem_singleton.mp ht
        obtain ⟨a, ha, _⟩ := Option.map_eq_some_iff.mp hr
        exact ⟨a, ha⟩
  have hdefined := hdet c hc t ht a ha
  rw [hρ.extended_of_value? (w m) t a ha hdefined,
    hρ.extended_of_value? (w n) t a ha hdefined]

theorem exists_mapM {α β : Type} {f : α → Option β} {xs : List α}
    (h : ∀ x ∈ xs, (f x).isSome = true) : ∃ ys, xs.mapM f = some ys := by
  induction xs with
  | nil => exact ⟨[], by simp⟩
  | cons x xs ih =>
      rw [List.forall_mem_cons] at h
      obtain ⟨y, hy⟩ := Option.isSome_iff_exists.mp h.1
      obtain ⟨ys, hys⟩ := ih h.2
      exact ⟨y :: ys, by simp [hy, hys]⟩

/-- Ranges are mapped wherever all bounds are constant. -/
theorem exists_mapRanges? {p : Fact R} (hsignal : p.category = .signal)
    (hranged : p.Ranged) (t : Term R) (f : Range R → Range R) :
    ∃ q, p.mapRanges? t f = some q := by
  have hboundary : ∀ b : Boundary R, (∀ c ∈ b.items, c.range?.isSome = true) →
      ∃ b', b.mapRanges? t f = some b' := by
    intro b hb
    obtain ⟨rs, hrs⟩ := exists_mapM hb
    exact ⟨_, by rw [Boundary.mapRanges?, hrs, Option.map_some]⟩
  cases p with
  | single c =>
      obtain ⟨b', hb'⟩ := hboundary ⟨[c]⟩ hranged
      exact ⟨.boundary b', by simp [mapRanges?, asBoundary?, hb']⟩
  | boundary b =>
      obtain ⟨b', hb'⟩ := hboundary b hranged
      exact ⟨.boundary b', by simp [mapRanges?, asBoundary?, hb']⟩
  | discrete bs =>
      have hparts : ∀ b ∈ bs, (b.mapRanges? t f).isSome = true := fun b hb =>
        Option.isSome_iff_exists.mpr (hboundary b fun c hc =>
          hranged c (List.mem_flatMap.mpr ⟨b, hb, hc⟩))
      obtain ⟨bs', hbs'⟩ := exists_mapM hparts
      exact ⟨_, by rw [mapRanges?, hbs', Option.map_some]⟩
  | control gs => cases hsignal
  | data rs => cases hsignal

end Fact

/-! ### Initial states -/

/-- Texts that stand for nothing are no numerals. -/
def Scalar.ReadsNoBlank (R : Type) [Scalar R] : Prop :=
  (Scalar.read? "" : Option R) = none ∧ (Scalar.read? "[]" : Option R) = none

namespace Encoding

/-- An initial value that is a numeral, or absent, is where the encoding starts. -/
theorem initialTerm_of_initialValue? (hblank : Scalar.ReadsNoBlank R) {b : Block} {a : R}
    (h : b.initialValue? = some a) : initialTerm b = .num a := by
  have hpresent : ∀ keys :
      List String, ∀ key, keys.find? (fun key => (b.param? key).isSome) = some key →
      b.scalar? key = some a → keys.findSome? (b.paramTerm? (R := R)) = some (.num a) := by
    intro keys key hkey hscalar
    induction keys with
    | nil => cases hkey
    | cons first keys ih =>
        cases hparam : b.param? first with
        | none =>
            rw [List.find?_cons_of_neg (by simp [hparam])] at hkey
            rw [List.findSome?_cons_of_isNone (by simp [Block.paramTerm?, hparam])]
            exact ih hkey
        | some text =>
            rw [List.find?_cons_of_pos (by simp [hparam]), Option.some.injEq] at hkey
            subst hkey
            have hread : Scalar.read? text = some a := by
              simpa [Block.scalar?, hparam] using hscalar
            have hempty : text ≠ "" := by
              rintro rfl
              simp [hblank.1] at hread
            have hbrackets : text ≠ "[]" := by
              rintro rfl
              simp [hblank.2] at hread
            have hterm : b.paramTerm? (R := R) first = some (.num a) := by
              simp [Block.paramTerm?, hparam, hempty, hbrackets, hread]
            rw [List.findSome?_cons, hterm]
  unfold Block.initialValue? at h
  unfold initialTerm
  split at h
  · next key hkey => rw [hpresent _ key hkey h, Option.getD_some]
  · next hnone =>
      cases h
      have hnone' : Block.initialKeys.findSome? (b.paramTerm? (R := R)) = none := by
        rw [List.findSome?_eq_none_iff]
        intro key hkey
        have habsent := List.find?_eq_none.mp hnone key hkey
        simp [Block.paramTerm?, Option.not_isSome_iff_eq_none.mp habsent]
      rw [hnone', Option.getD_none]

/-! ### Runs -/

/-- States of a run: the first satisfies the encoded initial conditions, and the next
output is what the encoded updates make of the state before. -/
structure Run (hρ : ρ.Exact) (e : Encoding R) (output : String)
    (w : Nat → Valuation ℝ) : Prop where
  start : ∀ p ∈ e.initial, p.TrueAt ρ (w 0)
  step : ∀ n, ∃ u, (Program.sequence e.updates).Runs hρ.real id (w n) u ∧
    w (n + 1) output = u output

variable {hρ : ρ.Exact} {d : Diagram} {b : Block} {w : Nat → Valuation ℝ}

/-- A block with one update starts in its initial state, and then gives out what the update
assigns. -/
theorem run_update_iff {e : Encoding R} {t : Term R}
    (hinitial : e.initial = [initialState b])
    (hupdates : e.updates = [.assign (b.outputVar 0) t]) : e.Run hρ (b.outputVar 0) w ↔
    (w 0 (b.outputVar 0) : EReal) = (initialTerm b).extended ρ (w 0) ∧
      ∀ n, w (n + 1) (b.outputVar 0) = t.eval hρ.real (w n) := by
  have hstart : (∀ p ∈ e.initial, p.TrueAt ρ (w 0)) ↔
      (w 0 (b.outputVar 0) : EReal) = (initialTerm b).extended ρ (w 0) := by
    rw [hinitial, List.forall_mem_singleton, initialState, Formula.compare,
      Formula.trueAt_rel]
    simp [Relation.TrueAt, Comparison.Compares]
  have hstep : ∀ n, (∃ u, (Program.sequence e.updates).Runs hρ.real id (w n) u ∧
      w (n + 1) (b.outputVar 0) = u (b.outputVar 0)) ↔
      w (n + 1) (b.outputVar 0) = t.eval hρ.real (w n) := by
    intro n
    simp only [hupdates, Program.runs_sequence_iff, Program.runs_seq_singleton_iff,
      Program.runs_assign_iff, exists_eq_left, Function.update_self, id]
  rw [← hstart]
  exact ⟨fun h => ⟨h.start, fun n => (hstep n).mp (h.step n)⟩, fun h =>
    ⟨h.1, fun n => (hstep n).mpr (h.2 n)⟩⟩

/-- A delay starts in its initial state, and then gives out what came in. -/
theorem run_delay_iff : (delay d b).Run hρ (b.outputVar 0) w ↔
    (w 0 (b.outputVar 0) : EReal) = (initialTerm b).extended ρ (w 0) ∧
      ∀ n, w (n + 1) (b.outputVar 0) = operand (w n) d b 0 := by
  simp only [run_update_iff (e := delay d b) rfl rfl, eval_input]

/-- A discrete integrator starts in its initial state, and grows by what comes in. -/
theorem run_discreteIntegrator_iff : (discreteIntegrator d b).Run hρ (b.outputVar 0) w ↔
    (w 0 (b.outputVar 0) : EReal) = (initialTerm b).extended ρ (w 0) ∧
      ∀ n, w (n + 1) (b.outputVar 0) =
        w n (b.outputVar 0) + (sampleTime b).eval hρ.real (w n) * operand (w n) d b 0 := by
  simp only [run_update_iff (e := discreteIntegrator d b) rfl rfl, Term.eval_plus,
    Term.eval_times, eval_input, Term.eval]

end Encoding

/-! ### Facts after a delay -/

namespace Transfer

variable {s : Site R} {p q : Fact R}

/-- A delay widens the ranges of a signal fact by the initial value, or passes the fact
on. -/
theorem delay_cases (h : delay s p = .propagate q) :
    p.category = .signal ∧
      ((∃ a : R, s.block.initialValue? = some a ∧
        p.mapRanges? s.output (fun r => r.hull (.point a)) = some q) ∨
      q = p.retarget s.output ∧ ((s.block.initialValue? : Option R).isSome = true →
        ¬p.Ranged)) := by
  unfold delay at h
  split at h
  · next hsignal =>
      have hsignal : p.category = .signal := by simpa using hsignal
      have hpass : ∀ {q : Fact R}, p.passThrough s.output = .propagate q →
          q = p.retarget s.output := by
        intro q hq
        rw [Fact.passThrough, hsignal] at hq
        exact (Effect.propagate.inj hq).symm
      refine ⟨hsignal, ?_⟩
      split at h
      · next hnone => exact Or.inr ⟨hpass h, by simp [hnone]⟩
      · next a hsome =>
          split at h
          · next hq => exact Or.inl ⟨a, hsome, Effect.propagate.inj h ▸ hq⟩
          · next hnone =>
              refine Or.inr ⟨hpass h, fun _ hranged => ?_⟩
              obtain ⟨q, hq⟩ := Fact.exists_mapRanges? hsignal hranged s.output fun r =>
                r.hull (.point a)
              simp [hnone] at hq
  · cases h

variable (hρ : ρ.Exact) {d : Diagram} {w : Nat → Valuation ℝ} {x : String}

/-- A fact that is widened by the initial value is true in all states. -/
theorem true_of_widened (hblank : Scalar.ReadsNoBlank R)
    (hrun : (Encoding.delay d s.block).Run hρ (s.block.outputVar 0) w)
    (hinitial : (Encoding.initialTerm s.block : Term R).Determinate)
    (hvar : d.inputVar? s.block.id 0 = some x) (hdet : p.Determinate)
    (hallows : ∀ n, p.Allows ρ (w n) (w n x)) {a : R} (ha : s.block.initialValue? = some a)
    (hq : p.mapRanges? s.output (fun r => r.hull (.point a)) = some q) (n : Nat) :
    q.toFormula.TrueAt ρ (w n) := by
  have hterm := Encoding.initialTerm_of_initialValue? hblank ha
  have hdefined : Scalar.Defined a := hinitial a (by rw [hterm, Term.value?_num])
  have hdescribes : q.Describes ρ (w n) s.output (w n (s.block.outputVar 0)) := by
    cases n with
    | zero =>
        have hlit : ρ.lit a = w 0 (s.block.outputVar 0) := by
          rw [(Encoding.run_delay_iff.mp hrun).1, hterm, Term.extended_num]
        exact Fact.describes_mapRanges? hρ hdet (hallows 0)
          (fun r hr => .hull_right hr.defined (.point hdefined hlit)) hq (w 0)
    | succ n =>
        have hout : w (n + 1) (s.block.outputVar 0) = w n x := by
          rw [(Encoding.run_delay_iff.mp hrun).2, Encoding.operand, hvar, Option.getD_some]
        rw [hout]
        exact Fact.describes_mapRanges? hρ hdet (hallows n)
          (fun r hr => hr.hull_left ⟨hdefined, hdefined⟩) hq (w (n + 1))
  exact hdescribes.trueAt (Term.extended_var ρ (w n) _)

/-- A fact with steady bounds that is passed on is true in all states if it is true in the
first. -/
theorem true_of_passed (hrun : (Encoding.delay d s.block).Run hρ (s.block.outputVar 0) w)
    (hvar : d.inputVar? s.block.id 0 = some x) (hsignal : p.category = .signal)
    (hallows : ∀ n, p.Allows ρ (w n) (w n x)) (hsteady : p.Steady ρ w)
    (hstart : (p.retarget s.output).toFormula.TrueAt ρ (w 0)) (n : Nat) :
    (p.retarget s.output).toFormula.TrueAt ρ (w n) := by
  cases n with
  | zero => exact hstart
  | succ n =>
      have hout : w (n + 1) (s.block.outputVar 0) = w n x := by
        rw [(Encoding.run_delay_iff.mp hrun).2, Encoding.operand, hvar, Option.getD_some]
      rw [Fact.trueAt_retarget, Site.output, Term.extended_var, hout]
      exact (Fact.allows_congr hsignal (fun c hc t ht => hsteady c hc t ht n (n + 1)) _).mp
        (hallows n)

end Transfer

namespace TransferRule

variable {d : Diagram} {s : Site R} {k : BlockKind} {w : Nat → Valuation ℝ}

/-- Along the runs of a delay or discrete integrator, with facts at the input that are true
in all states:
* only an integrator with limited output generates facts;
* a fact with constant bounds that is transferred is true in all states, if the initial
  value is a numeral or absent;
* a fact with steady bounds that is transferred is true in all states exactly if it is true
  in the first. -/
theorem delayed_true_iff (hρ : ρ.Exact) (hblank : Scalar.ReadsNoBlank R)
    (hk : k = .unitDelay ∨ k = .memory ∨ k = .discreteIntegrator)
    (hrun : (Encoding.ofBlock d s.block k).Run hρ (s.block.outputVar 0) w)
    (hinitial : (Encoding.initialTerm s.block : Term R).Determinate) {x : String}
    (hvar : d.inputVar? s.block.id 0 = some x) {facts : List (Fact R)}
    (hfacts : ∀ p ∈ facts, p.About (.var x) ∧ p.Determinate ∧ ∀ n,
      p.toFormula.TrueAt ρ (w n)) :
    ((ofKind k : TransferRule R).generate s.block ≠ [] →
      k = .discreteIntegrator ∧ s.block.isOn "LimitOutput" = true) ∧
    ∀ p ∈ facts, ∀ q, (ofKind k).advance s 0 p = .propagate q →
      ((s.block.initialValue? : Option R).isSome = true → p.Ranged →
        ∀ n, q.toFormula.TrueAt ρ (w n)) ∧
      (p.Steady ρ w → ((∀ n, q.toFormula.TrueAt ρ (w n)) ↔
        q.toFormula.TrueAt ρ (w 0))) := by
  have hdelay : ∀ p ∈ facts, (Encoding.delay d s.block).Run hρ (s.block.outputVar 0) w →
      ∀ q, Transfer.delay s p = .propagate q →
        ((s.block.initialValue? : Option R).isSome = true → p.Ranged →
          ∀ n, q.toFormula.TrueAt ρ (w n)) ∧
        (p.Steady ρ w → ((∀ n, q.toFormula.TrueAt ρ (w n)) ↔
            q.toFormula.TrueAt ρ (w 0))) := by
    intro p hp hrun q hq
    obtain ⟨habout, hdet, htrue⟩ := hfacts p hp
    have hallows : ∀ n, p.Allows ρ (w n) (w n x) := fun n => by
      rw [← Term.extended_var ρ (w n) x, ← Fact.trueAt_iff_allows habout]
      exact htrue n
    obtain ⟨hsignal, ⟨a, ha, hmap⟩ | ⟨rfl, hpassed⟩⟩ := Transfer.delay_cases hq
    · have hall :=
        Transfer.true_of_widened hρ hblank hrun hinitial hvar hdet hallows ha hmap
      exact ⟨fun _ _ => hall, fun _ => ⟨fun h => h 0, fun _ => hall⟩⟩
    · refine ⟨fun hsome hranged => absurd hranged (hpassed hsome), fun hsteady =>
        ⟨fun h => h 0, ?_⟩⟩
      exact Transfer.true_of_passed hρ hrun hvar hsignal hallows hsteady
  rcases hk with rfl | rfl | rfl
  · exact ⟨fun h => absurd rfl h, fun p hp q hq => hdelay p hp hrun q hq⟩
  · exact ⟨fun h => absurd rfl h, fun p hp q hq => hdelay p hp hrun q hq⟩
  · refine ⟨fun h => ⟨rfl, ?_⟩, fun p hp q hq => by cases hq⟩
    by_contra hoff
    exact h (if_neg hoff)

/-- A delayed input, where the delay has some parameters. -/
def delayed (params : List (String × String)) : Diagram where
  name := "delayed"
  blocks := [⟨1, "A", "Inport", 0, 1, []⟩, ⟨2, "D", "UnitDelay", 1, 1, params⟩]
  signals := [⟨1, ⟨1, 0⟩, ⟨2, 0⟩⟩]

/-- The delay, with an input that lies between five and six. -/
def delayedSite (params : List (String × String)) : Site ExtendedRational where
  block := ⟨2, "D", "UnitDelay", 1, 1, params⟩
  inlets := [⟨some "A_out", [.single (.closed (.var "A_out") (.finite 5) (.finite 6))]⟩]

/-- The input is six, and the output is zero at first. -/
def delayedStates (n : Nat) : Valuation ℝ := fun x => if x = "D_out" ∧ n = 0 then 0 else 6

theorem delayed_true_iff_blank :
    (∃ q, (ofKind .unitDelay).advance (delayedSite [("InitialCondition", "")]) 0
        (.single (.closed (.var "A_out") (.finite 5) (.finite 6))) = .propagate q ∧
      ((∀ n, q.toFormula.TrueAt ExtendedRational.reading (delayedStates n)) ↔
        q.toFormula.TrueAt ExtendedRational.reading (delayedStates 0)) ∧
      ¬q.toFormula.TrueAt ExtendedRational.reading (delayedStates 0)) ∧
    ∃ q, (ofKind .unitDelay).advance (delayedSite []) 0
        (.single (.closed (.var "A_out") (.finite 5) (.finite 6))) = .propagate q ∧
      ∀ n, q.toFormula.TrueAt ExtendedRational.reading (delayedStates n) := by
  have hblank : Scalar.ReadsNoBlank ExtendedRational := ⟨by decide, by decide⟩
  have hfacts : ∀ p ∈ [Fact.single (.closed (.var "A_out") (.finite 5) (.finite 6))],
      p.About (.var "A_out") ∧ p.Determinate ∧ ∀ n,
      p.toFormula.TrueAt ExtendedRational.reading (delayedStates n) := by
    intro p hp
    obtain rfl := List.mem_singleton.mp hp
    have hdescribes : ∀ n,
        (Fact.single (.closed (.var "A_out") (.finite 5) (.finite 6))).Describes
        ExtendedRational.reading (delayedStates n) (.var "A_out") 6 := fun n =>
      Fact.describes_closed (ExtendedRational.covers_closed (by norm_num) (by norm_num)) _
    exact ⟨(hdescribes 0).about, (hdescribes 0).determinate, fun n =>
      (hdescribes n).trueAt (by simp [delayedStates])⟩
  have hvar : ∀ params, (delayed params).inputVar? (delayedSite params).block.id 0 =
    some "A_out" := fun _ => rfl
  -- Without a numeral both blocks start at zero.
  have hrun : ∀ params, (Encoding.initialTerm (delayedSite params).block :
      Term ExtendedRational) = .num (.finite 0) →
      (delayedSite params).block.outputVar 0 = "D_out" →
      (Encoding.ofBlock (delayed params) (delayedSite params).block .unitDelay).Run
        ExtendedRational.exact_reading
        ((delayedSite params).block.outputVar 0) delayedStates := by
    intro params hterm hout
    have hoperand : ∀ n, Encoding.operand (delayedStates n) (delayed params)
        (delayedSite params).block 0 = 6 := by
      intro n
      rw [Encoding.operand, hvar, Option.getD_some]
      simp [delayedStates]
    refine Encoding.run_delay_iff.mpr ⟨?_, fun n => ?_⟩
    · simp [hterm, hout, delayedStates, ExtendedRational.reading, ExtendedRational.toEReal]
    · rw [hoperand, hout]
      simp [delayedStates]
  have hzero : ∀ params, (Encoding.initialTerm (delayedSite params).block :
      Term ExtendedRational) = .num (.finite 0) →
      (Encoding.initialTerm (delayedSite params).block :
          Term ExtendedRational).Determinate := by
    intro params hterm
    rw [hterm]
    exact Term.determinate_of_isFinite (by decide)
  have hranged :
      (Fact.single (.closed (.var "A_out") (ExtendedRational.finite 5)
      (.finite 6))).Ranged := by
    intro c hc
    obtain rfl := List.mem_singleton.mp hc
    decide
  have hmem := List.mem_singleton_self
    (Fact.single (.closed (.var "A_out") (ExtendedRational.finite 5) (.finite 6)))
  constructor
  · have hterm : (Encoding.initialTerm (delayedSite [("InitialCondition", "")]).block :
        Term ExtendedRational) =
        .num (.finite 0) := rfl
    obtain ⟨_, htransferred⟩ :=
      delayed_true_iff ExtendedRational.exact_reading hblank (Or.inl rfl)
      (hrun _ hterm (by decide)) (hzero _ hterm) (hvar _) hfacts
    refine ⟨_, rfl, (htransferred _ hmem _ rfl).2 ?_, ?_⟩
    · exact hranged.steady ExtendedRational.exact_reading (hfacts _ hmem).2.1 _
    · have hname : (delayedSite [("InitialCondition", "")]).block.outputVar 0 =
        "D_out" := by decide
      rw [Fact.trueAt_retarget, Site.output, Term.extended_var, hname]
      intro hallows
      -- Zero is no value between five and six.
      have hrange := (Constraint.encloses_of_range? ExtendedRational.exact_reading
        ((hfacts _ hmem).2.1 _ (List.mem_singleton_self _)) rfl).2 _ _ hallows
      have hle : ((5 : ℚ) : ℝ) ≤ delayedStates 0 "D_out" :=
        EReal.coe_le_coe_iff.mp hrange.lower.le
      norm_num [delayedStates] at hle
  · have hterm : (Encoding.initialTerm (delayedSite []).block : Term ExtendedRational) =
      .num (.finite 0) := rfl
    obtain ⟨_, htransferred⟩ :=
      delayed_true_iff ExtendedRational.exact_reading hblank (Or.inl rfl)
      (hrun _ hterm (by decide)) (hzero _ hterm) (hvar _) hfacts
    refine ⟨_, rfl, (htransferred _ hmem _ rfl).1 rfl ?_⟩
    exact hranged

/-- An integrator with an output that is limited to one. -/
def limitedIntegrator : Block :=
  ⟨2, "I", "DiscreteIntegrator", 1, 1,
    [("LimitOutput", "on"), ("UpperSaturationLimit", "1")]⟩

/-- An input that is integrated. -/
def integrated : Diagram where
  name := "integrated"
  blocks := [⟨1, "A", "Inport", 0, 1, []⟩, limitedIntegrator]
  signals := [⟨1, ⟨1, 0⟩, ⟨2, 0⟩⟩]

/-- The input is one, and the output counts the steps. -/
def integratedStates (n : Nat) : Valuation ℝ := fun x => if x = "I_out" then n else 1

/-- The output is at most one. -/
def outputLimit : Fact ExtendedRational :=
  .single (.interval ⟨.var "I_out", none, some (.inclusive (.num (.finite 1)))⟩)

/-- The limit of the output is a fact that an integrator generates, but its updates do not
keep to the limit: the fact is false after two steps. -/
theorem limit_exceeded :
    (Encoding.ofBlock integrated limitedIntegrator .discreteIntegrator).Run
      ExtendedRational.exact_reading
        (limitedIntegrator.outputVar 0) integratedStates ∧
      outputLimit ∈ (ofKind .discreteIntegrator : TransferRule ExtendedRational).generate
        limitedIntegrator ∧
      ¬outputLimit.toFormula.TrueAt ExtendedRational.reading (integratedStates 2) := by
  have hout : limitedIntegrator.outputVar 0 = "I_out" := by decide
  refine ⟨?_, ?_, fun htrue => ?_⟩
  · refine Encoding.run_discreteIntegrator_iff.mpr ⟨?_, fun n => ?_⟩
    · have hterm : (Encoding.initialTerm limitedIntegrator : Term ExtendedRational) = .num
        (.finite 0) := rfl
      simp [hterm, hout, integratedStates, ExtendedRational.reading,
        ExtendedRational.toEReal]
    · have htime : (Encoding.sampleTime limitedIntegrator : Term ExtendedRational) = .num
        (.finite 1) := rfl
      have hvar : integrated.inputVar? limitedIntegrator.id 0 = some "A_out" := rfl
      rw [htime, Encoding.operand, hvar, hout]
      simp [integratedStates, Term.eval]
  · have hon : limitedIntegrator.isOn "LimitOutput" = true := by decide
    have hlower : limitedIntegrator.paramTerm? "LowerSaturationLimit" =
      (none : Option (Term ExtendedRational)) := rfl
    have hupper : limitedIntegrator.paramTerm? "UpperSaturationLimit" =
        some (Term.num (ExtendedRational.finite 1)) := by
      have hparam : limitedIntegrator.param? "UpperSaturationLimit" = some "1" := by decide
      have hread : (Scalar.read? "1" : Option ExtendedRational) = some (.finite 1) := by
        decide +kernel
      simp [Block.paramTerm?, hparam, hread]
    show outputLimit ∈ Transfer.outputLimits limitedIntegrator
    simp [Transfer.outputLimits, hon, hlower, hupper, hout, Fact.between, outputLimit]
  · have habout : outputLimit.About (.var "I_out") := rfl
    rw [Fact.trueAt_iff_allows habout, Term.extended_var] at htrue
    have hupper := (htrue.2 _ rfl).le
    rw [Bound.inclusive, Term.extended_num] at hupper
    have hle : integratedStates 2 "I_out" ≤ ((1 : ℚ) : ℝ) := EReal.coe_le_coe_iff.mp hupper
    norm_num [integratedStates] at hle

end TransferRule
end SignalFlow
