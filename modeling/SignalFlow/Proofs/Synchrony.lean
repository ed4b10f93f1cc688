import SignalFlow.Proofs.Encoded
import SignalFlow.Proofs.RunOrder
import SignalFlow.Proofs.Signals
import SignalFlow.Proofs.StageRun
import SignalFlow.Proofs.StraightLine

/-!
# State updates of the controller

Delays, memories and discrete integrators keep a state.  The controller first reads the
inputs and assigns the outputs, and then updates the states one after the other, in run
order.  A state that is updated late may read, directly or through blocks without state,
one that has been updated before: then it does not get the value that its input had before
the updates.

**Results.**
* `contribution_cases`: what blocks of these kinds contribute.
* `updates_simultaneous_iff`: the updates of a run act as if they were made at once exactly
  if none of them is disturbed by those before it, and this is so if no state depends on a
  state updated before it.
* `delayChain_not_simultaneous`: two delays in a row do not act at once.
-/

namespace SignalFlow

namespace BlockKind

/-- Kinds with a state that the controller updates. -/
def hasUpdate : BlockKind → Bool
  | .unitDelay => true
  | .memory => true
  | .discreteIntegrator => true
  | _ => false

/-- Inputs and outputs of the diagram. -/
def isPort : BlockKind → Bool
  | .inport => true
  | .outport => true
  | _ => false

/-- Kinds of discrete linear diagrams. -/
def isSynchronous : BlockKind → Bool
  | .inport => true
  | .constant => true
  | .gain => true
  | .sum => true
  | .add => true
  | .subtract => true
  | .unitDelay => true
  | .memory => true
  | .discreteIntegrator => true
  | .outport => true
  | _ => false

end BlockKind

namespace Encoding

variable {R : Type} [Scalar R]

/-- The blocks whose kind has a property, in run order. -/
def blocksOf (p : BlockKind → Bool) (c : Catalogue) (d : Diagram) : List Block :=
  (orderedBlocks d d.runOrder).filter fun b => (c b.type).any p

/-- The variable that stands for the output of a block. -/
def target (c : Catalogue) (b : Block) : String :=
  if c b.type = some .outport then b.varBase else b.outputVar 0

/-- The new value of a state, as a term. -/
def updateTerm (c : Catalogue) (d : Diagram) (b : Block) : Term R :=
  if c b.type = some .discreteIntegrator then
    (Term.var (b.outputVar 0)).plus ((sampleTime b).times (input d b 0))
  else input d b 0

/-- What blocks of discrete linear diagrams contribute. -/
theorem contribution_cases {c : Catalogue} (d : Diagram) {b : Block} {k : BlockKind}
    (hk : c b.type = some k) (hs : k.isSynchronous = true) :
    (k = .inport ∧
      (contribution c d b : Encoding R) = { steps := [.havoc (target c b)] }) ∨
    (k = .outport ∧
      (contribution c d b : Encoding R) =
        { steps := [.assign (target c b) (input d b 0)] }) ∨
    (k.hasUpdate = true ∧ ∃ initial,
      (contribution c d b : Encoding R) =
        { updates := [.assign (target c b) (updateTerm c d b)], initial := initial }) ∨
    (k.isPort = false ∧ k.hasUpdate = false ∧ ∃ t,
      (contribution c d b : Encoding R) =
        { definitions := [.simple (target c b) t] }) := by
  cases k with
  | inport => exact Or.inl ⟨rfl, by simp [contribution, hk, ofBlock, target]⟩
  | outport => exact Or.inr (Or.inl ⟨rfl, by simp [contribution, hk, ofBlock, target]⟩)
  | unitDelay =>
      exact Or.inr (Or.inr (Or.inl ⟨rfl, [initialState b],
        by simp [contribution, hk, ofBlock, target, delay, updateTerm]⟩))
  | memory =>
      exact Or.inr (Or.inr (Or.inl ⟨rfl, [initialState b],
        by simp [contribution, hk, ofBlock, target, delay, updateTerm]⟩))
  | discreteIntegrator =>
      exact Or.inr (Or.inr (Or.inl ⟨rfl, [initialState b],
        by simp [contribution, hk, ofBlock, target, discreteIntegrator, updateTerm]⟩))
  | constant =>
      exact Or.inr (Or.inr (Or.inr ⟨rfl, rfl, _,
        by simp [contribution, hk, ofBlock, target, value, define]; rfl⟩))
  | gain =>
      exact Or.inr (Or.inr (Or.inr ⟨rfl, rfl, _,
        by simp [contribution, hk, ofBlock, target, gain, value, define]; rfl⟩))
  | sum =>
      exact Or.inr (Or.inr (Or.inr ⟨rfl, rfl, _,
        by simp [contribution, hk, ofBlock, target, sum, value, define]; rfl⟩))
  | add =>
      exact Or.inr (Or.inr (Or.inr ⟨rfl, rfl, _,
        by simp [contribution, hk, ofBlock, target, sum, value, define]; rfl⟩))
  | subtract =>
      exact Or.inr (Or.inr (Or.inr ⟨rfl, rfl, _,
        by simp [contribution, hk, ofBlock, target, sum, value, define]; rfl⟩))
  | product => cases hs
  | divide => cases hs
  | abs => cases hs
  | saturation => cases hs
  | minMax => cases hs
  | zeroOrderHold => cases hs
  | integrator => cases hs
  | switch => cases hs
  | relationalOperator => cases hs
  | terminator => cases hs
  | mux => cases hs
  | demux => cases hs

/-- The step of an input or output of the diagram. -/
def portStep (c : Catalogue) (d : Diagram) (b : Block) : Program R :=
  if c b.type = some .inport then .havoc (target c b)
    else .assign (target c b) (input d b 0)

theorem flatMap_eq_map_filter {α β : Type} {f : α → List β} {g : α → β} {p : α → Bool}
    {as : List α} (h : ∀ a ∈ as, f a = if p a then [g a] else []) :
    as.flatMap f = (as.filter p).map g := by
  induction as with
  | nil => rfl
  | cons a as ih =>
      rw [List.flatMap_cons, h a List.mem_cons_self,
        ih fun a' ha' => h a' (List.mem_cons_of_mem _ ha')]
      by_cases hp : p a = true
      · simp [hp]
      · simp [hp]

section Discrete

variable {c : Catalogue} {d : Diagram}

/-- The contributions of the blocks of a discrete linear diagram. -/
theorem steps_of_synchronous
    (hkind : ∀ b ∈ orderedBlocks d d.runOrder, ∃ k, c b.type = some k ∧
      k.isSynchronous = true) :
    (ofDiagram c d d.runOrder : Encoding R).steps =
      (blocksOf BlockKind.isPort c d).map (portStep c d) := by
  rw [steps_ofDiagram]
  refine flatMap_eq_map_filter ?_
  intro b hb
  obtain ⟨k, hk, hs⟩ := hkind b hb
  rcases contribution_cases (R := R) d hk hs with
    ⟨rfl, hb⟩ | ⟨rfl, hb⟩ | ⟨hu, _, hb⟩ | ⟨hp, _, _, hb⟩
  · simp [hb, hk, BlockKind.isPort, portStep]
  · simp [hb, hk, BlockKind.isPort, portStep]
  · have hport : k.isPort = false := by
      cases k <;> simp_all [BlockKind.hasUpdate, BlockKind.isPort]
    simp [hb, hk, hport]
  · simp [hb, hk, hp]

theorem updates_of_synchronous
    (hkind : ∀ b ∈ orderedBlocks d d.runOrder, ∃ k, c b.type = some k ∧
      k.isSynchronous = true) :
    (ofDiagram c d d.runOrder : Encoding R).updates =
      (blocksOf BlockKind.hasUpdate c d).map fun b =>
        .assign (target c b) (updateTerm c d b) := by
  rw [updates_ofDiagram]
  refine flatMap_eq_map_filter ?_
  intro b hb
  obtain ⟨k, hk, hs⟩ := hkind b hb
  rcases contribution_cases (R := R) d hk hs with
    ⟨rfl, hb⟩ | ⟨rfl, hb⟩ | ⟨hu, _, hb⟩ | ⟨_, hu, _, hb⟩
  · simp [hb, hk, BlockKind.hasUpdate]
  · simp [hb, hk, BlockKind.hasUpdate]
  · simp [hb, hk, hu]
  · simp [hb, hk, hu]

theorem exists_simple_of_synchronous
    (hkind : ∀ b ∈ orderedBlocks d d.runOrder, ∃ k, c b.type = some k ∧
      k.isSynchronous = true)
    {e : Definition R} (he : e ∈ (ofDiagram c d d.runOrder : Encoding R).definitions) :
    ∃ x t, e = .simple x t := by
  rw [definitions_ofDiagram] at he
  obtain ⟨b, hb, he⟩ := List.mem_flatMap.mp he
  obtain ⟨k, hk, hs⟩ := hkind b hb
  rcases contribution_cases (R := R) d hk hs with
    ⟨rfl, hb⟩ | ⟨rfl, hb⟩ | ⟨hu, _, hb⟩ | ⟨_, _, t, hb⟩
  · simp [hb] at he
  · simp [hb] at he
  · simp [hb] at he
  · rw [hb] at he
    exact ⟨_, t, List.mem_singleton.mp he⟩

theorem names_sublist_of_synchronous
    (hkind : ∀ b ∈ orderedBlocks d d.runOrder, ∃ k, c b.type = some k ∧
      k.isSynchronous = true) :
    ((ofDiagram c d d.runOrder : Encoding R).definitions.map Definition.name).Sublist
      ((orderedBlocks d d.runOrder).map (target c)) := by
  rw [definitions_ofDiagram]
  generalize orderedBlocks d d.runOrder = bs at hkind
  induction bs with
  | nil => exact List.Sublist.refl _
  | cons b bs ih =>
      have hrest := ih fun b' hb' => hkind b' (List.mem_cons_of_mem _ hb')
      obtain ⟨k, hk, hs⟩ := hkind b List.mem_cons_self
      rw [List.flatMap_cons, List.map_append, List.map_cons]
      rcases contribution_cases (R := R) d hk hs with ⟨rfl, hb⟩ | ⟨rfl, hb⟩ | ⟨hu, _, hb⟩ |
        ⟨_, _, t, hb⟩
      · simpa [hb] using hrest.cons (target c b)
      · simpa [hb] using hrest.cons (target c b)
      · simpa [hb] using hrest.cons (target c b)
      · simpa [hb, Definition.name] using hrest.cons_cons (target c b)

omit [Scalar R] in
theorem targets_portStep (c : Catalogue) (d : Diagram) (b : Block) :
    (portStep c d b : Program R).targets = [target c b] := by
  unfold portStep
  split <;> rfl

omit [Scalar R] in
theorem isStraight_portStep (c : Catalogue) (d : Diagram) (b : Block) :
    (portStep c d b : Program R).IsStraight := by
  unfold portStep
  split <;> trivial

omit [Scalar R] in
theorem targets_portSteps (bs : List Block) :
    (Program.seq (bs.map (portStep c d : Block → Program R))).targets = bs.map
      (target c) := by
  simp only [Program.targets, Program.targetsOfAll_eq, List.flatMap_map, targets_portStep]
  induction bs with
  | nil => rfl
  | cons b bs ih => simp [ih]

theorem target_of_hasUpdate {b : Block} (hb : b ∈ blocksOf BlockKind.hasUpdate c d) :
    target c b = b.outputVar 0 := by
  have hany := (List.mem_filter.mp hb).2
  refine if_neg ?_
  intro hout
  simp [hout, BlockKind.hasUpdate] at hany

/-- Ports and states have different variables. -/
theorem nodup_ports_append_states
    (h : ((orderedBlocks d d.runOrder).map (target c)).Nodup) :
    ((blocksOf BlockKind.isPort c d).map (target c) ++
      (blocksOf BlockKind.hasUpdate c d).map (target c)).Nodup := by
  refine List.nodup_append.mpr ⟨?_, ?_, ?_⟩
  · exact (List.filter_sublist.map _).nodup h
  · exact (List.filter_sublist.map _).nodup h
  · rintro x hx y hy rfl
    obtain ⟨b, hb, hbx⟩ := List.mem_map.mp hx
    obtain ⟨b', hb', hbx'⟩ := List.mem_map.mp hy
    obtain ⟨hmem, hport⟩ := List.mem_filter.mp hb
    obtain ⟨hmem', hupdate⟩ := List.mem_filter.mp hb'
    have heq : b = b' := List.inj_on_of_nodup_map h hmem hmem' (hbx.trans hbx'.symm)
    subst heq
    cases hk : c b.type with
    | none => simp [hk] at hport
    | some k =>
        rw [hk] at hport hupdate
        cases k <;> simp_all [BlockKind.isPort, BlockKind.hasUpdate]

theorem isStraight_of_synchronous
    (hkind : ∀ b ∈ orderedBlocks d d.runOrder, ∃ k, c b.type = some k ∧
      k.isSynchronous = true) :
    ∀ p ∈ (ofDiagram c d d.runOrder : Encoding R).steps ++
      (ofDiagram c d d.runOrder : Encoding R).updates, p.IsStraight := by
  intro p hp
  rw [steps_of_synchronous hkind, updates_of_synchronous hkind] at hp
  rcases List.mem_append.mp hp with hp | hp
  · obtain ⟨b, _, rfl⟩ := List.mem_map.mp hp
    exact isStraight_portStep _ d b
  · obtain ⟨b, _, rfl⟩ := List.mem_map.mp hp
    trivial

/-- No variable is written twice. -/
theorem nodup_targets_of_synchronous
    (hkind : ∀ b ∈ orderedBlocks d d.runOrder, ∃ k, c b.type = some k ∧
      k.isSynchronous = true)
    (htarget : ((orderedBlocks d d.runOrder).map (target c)).Nodup) :
    (((ofDiagram c d d.runOrder : Encoding R).steps ++
      (ofDiagram c d d.runOrder : Encoding R).updates).flatMap Program.targets).Nodup := by
  have hports :
      ((blocksOf BlockKind.isPort c d).map (portStep c d : Block → Program R)).flatMap
      Program.targets = (blocksOf BlockKind.isPort c d).map (target c) := by
    rw [← Program.targetsOfAll_eq]
    exact targets_portSteps _
  have hstates : ((blocksOf BlockKind.hasUpdate c d).map
      fun b =>
        Program.assign (target c b) (updateTerm c d b : Term R)).flatMap Program.targets =
      (blocksOf BlockKind.hasUpdate c d).map (target c) := by
    rw [← Program.targetsOfAll_eq]
    exact Program.targets_assignments _
  rw [steps_of_synchronous hkind, updates_of_synchronous hkind, List.flatMap_append,
    hports, hstates]
  exact nodup_ports_append_states htarget

end Discrete

section Updates

variable {K : Type*} [Field K] [LinearOrder K]

/-- The value that the state of a block is to take, where signals have the values `w`. -/
def nextValue (ρ : Reading R K) (c : Catalogue) (d : Diagram) (b : Block)
    (w : Valuation K) : K :=
  if c b.type = some .discreteIntegrator then
    w (b.outputVar 0) + (sampleTime b).eval ρ w * (input d b 0).eval ρ w
  else (input d b 0).eval ρ w

omit [LinearOrder K] in
theorem eval_updateTerm (ρ : Reading R K) (c : Catalogue) (d : Diagram) (b : Block)
    (w : Valuation K) : (updateTerm c d b).eval ρ w = nextValue ρ c d b w := by
  unfold updateTerm nextValue
  split
  · simp [Term.eval_plus, Term.eval_times]
  · rfl

/-- Every state has the value it is to take by the signals when its turn comes: the states
before it are updated, as in `u`, and all else is as in `s`. -/
def Sequential (ρ : Reading R K) (c : Catalogue) (d : Diagram)
    (s u : Valuation K) : Prop :=
  ∀ earlier b later, blocksOf BlockKind.hasUpdate c d = earlier ++ b :: later →
    ∀ w, Definition.Extends ρ (ofDiagram c d d.runOrder).definitions
        (Program.overwritten (earlier.map fun b => b.outputVar 0) u s) w →
      u (b.outputVar 0) = nextValue ρ c d b w

/-- After the updates, every state has the value it is to take by the signals before the
updates. -/
def Simultaneous (ρ : Reading R K) (c : Catalogue) (d : Diagram)
    (before after : Valuation K) : Prop :=
  ∀ b ∈ blocksOf BlockKind.hasUpdate c d, after (b.outputVar 0) = nextValue ρ c d b before

/-- No update is disturbed: when its turn comes, a state is to take the same value as by
the signals before the updates. -/
def Undisturbed (ρ : Reading R K) (c : Catalogue) (d : Diagram)
    (s u signals : Valuation K) : Prop :=
  ∀ earlier b later, blocksOf BlockKind.hasUpdate c d = earlier ++ b :: later →
    ∀ w, Definition.Extends ρ (ofDiagram c d d.runOrder).definitions
        (Program.overwritten (earlier.map fun b => b.outputVar 0) u s) w →
      nextValue ρ c d b w = nextValue ρ c d b signals

variable (R) in
/-- The new value of a state depends on a state that is updated before it. -/
def DependsOnEarlier (c : Catalogue) (d : Diagram) : Prop :=
  ∃ earlier b later, blocksOf BlockKind.hasUpdate c d = earlier ++ b :: later ∧
    ∃ e ∈ earlier, ∃ x, (updateTerm c d b : Term R).mentions x = true ∧
      Definition.DependsOnVar (ofDiagram c d d.runOrder : Encoding R).definitions x
      (e.outputVar 0)

theorem deterministicList_of_synchronous (ρ : Reading R K) {c : Catalogue} {d : Diagram}
    (hkind : ∀ b ∈ orderedBlocks d d.runOrder, ∃ k, c b.type = some k ∧
      k.isSynchronous = true) :
    Definition.DeterministicList ρ
      (ofDiagram c d d.runOrder : Encoding R).definitions := by
  refine ⟨?_, ?_⟩
  · intro f hf
    obtain ⟨x, t, rfl⟩ := exists_simple_of_synchronous hkind hf
    trivial
  · intro f hf
    obtain ⟨x, t, rfl⟩ := exists_simple_of_synchronous hkind hf
    trivial

/-- The controller of an analysis without errors runs the steps and updates of the
encoding, and reads the values of the signals. -/
theorem exists_signals_control (ρ : Reading R K) {c : AnalysisSetting R} {d : Diagram}
    (hok : (Analysis.run c d .resolve).hasErrors = false) {e : Encoding R}
    (he : e = ofDiagram c.catalogue d d.runOrder)
    (hdet : Definition.DeterministicList ρ e.definitions)
    (hnodup : (e.definitions.map Definition.name).Nodup)
    (hstraight : ∀ p ∈ e.steps ++ e.updates, p.IsStraight) :
    ∃ (m : HybridModel R) (closed : List (Definition R)) (signals : Valuation K →
      Valuation K),
      (Analysis.run c d .resolve).model = some m ∧
        Definition.close e.definitions = .ok closed ∧
      (∀ s w, w = signals s ↔ Definition.Extends ρ e.definitions s w) ∧
      ∀ s u, Program.Runs ρ id m.control s u ↔
        Program.Runs ρ signals (.seq (e.steps ++ e.updates)) s u := by
  subst he
  obtain ⟨closed, hclose, hmodel⟩ := Analysis.exists_resolved c d hok
  have hplain : ∀ f ∈ (ofDiagram c.catalogue d d.runOrder : Encoding R).definitions,
      PlainName f.name := fun f hf => plain_of_mem_definitions hf
  obtain ⟨signals, hsignals, hruns⟩ := Definition.exists_signals hdet hplain hnodup hclose
  obtain ⟨_, _, _, hform⟩ := Definition.closedForm_of_close hdet.scalar hplain hclose
  have hclosedPlain : ∀ f ∈ closed, PlainName f.name := by
    intro f hf
    obtain ⟨f', hf', hname⟩ :=
      List.mem_map.mp ((hform.mem_names_iff f.name).mp (List.mem_map_of_mem hf))
    rw [← hname]
    exact hplain f' hf'
  refine ⟨_, closed, signals, hmodel, hclose, hsignals, ?_⟩
  intro s u
  rw [Definition.unfoldAll_of_isScalar hform.scalar hclosedPlain,
    Definition.control_foldl_unfoldModel, Analysis.control_unresolvedModel]
  have hinhabited :
      (Program.sequence ((ofDiagram c.catalogue d d.runOrder : Encoding R).steps ++
      (ofDiagram c.catalogue d d.runOrder : Encoding R).updates)).choicesInhabited =
          true :=
    Program.choicesInhabited_sequence
      (Program.choicesInhabited_seq_iff.mp
        (Program.choicesInhabited_of_straight hstraight))
  exact (hruns _ hinhabited s u).trans Program.runs_sequence_iff

theorem sequential_of_runs {ρ : Reading R K} {c : Catalogue} {d : Diagram}
    {signals : Valuation K → Valuation K}
    (hsignals : ∀ s w, w = signals s ↔
      Definition.Extends ρ (ofDiagram c d d.runOrder : Encoding R).definitions s w)
    (hnodup : ((blocksOf BlockKind.hasUpdate c d).map (target c)).Nodup)
    {s u : Valuation K} (hrun : Program.Runs ρ signals
      (.seq ((blocksOf BlockKind.hasUpdate c d).map fun b =>
        .assign (target c b) (updateTerm c d b)))
      s u) :
    Sequential ρ c d s u := by
  intro earlier b later hsplit w hw
  have hnames : earlier.map (target c) = earlier.map fun b => b.outputVar 0 := by
    refine List.map_congr_left fun e he => target_of_hasUpdate (d := d) ?_
    rw [hsplit]
    exact List.mem_append_left _ he
  have hb : b ∈ blocksOf BlockKind.hasUpdate c d := by simp [hsplit]
  rw [hsplit] at hrun hnodup
  rw [(hsignals _ w).mpr hw, ← target_of_hasUpdate hb, ← hnames, ← eval_updateTerm]
  exact Program.value_of_runs_assignments hnodup hrun

/-- Updates made in turn act as if made at once if and only if none is disturbed. -/
theorem Sequential.simultaneous_iff {ρ : Reading R K} {c : Catalogue} {d : Diagram}
    {signals : Valuation K → Valuation K}
    (hsignals : ∀ s w, w = signals s ↔
      Definition.Extends ρ (ofDiagram c d d.runOrder : Encoding R).definitions s w)
    {s u : Valuation K} (h : Sequential ρ c d s u) :
    Simultaneous ρ c d (signals s) u ↔ Undisturbed ρ c d s u (signals s) := by
  constructor
  · intro hsim earlier b later hsplit w hw
    rw [← h earlier b later hsplit w hw]
    exact hsim b (by simp [hsplit])
  · intro hund b hb
    obtain ⟨earlier, later, hsplit⟩ := List.append_of_mem hb
    have hext :=
      (hsignals (Program.overwritten (earlier.map fun b => b.outputVar 0) u s) _).mp rfl
    rw [h earlier b later hsplit _ hext]
    exact hund earlier b later hsplit _ hext

/-- States that depend on no state updated before them are updated at once. -/
theorem undisturbed_of_not_dependsOnEarlier {ρ : Reading R K} {c : Catalogue} {d : Diagram}
    (hdet : Definition.DeterministicList ρ
      (ofDiagram c d d.runOrder : Encoding R).definitions)
    {closed : List (Definition R)}
    (hclose : Definition.close
      (ofDiagram c d d.runOrder : Encoding R).definitions = .ok closed)
    (h : ¬DependsOnEarlier R c d) {s u w : Valuation K}
    (hw : Definition.Extends ρ (ofDiagram c d d.runOrder : Encoding R).definitions s w) :
    Undisturbed ρ c d s u w := by
  intro earlier b later hsplit w' hw'
  rw [← eval_updateTerm, ← eval_updateTerm]
  refine Term.eval_congr ρ _ fun x hx => ?_
  refine Definition.extends_eq_of_not_dependsOn hdet hclose hw' hw fun y hy => ?_
  refine if_neg fun hmem => h ?_
  obtain ⟨e, he, rfl⟩ := List.mem_map.mp hmem
  exact ⟨earlier, b, later, hsplit, e, he, x, hx, hy⟩

/-- **State updates of a discrete linear diagram.**  The controller runs from every state,
whatever the inputs.  In a run, steps change the variables of ports only and updates those
of states only; in between, signals have the values `w`.  Updates are made in turn.  They
act as if they were made at once, by the values `w`, exactly if no update is disturbed by
those before it; so they do if no state depends on a state that is updated before it. -/
theorem updates_simultaneous_iff (ρ : Reading R K) (c : AnalysisSetting R) (d : Diagram)
    (hkind : ∀ b ∈ d.blocks, ∃ k, c.catalogue b.type = some k ∧ k.isSynchronous = true)
    (htarget : (d.blocks.map (target c.catalogue)).Nodup)
    (hok : (Analysis.run c d .resolve).hasErrors = false) :
    ∃ m, (Analysis.run c d .resolve).model = some m ∧
      (∀ s a : Valuation K, ∃ u, Program.Runs ρ id m.control s u ∧
        ∀ b ∈ d.blocks, c.catalogue b.type = some .inport →
          u (b.outputVar 0) = a (b.outputVar 0)) ∧
      ∀ s u, Program.Runs ρ id m.control s u → ∃ s₁ w,
        (∀ x ∉ (blocksOf BlockKind.isPort c.catalogue d).map (target c.catalogue),
          s₁ x = s x) ∧
        (∀ x ∉ (blocksOf BlockKind.hasUpdate c.catalogue d).map (target c.catalogue),
          u x = s₁ x) ∧
        Definition.Extends ρ (ofDiagram c.catalogue d d.runOrder).definitions s₁ w ∧
        Sequential ρ c.catalogue d s₁ u ∧
        (Simultaneous ρ c.catalogue d w u ↔ Undisturbed ρ c.catalogue d s₁ u w) ∧
        (¬DependsOnEarlier R c.catalogue d → Simultaneous ρ c.catalogue d w u) := by
  -- Without errors, the encoded blocks are the blocks of the diagram.
  have hperm := orderedBlocks_perm (Analysis.nodup_ids_of_not_hasErrors c d hok)
  have hkind' : ∀ b ∈ orderedBlocks d d.runOrder,
      ∃ k, c.catalogue b.type = some k ∧ k.isSynchronous = true := fun b hb =>
    hkind b (hperm.mem_iff.mp hb)
  have htarget' : ((orderedBlocks d d.runOrder).map (target c.catalogue)).Nodup :=
    ((hperm.map _).nodup_iff).mpr htarget
  have hdet := deterministicList_of_synchronous ρ hkind'
  have hstraight := isStraight_of_synchronous (R := R) hkind'
  have hnames := (names_sublist_of_synchronous (R := R) hkind').nodup htarget'
  obtain ⟨m, closed, signals, hmodel, hclose, hsignals, hruns⟩ :=
    exists_signals_control ρ hok rfl hdet hnames hstraight
  refine ⟨m, hmodel, ?_, ?_⟩
  · intro s a
    obtain ⟨u, hrun, hchosen⟩ := Program.exists_runs_of_straight hstraight
      (nodup_targets_of_synchronous hkind' htarget') s a
    refine ⟨u, (hruns s u).mpr hrun, ?_⟩
    intro b hb hin
    have htargetIn : target c.catalogue b = b.outputVar 0 := by simp [target, hin]
    rw [← htargetIn]
    refine hchosen _ (List.mem_append_left _ ?_)
    rw [steps_of_synchronous hkind']
    refine List.mem_map.mpr ⟨b, List.mem_filter.mpr ⟨hperm.mem_iff.mpr hb, ?_⟩, ?_⟩
    · simp [hin, BlockKind.isPort]
    · simp [portStep, hin]
  · intro s u hrun
    rw [hruns, Program.runs_seq_append, steps_of_synchronous hkind',
      updates_of_synchronous hkind'] at hrun
    obtain ⟨s₁, hfirst, hlast⟩ := hrun
    have hext := (hsignals s₁ _).mp rfl
    have hapart := nodup_ports_append_states htarget'
    have hseq := sequential_of_runs hsignals (List.nodup_append.mp hapart).2.1 hlast
    have hiff := hseq.simultaneous_iff hsignals
    refine ⟨s₁, signals s₁, ?_, ?_, hext, hseq, hiff, ?_⟩
    · intro x hx
      exact hfirst.frame (by rwa [targets_portSteps])
    · intro x hx
      exact hlast.frame (by rwa [Program.targets_assignments])
    · intro hindep
      exact hiff.mpr (undisturbed_of_not_dependsOnEarlier hdet hclose hindep hext)

end Updates

section Witness

/-- Two delays in a row, between an input and an output. -/
def delayChain : Diagram where
  name := "chain"
  blocks :=
    [⟨1, "A", "Inport", 0, 1, []⟩, ⟨2, "D1", "UnitDelay", 1, 1, []⟩,
      ⟨3, "D2", "UnitDelay", 1, 1, []⟩, ⟨4, "Y", "Outport", 1, 0, []⟩]
  signals := [⟨1, ⟨1, 0⟩, ⟨2, 0⟩⟩, ⟨2, ⟨2, 0⟩, ⟨3, 0⟩⟩, ⟨3, ⟨3, 0⟩, ⟨4, 0⟩⟩]

theorem not_hasErrors_delayChain :
    (Analysis.run Analysis.binary64Setting delayChain .resolve).hasErrors = false := by
  have hbefore :
      (Analysis.beforeResolve Analysis.binary64Setting delayChain).hasErrors = false := by
    decide +kernel
  exact Analysis.not_hasErrors_of_close _ _ hbefore
    (Definition.close_of_wellFormed rfl rfl)

/-- The second of two delays gets the new value of the first, not the one before the
step. -/
theorem delayChain_not_simultaneous :
    ∃ m, (Analysis.run Analysis.binary64Setting delayChain .resolve).model = some m ∧
      ∃ s u : Valuation ℚ, Program.Runs Definition.rationalReading id m.control s u ∧
        s "D1_out" = 0 ∧ u "D1_out" = 1 ∧ u "D2_out" = 1 := by
  have hkind : ∀ b ∈ delayChain.blocks,
      ∃ k, Analysis.binary64Setting.catalogue b.type = some k ∧
      k.isSynchronous = true := by
    intro b hb
    simp only [delayChain, List.mem_cons, List.not_mem_nil, or_false] at hb
    rcases hb with rfl | rfl | rfl | rfl
    · exact ⟨.inport, by decide, rfl⟩
    · exact ⟨.unitDelay, by decide, rfl⟩
    · exact ⟨.unitDelay, by decide, rfl⟩
    · exact ⟨.outport, by decide, rfl⟩
  obtain ⟨m, hmodel, hruns, hall⟩ := updates_simultaneous_iff Definition.rationalReading
    Analysis.binary64Setting delayChain hkind (by decide) not_hasErrors_delayChain
  obtain ⟨u, hrun, hinput⟩ := hruns (fun _ => 0) (fun _ => 1)
  obtain ⟨s₁, w, _, hstates, _, hseq, _, _⟩ := hall _ _ hrun
  have hblocks :
      blocksOf BlockKind.hasUpdate Analysis.binary64Setting.catalogue delayChain =
      [⟨2, "D1", "UnitDelay", 1, 1, []⟩, ⟨3, "D2", "UnitDelay", 1, 1, []⟩] := by decide
  have hdefinitions :
      (ofDiagram Analysis.binary64Setting.catalogue delayChain delayChain.runOrder :
      Encoding Float).definitions = [] := rfl
  have hextends : ∀ v : Valuation ℚ, Definition.Extends Definition.rationalReading
      (ofDiagram Analysis.binary64Setting.catalogue delayChain delayChain.runOrder :
        Encoding Float).definitions
      v v := by
    intro v
    rw [hdefinitions]
    exact ⟨fun x _ => rfl, by simp⟩
  have hA : s₁ "A_out" = 1 := by
    rw [← hstates "A_out" (by rw [hblocks]; decide)]
    exact hinput ⟨1, "A", "Inport", 0, 1, []⟩ (by decide) (by decide)
  have hD1 : u "D1_out" = s₁ "A_out" := hseq [] _ _ hblocks _ (hextends _)
  have hturn := hseq [_] _ [] hblocks _ (hextends _)
  have hD2 : u "D2_out" = u "D1_out" := hturn
  exact ⟨m, hmodel, _, u, hrun, rfl, hD1.trans hA, hD2.trans (hD1.trans hA)⟩

end Witness

end Encoding
end SignalFlow
