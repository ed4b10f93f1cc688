import SignalFlow.Analysis.Basic
import SignalFlow.Proofs.Baseline
import SignalFlow.Scalar.Binary64

/-!
# Runs of the stages

An analysis that reports no error has closed the definitions of its encoding, and its model
is the encoded one, with what is known about the diagram, in which the closed definitions
are unfolded.  What is known changes the contract and the properties only.

**Results.**
* `runStage_history`: a stage appends its report.
* `exists_resolved`: the model of an analysis without errors.
* `nodup_ids_of_not_hasErrors`: in a diagram without errors identifiers are different.
* `tryRun_eq`: when an analysis runs to its end, and what there is if it does not.
-/

namespace SignalFlow
namespace Analysis

variable {R : Type} [Scalar R] (c : AnalysisSetting R) (d : Diagram)

/-! ### What a stage changes -/

theorem runStage_order (a : Analysis R) (s : Stage) :
    (runStage c d a s).order = a.order := by
  cases s with
  | layOut => rfl
  | assume =>
      cases h : c.assumptions <;> simp [runStage, h, completed, mapGraph]
  | propagate =>
      cases h : a.graph <;> simp [runStage, h, takeOver, completed]
  | relate => rfl
  | oblige => rfl
  | encode => rfl
  | resolve =>
      cases h : a.encoding <;> simp [runStage, h, completed, resolve]

/-- A stage appends its report. -/
theorem runStage_history (a : Analysis R) (s : Stage) :
    ∃ ds, (runStage c d a s).history = a.history ++ [(s, ds)] := by
  cases s with
  | layOut => exact ⟨_, rfl⟩
  | assume =>
      cases h : c.assumptions <;> exact ⟨[], by simp [runStage, h, completed, mapGraph]⟩
  | propagate =>
      cases h : a.graph <;> exact ⟨_, by simp [runStage, h, takeOver, completed]; rfl⟩
  | relate => exact ⟨_, rfl⟩
  | oblige => exact ⟨_, rfl⟩
  | encode => exact ⟨_, rfl⟩
  | resolve =>
      cases h : a.encoding <;> exact ⟨_, by simp [runStage, h, completed, resolve]; rfl⟩

/-- No stage takes the graph away. -/
theorem runStage_graph_isSome {a : Analysis R} (ha : a.graph.isSome = true) (s : Stage) :
    (runStage c d a s).graph.isSome = true := by
  cases s with
  | layOut => rfl
  | assume =>
      cases h : c.assumptions <;> simp [runStage, h, completed, mapGraph, ha]
  | propagate =>
      cases h : a.graph with
      | none => simp [h] at ha
      | some g => simp [runStage, h, takeOver, completed]
  | relate => simpa [runStage, completed, mapGraph] using ha
  | oblige => simpa [runStage, completed, mapGraph] using ha
  | encode => exact ha
  | resolve =>
      cases h : a.encoding <;> simpa [runStage, h, completed, resolve] using ha

theorem anyError_append (ds es : List Diagnostic) :
    Diagnostic.anyError (ds ++ es) = (Diagnostic.anyError ds ||
      Diagnostic.anyError es) := by
  simp [Diagnostic.anyError]

/-- What is without errors after a stage was without errors before it. -/
theorem not_hasErrors_of_runStage {a : Analysis R} {s : Stage}
    (h : (runStage c d a s).hasErrors = false) : a.hasErrors = false := by
  obtain ⟨ds, hds⟩ := runStage_history c d a s
  rw [hasErrors, diagnostics, hds, List.flatMap_append, anyError_append,
    Bool.or_eq_false_iff] at h
  exact h.1

theorem not_hasErrors_of_foldl {ss : List Stage} {a : Analysis R}
    (h : (ss.foldl (runStage c d) a).hasErrors = false) : a.hasErrors = false := by
  induction ss generalizing a with
  | nil => exact h
  | cons s ss ih => exact not_hasErrors_of_runStage c d (ih h)

/-! ### The whole run -/

theorem required_resolve : Stage.resolve.required =
    [.layOut, .assume, .propagate, .relate, .oblige, .encode, .resolve] := by
  decide

/-- The analysis before definitions are unfolded. -/
def beforeResolve : Analysis R :=
  [Stage.assume, .propagate, .relate, .oblige, .encode].foldl (runStage c d)
    (runStage c d { order := d.runOrder } .layOut)

theorem run_resolve : run c d .resolve = runStage c d (beforeResolve c d) .resolve := by
  rw [run, required_resolve]
  rfl

theorem graph_isSome_beforeResolve : (beforeResolve c d).graph.isSome = true :=
  List.foldlRecOn (motive := fun a : Analysis R => a.graph.isSome = true) _ _ rfl
    fun _ ha s _ => runStage_graph_isSome c d ha s

theorem encoding_beforeResolve :
    (beforeResolve c d).encoding = some (Encoding.ofDiagram c.catalogue d d.runOrder) := by
  have horder : ([Stage.assume, .propagate, .relate, .oblige].foldl (runStage c d)
      (runStage c d { order := d.runOrder } .layOut)).order = d.runOrder :=
    List.foldlRecOn (motive := fun a : Analysis R => a.order = d.runOrder) _ _ rfl
      fun a ha s _ => (runStage_order c d a s).trans ha
  rw [← horder]
  rfl

/-- The encoded model with all that is known about its signals, before definitions are
unfolded. -/
def unresolvedModel : HybridModel R :=
  let m := (Encoding.ofDiagram c.catalogue d d.runOrder).toModel d.name
  match (beforeResolve c d).graph with
  | some g => withKnowledge m g
  | none => m

theorem control_unresolvedModel : (unresolvedModel c d).control =
    ((Encoding.ofDiagram c.catalogue d d.runOrder : Encoding R).toModel
      d.name).control := by
  unfold unresolvedModel
  split
  · unfold withKnowledge
    dsimp only
    split <;> rfl
  · rfl

/-- The model of an analysis without errors: closed definitions are unfolded in the encoded
model. -/
theorem exists_resolved (h : (run c d .resolve).hasErrors = false) :
    ∃ closed : List (Definition R),
      Definition.close
        (Encoding.ofDiagram c.catalogue d d.runOrder : Encoding R).definitions =
        .ok closed ∧
      (run c d .resolve).model = some ((unresolvedModel c d).unfoldAll closed) := by
  obtain ⟨g, hg⟩ := Option.isSome_iff_exists.mp (graph_isSome_beforeResolve c d)
  have he := encoding_beforeResolve c d
  rw [run_resolve] at h ⊢
  cases hclose : Definition.close
      (Encoding.ofDiagram c.catalogue d d.runOrder : Encoding R).definitions with
  | ok closed =>
      refine ⟨closed, rfl, ?_⟩
      simp [runStage, resolve, he, hg, hclose, completed, unresolvedModel]
  | error fault =>
      simp only [runStage, resolve, he, hclose, completed, hasErrors, diagnostics,
        List.flatMap_append, anyError_append, Bool.or_eq_false_iff] at h
      cases fault <;>
        simp [Diagnostic.anyError, Definition.Fault.diagnostic, Diagnostic.error,
          Diagnostic.withHint] at h

/-- An analysis is without errors if the definitions can be closed and nothing was wrong
before. -/
theorem not_hasErrors_of_close (h : (beforeResolve c d).hasErrors = false)
    {closed : List (Definition R)}
    (hclose : Definition.close
      (Encoding.ofDiagram c.catalogue d d.runOrder : Encoding R).definitions =
        .ok closed) :
    (run c d .resolve).hasErrors = false := by
  have he := encoding_beforeResolve c d
  have hhistory : (runStage c d (beforeResolve c d) .resolve).history =
      (beforeResolve c d).history ++ [(.resolve, [])] := by
    simp [runStage, resolve, he, hclose, completed]
  rw [run_resolve, hasErrors, diagnostics, hhistory, List.flatMap_append, anyError_append]
  exact Bool.or_eq_false_iff.mpr ⟨h, rfl⟩

/-- In a diagram that is analysed without errors, identifiers are different. -/
theorem nodup_ids_of_not_hasErrors (h : (run c d .resolve).hasErrors = false) :
    (d.blocks.map Block.id).Nodup := by
  rw [run_resolve] at h
  have hlayOut := not_hasErrors_of_foldl c d (not_hasErrors_of_runStage c d h)
  refine FlowGraph.nodup_ids_of_checkCounts (R := R) d.runOrder ?_
  simpa [runStage, hasErrors, diagnostics, completed] using hlayOut

/-! ### Runs that fail -/

/-- Stages other than propagation do not fail. -/
theorem foldlM_tryStage {ss : List Stage} (hss : .propagate ∉ ss) (a : Analysis R) :
    ss.foldlM (tryStage c d) a = .ok (ss.foldl (runStage c d) a) := by
  induction ss generalizing a with
  | nil => rfl
  | cons s ss ih =>
      rw [List.mem_cons, not_or] at hss
      have hfirst : tryStage c d a s = .ok (runStage c d a s) := by
        unfold tryStage
        split
        · exact absurd rfl hss.1
        · rfl
      rw [List.foldlM_cons, hfirst]
      exact ih hss.2 (runStage c d a s)

/-- The analysis before its propagation. -/
def beforePropagate : Analysis R :=
  [Stage.layOut, .assume].foldl (runStage c d) { order := d.runOrder }

/-- What a stage needs, if it needs a propagation. -/
theorem required_cases (s : Stage) :
    .propagate ∉ s.required ∨
      ∃ rest, s.required = [.layOut, .assume] ++ .propagate :: rest ∧
        .propagate ∉ rest := by
  cases s with
  | layOut | assume | relate | encode => exact Or.inl (by decide)
  | propagate => exact Or.inr ⟨[], by decide, by decide⟩
  | oblige => exact Or.inr ⟨[.oblige], by decide, by decide⟩
  | resolve => exact Or.inr ⟨[.relate, .oblige, .encode, .resolve], by decide, by decide⟩

/-- Assumptions change facts only. -/
theorem extends_seed (as : Assumptions R) (d : Diagram) (g : FlowGraph R) :
    g.Extends (as.seed d g) := by
  refine .foldl (fun g a => ?_) as g
  unfold Assumptions.seedBlock
  split
  · exact .refl g
  · next n _ =>
      refine .foldl (fun g p => ?_) a.pins g
      refine .foldl (fun g e => ?_) (g.edgesFrom n p.index) g
      exact FlowGraph.extends_modifyEdge (f := Edge.assume p.statements)
        (fun e => e.bare_addFacts _)
        (fun e => e.prefix_addFacts _) g e

theorem graph_beforePropagate : ∃ g, (beforePropagate c d).graph = some g ∧
    g.layout = (FlowGraph.ofDiagram d d.runOrder : FlowGraph R).layout := by
  cases h : c.assumptions with
  | none => exact ⟨_, by simp [beforePropagate, runStage, completed, h], rfl⟩
  | some as =>
      exact ⟨_, by simp [beforePropagate, runStage, completed, mapGraph, h],
        (extends_seed as d _).layout⟩

theorem order_beforePropagate : (beforePropagate c d).order = d.runOrder := by
  simp [beforePropagate, runStage_order]

/-- The propagation of a diagram, with and without failure. -/
theorem tryStage_beforePropagate :
    tryStage c d (beforePropagate c d) .propagate =
      if (FlowGraph.ofDiagram d d.runOrder : FlowGraph R).edges.all
        (fun e => e.target.pin + 1 < Text.idLimit) then
        .ok (runStage c d (beforePropagate c d) .propagate)
      else .error (beforePropagate c d) := by
  obtain ⟨g, hg, hlayout⟩ := graph_beforePropagate c d
  have hpins : (g.edges.all fun e => e.target.pin + 1 < Text.idLimit) =
      (FlowGraph.ofDiagram d d.runOrder : FlowGraph R).edges.all fun e =>
        e.target.pin + 1 < Text.idLimit := by
    have hall := congrArg (List.all · fun pin => pin + 1 < Text.idLimit)
      (FlowGraph.pins_of_layout hlayout)
    simpa [List.all_map, Function.comp_def] using hall
  have hiff := Propagation.exists_run_iff (c := ⟨d, c.catalogue, c.limits⟩) hlayout
  rw [← hpins]
  unfold tryStage
  simp only [hg, order_beforePropagate]
  cases hrun : Propagation.run? ⟨d, c.catalogue, c.limits⟩ d.runOrder g with
  | none =>
      rw [if_neg]
      intro hall
      obtain ⟨st, hst⟩ := hiff.mpr (by simpa using hall)
      rw [hrun] at hst
      cases hst
  | some st =>
      have hall := hiff.mp ⟨st, hrun⟩
      rw [if_pos (by simpa using hall)]
      obtain rfl := (Propagation.follows_run _ _ _).eq st hrun
      simp [runStage, hg, order_beforePropagate]

/-- An analysis that needs a propagation ends with it if the inputs of some block cannot be
counted; every other one runs to its end. -/
theorem tryRun_eq (s : Stage) :
    tryRun c d s =
      if .propagate ∈ s.required ∧
          ¬ (FlowGraph.ofDiagram d d.runOrder : FlowGraph R).edges.all
            (fun e => e.target.pin + 1 < Text.idLimit) then
        .error (beforePropagate c d)
      else .ok (run c d s) := by
  unfold tryRun run
  rcases required_cases s with hnot | ⟨rest, hrequired, hrest⟩
  · rw [if_neg fun h => hnot h.1, foldlM_tryStage c d hnot]
  · have hbefore : [Stage.layOut, .assume].foldlM (tryStage c d) { order := d.runOrder } =
        .ok (beforePropagate c d) := foldlM_tryStage c d (by decide) _
    rw [hrequired, List.foldlM_append, hbefore, List.foldl_append]
    show ((Stage.propagate :: rest).foldlM (tryStage c d) (beforePropagate c d)) = _
    rw [List.foldlM_cons, tryStage_beforePropagate]
    by_cases hall : (FlowGraph.ofDiagram d d.runOrder : FlowGraph R).edges.all
        (fun e => e.target.pin + 1 < Text.idLimit) = true
    · rw [if_pos hall, if_neg fun h => h.2 hall]
      exact foldlM_tryStage c d hrest _
    · rw [if_neg hall, if_pos ⟨by simp, hall⟩]
      rfl

/-- The usual setting for numbers of the 64-bit binary format. -/
def binary64Setting : AnalysisSetting Float :=
  .ofLimits {} none

end Analysis
end SignalFlow
