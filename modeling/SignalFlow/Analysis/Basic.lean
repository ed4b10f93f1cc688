import SignalFlow.Assumption.Seeding
import SignalFlow.Definition.Application
import SignalFlow.Definition.Closure
import SignalFlow.Diagram.Twins
import SignalFlow.Encoding.Diagram
import SignalFlow.FlowGraph.Build
import SignalFlow.Obligation
import SignalFlow.Propagation.Visit
import SignalFlow.Stage

/-!
# Analysis of a diagram

An analysis runs the stages that are needed for its result, one after the other.  Every
stage works on what there is and reports what it finds.  Only a propagation can fail, and
ends the analysis then.
-/

namespace SignalFlow

/-- What an analysis works with. -/
structure AnalysisSetting (R : Type) where
  catalogue : Catalogue := .builtin
  oracle : Oracle R
  limits : Limits := {}
  assumptions : Option (Assumptions R) := none

/-- The usual setting for given limits. -/
def AnalysisSetting.ofLimits {R : Type} [Scalar R] (l : Limits)
    (assumptions : Option (Assumptions R)) : AnalysisSetting R :=
  { oracle := .interval l.maxClauses, limits := l, assumptions := assumptions }

/-- State and result of an analysis. -/
structure Analysis (R : Type) where
  order : RunOrder
  graph : Option (FlowGraph R) := none
  loops : List (LoopRecord R) := []
  encoding : Option (Encoding R) := none
  /-- The closed definitions, or all as they were if they could not be closed. -/
  definitions : List (Definition R) := []
  model : Option (HybridModel R) := none
  /-- The stages that were run, with what they reported. -/
  history : List (Stage × List Diagnostic) := []

namespace Analysis

variable {R : Type}

/-- All diagnostics in order. -/
def diagnostics (a : Analysis R) : List Diagnostic :=
  a.history.flatMap Prod.snd

/-- Whether an error was reported. -/
def hasErrors (a : Analysis R) : Bool :=
  Diagnostic.anyError a.diagnostics

/-- Record that a stage was run. -/
def completed (a : Analysis R) (s : Stage) (ds : List Diagnostic) : Analysis R :=
  { a with history := a.history ++ [(s, ds)] }

variable [Scalar R]

/-- Append a formula, unless it says nothing or is there already. -/
def addPart (ps : List (Formula R)) (p : Formula R) : List (Formula R) :=
  match p with
  | .top => ps
  | p => insertLast ps p

/-- Everything that is known: the facts on edges and nodes, and the equalities. -/
def knowledge (g : FlowGraph R) : Formula R :=
  let facts := g.edges.flatMap Edge.facts ++ g.nodes.flatMap Node.facts
  let formulas := (facts.filter fun p => !p.isNoInformation).map Fact.toFormula
    ++ g.equalities.map Formula.rel
  .conj (formulas.foldl addPart [])

/-- The model with what is known as its contract, and the obligations as its properties. -/
def withKnowledge (m : HybridModel R) (g : FlowGraph R) : HybridModel R :=
  let m := { m with properties := g.obligations }
  match knowledge g with
  | .top => m
  | p => { m with contract := .test p }

/-- Close the definitions and unfold them in the model. -/
def resolve (a : Analysis R) (d : Diagram) : Analysis R × List Diagnostic :=
  match a.encoding with
  | none => (a, [])
  | some e =>
      let bare := e.toModel d.name
      let model := match a.graph with
        | some g => withKnowledge bare g
        | none => bare
      let (definitions, ds) := match Definition.close e.definitions with
        | .ok closed => (closed, [])
        | .error fault => (e.definitions, [fault.diagnostic])
      ({ a with definitions := definitions, model := some (model.unfoldAll definitions) },
        ds)

/-- Change the graph, if there is one. -/
def mapGraph (a : Analysis R) (f : FlowGraph R → FlowGraph R) : Analysis R :=
  { a with graph := a.graph.map f }

/-- Take over the result of a propagation. -/
def takeOver (a : Analysis R) (st : Propagation R) : Analysis R :=
  { a with graph := some st.graph, loops := st.loops }.completed .propagate st.diagnostics

/-- Run one stage, as if propagation could not fail. -/
def runStage (c : AnalysisSetting R) (d : Diagram) (a : Analysis R) (s : Stage) :
    Analysis R :=
  match s with
  | .layOut =>
      let g := FlowGraph.ofDiagram d a.order
      { a with graph := some g }.completed s (g.checkCounts d)
  | .assume =>
      (match c.assumptions with
        | some as => a.mapGraph (as.seed d)
        | none => a).completed s []
  | .propagate =>
      match a.graph with
      | none => a.completed s []
      | some g => a.takeOver (Propagation.run ⟨d, c.catalogue, c.limits⟩ a.order g)
  | .relate =>
      (a.mapGraph fun g => d.equalities.foldl FlowGraph.addEquality g).completed s []
  | .oblige => (a.mapGraph fun g => g.withObligations c.oracle c.limits d).completed s []
  | .encode =>
      { a with encoding := some (Encoding.ofDiagram c.catalogue d a.order) }.completed s
        (Encoding.diagnostics c.catalogue d a.order)
  | .resolve =>
      let (a, ds) := a.resolve d
      a.completed s ds

/-- Run all stages that are needed for a stage, as if propagation could not fail. -/
def run (c : AnalysisSetting R) (d : Diagram) (terminal : Stage) : Analysis R :=
  terminal.required.foldl (runStage c d) { order := d.runOrder }

/-- Run one stage.  Where propagation fails, there is only what the stages before it
gave. -/
def tryStage (c : AnalysisSetting R) (d : Diagram) (a : Analysis R) (s : Stage) :
    Except (Analysis R) (Analysis R) :=
  match s, a.graph with
  | .propagate, some g =>
      match Propagation.run? ⟨d, c.catalogue, c.limits⟩ a.order g with
      | none => .error a
      | some st => .ok (a.takeOver st)
  | s, _ => .ok (runStage c d a s)

/-- Run all stages that are needed for a stage. -/
def tryRun (c : AnalysisSetting R) (d : Diagram) (terminal : Stage) :
    Except (Analysis R) (Analysis R) :=
  terminal.required.foldlM (tryStage c d) { order := d.runOrder }

end Analysis
end SignalFlow
