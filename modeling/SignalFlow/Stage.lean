/-!
# Stages of an analysis

Every stage has the stages it builds on, the artifacts it produces, and a description.
-/

namespace SignalFlow

/-- Stages of an analysis. -/
inductive Stage where
  /-- Lay the diagram out as a flow graph. -/
  | layOut
  /-- Write the assumptions to the graph. -/
  | assume
  | propagate
  /-- Relate blocks that compute the same. -/
  | relate
  /-- Derive proof obligations. -/
  | oblige
  | encode
  /-- Close the definitions and unfold them in the model. -/
  | resolve
  deriving Repr, DecidableEq

/-- What stages produce. -/
inductive Artifact where
  | graph
  | facts
  | loops
  | equalities
  | obligations
  | encoding
  | definitions
  | model
  deriving Repr, DecidableEq

/-- Name of an artifact. -/
def Artifact.name : Artifact → String
  | .graph => "Graph"
  | .facts => "Facts"
  | .loops => "Loops"
  | .equalities => "DataEqualities"
  | .obligations => "Obligations"
  | .encoding => "Encoding"
  | .definitions => "Macros"
  | .model => "SymbolicModel"

namespace Stage

/-- All stages in the order of their execution. -/
def all : List Stage :=
  [.layOut, .assume, .propagate, .relate, .oblige, .encode, .resolve]

/-- Name of a stage. -/
def name : Stage → String
  | .layOut => "build_graph"
  | .assume => "seed_side_input"
  | .propagate => "propagate"
  | .relate => "data_equalities"
  | .oblige => "safety"
  | .encode => "encode"
  | .resolve => "resolve_macros"

/-- The stage with a name. -/
def ofName? (text : String) : Option Stage :=
  all.find? fun s => s.name == text

/-- The stages whose artifacts a stage uses. -/
def inputs : Stage → List Stage
  | .layOut => []
  | .assume => [.layOut]
  | .propagate => [.assume]
  | .relate => [.layOut]
  | .oblige => [.propagate]
  | .encode => []
  | .resolve => [.propagate, .relate, .oblige, .encode]

/-- The artifacts of a stage. -/
def outputs : Stage → List Artifact
  | .layOut => [.graph]
  | .assume => [.facts]
  | .propagate => [.facts, .loops]
  | .relate => [.equalities]
  | .oblige => [.obligations]
  | .encode => [.encoding]
  | .resolve => [.definitions, .model]

/-- What the artifacts of a stage change with. -/
def invalidationKey : Stage → String
  | .layOut => "model"
  | .assume => "graph + side input"
  | .propagate => "graph + analyzers + config"
  | .relate => "model"
  | .oblige => "facts + oracle + config"
  | .encode => "model + encoders"
  | .resolve => "encoding + facts + obligations"

/-- What holds after a stage. -/
def invariants : Stage → String
  | .layOut => "one node per block, one edge per signal line"
  | .assume => "user facts on the matching outgoing edges"
  | .propagate => "every outgoing edge carries a fact per category"
  | .relate => "equal-input twins related by equality"
  | .oblige => "obligations deduplicated"
  | .encode => "state updates after output assignments"
  | .resolve => "no placeholder survives in the emitted model"

/-- Append a stage behind the stages it builds on, unless it is there already. -/
def collect : Nat → List Stage → Stage → List Stage
  | 0, order, _ => order
  | depth + 1, order, s =>
      if order.contains s then order else s.inputs.foldl (collect depth) order ++ [s]

/-- The stages that are needed for a stage, in the order of their execution. -/
def required (s : Stage) : List Stage :=
  collect all.length [] s

end Stage
end SignalFlow
